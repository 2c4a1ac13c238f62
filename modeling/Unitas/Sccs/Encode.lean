import Mathlib.Data.BitVec
import Mathlib.Tactic.IntervalCases
import Unitas.Sccs.Get

/-! Binary files in an s-file: lines of at most 45 bytes, three of them in four characters. -/
namespace Unitas.Sccs.Encode
open Unitas.Lines

/-- A `char` as an `int`. -/
def sext (c : UInt8) : BitVec 32 := c.toBitVec.signExtend 32

/-- An `int` as the byte that `putc` writes. -/
def putc (c : BitVec 32) : UInt8 := ⟨c.setWidth 8⟩

def ENC (c : BitVec 32) : UInt8 := putc ((c &&& 0o77) + 32)

def DEC (c : UInt8) : BitVec 32 := (sext c - 32) &&& 0o77

/-- The byte at an index of a buffer or a string. -/
def byte (p : Line) (i : ℕ) : UInt8 := p.getD i 0

def e_outdec (p : Line) : Line :=
  let c1 := (sext (byte p 0)).sshiftRight 2
  let c2 := sext (byte p 0) <<< 4 &&& 0o60 ||| (sext (byte p 1)).sshiftRight 4 &&& 0o17
  let c3 := sext (byte p 1) <<< 2 &&& 0o74 ||| (sext (byte p 2)).sshiftRight 6 &&& 0o3
  let c4 := sext (byte p 2) &&& 0o77
  [ENC c1, ENC c2, ENC c3, ENC c4]

/-- The groups of `n` bytes. The last one may have bytes that were in the buffer before. -/
def groups : ℕ → Line → Line
  | 0, _ => []
  | n + 1, buf => e_outdec buf ++ groups (n + 1 - 3) (buf.drop 3)
termination_by n => n

/-- The loop of `encode`; `buf` is what the buffer holds. `fr` reads up to 45 bytes into it. -/
def encodeFrom (buf input : Line) : List Line :=
  let n := min 45 input.length
  let buf := input.take n ++ buf.drop n
  let line := ENC (BitVec.ofNat 32 n) :: groups n buf ++ [10]
  if input = [] then [line] else line :: encodeFrom buf (input.drop 45)
termination_by input.length
decreasing_by
  rename_i h
  have := List.length_pos_iff.mpr h
  rw [List.length_drop]
  omega

def encode (buf input : Line) : List Line := encodeFrom buf input

def d_outdec (p : Line) (n : ℕ) : Line :=
  let c1 := DEC (byte p 0) <<< 2 ||| DEC (byte p 1) >>> 4
  let c2 := DEC (byte p 1) <<< 4 ||| DEC (byte p 2) >>> 2
  let c3 := DEC (byte p 2) <<< 6 ||| DEC (byte p 3)
  (if n ≥ 1 then [putc c1] else []) ++ (if n ≥ 2 then [putc c2] else []) ++
    if n ≥ 3 then [putc c3] else []

/-- The loop of `decode`. -/
def ungroup : ℕ → Line → Line
  | 0, _ => []
  | n + 1, bp => d_outdec bp (n + 1) ++ ungroup (n + 1 - 3) (bp.drop 4)
termination_by n => n

def decode (istr : Line) : Line := ungroup (DEC (byte istr 0)).toNat istr.tail

/-- Six bits. -/
theorem toNat_low (c : BitVec 32) : (c &&& 0o77).toNat < 64 := by
  rw [BitVec.toNat_and]
  exact Nat.lt_of_le_of_lt Nat.and_le_right (by decide)

theorem DEC_ENC (c : BitVec 32) : DEC (ENC c) = c &&& 0o77 := by
  unfold DEC ENC putc sext
  have hall : ∀ k : Fin 64, ((((BitVec.ofNat 32 k.val + 32).setWidth 8).signExtend 32 - 32) &&&
      0o77 : BitVec 32) = BitVec.ofNat 32 k.val := by decide
  have h := hall ⟨(c &&& 0o77).toNat, toNat_low c⟩
  rw [BitVec.ofNat_toNat, BitVec.setWidth_eq] at h
  exact h

/-- An encoded character is printing. -/
theorem toNat_ENC (c : BitVec 32) : 32 ≤ (ENC c).toNat ∧ (ENC c).toNat < 96 := by
  unfold ENC putc
  have hall : ∀ k : Fin 64, 32 ≤ ((BitVec.ofNat 32 k.val + 32).setWidth 8).toNat ∧
      ((BitVec.ofNat 32 k.val + 32).setWidth 8).toNat < 96 := by decide
  have h := hall ⟨(c &&& 0o77).toNat, toNat_low c⟩
  rw [BitVec.ofNat_toNat, BitVec.setWidth_eq] at h
  exact h

/-! ### A group -/

theorem outdec_first (p0 p1 : UInt8) :
    putc (((sext p0).sshiftRight 2 &&& 0o77) <<< 2 |||
      ((sext p0 <<< 4 &&& 0o60 ||| (sext p1).sshiftRight 4 &&& 0o17) &&& 0o77) >>> 4) = p0 := by
  unfold putc sext
  refine UInt8.eq_of_toBitVec_eq (BitVec.eq_of_getLsbD_eq fun i hi => ?_)
  dsimp only
  interval_cases i <;> simp [BitVec.getElem_signExtend, BitVec.getElem_sshiftRight]

theorem outdec_second (p0 p1 p2 : UInt8) :
    putc (((sext p0 <<< 4 &&& 0o60 ||| (sext p1).sshiftRight 4 &&& 0o17) &&& 0o77) <<< 4 |||
      ((sext p1 <<< 2 &&& 0o74 ||| (sext p2).sshiftRight 6 &&& 0o3) &&& 0o77) >>> 2) = p1 := by
  unfold putc sext
  refine UInt8.eq_of_toBitVec_eq (BitVec.eq_of_getLsbD_eq fun i hi => ?_)
  dsimp only
  interval_cases i <;> simp [BitVec.getElem_signExtend, BitVec.getElem_sshiftRight]

theorem outdec_third (p1 p2 : UInt8) :
    putc (((sext p1 <<< 2 &&& 0o74 ||| (sext p2).sshiftRight 6 &&& 0o3) &&& 0o77) <<< 6 |||
      (sext p2 &&& 0o77) &&& 0o77) = p2 := by
  unfold putc sext
  refine UInt8.eq_of_toBitVec_eq (BitVec.eq_of_getLsbD_eq fun i hi => ?_)
  dsimp only
  interval_cases i <;> simp [BitVec.getElem_signExtend, BitVec.getElem_sshiftRight]

theorem length_e_outdec (p : Line) : (e_outdec p).length = 4 := rfl

/-- The bytes of a group come back, as many of them as are asked for. -/
theorem d_outdec_e_outdec (p rest : Line) (n : ℕ) :
    d_outdec (e_outdec p ++ rest) n = [byte p 0, byte p 1, byte p 2].take n := by
  have h0 : byte (e_outdec p ++ rest) 0 = ENC ((sext (byte p 0)).sshiftRight 2) := rfl
  have h1 : byte (e_outdec p ++ rest) 1 =
      ENC (sext (byte p 0) <<< 4 &&& 0o60 ||| (sext (byte p 1)).sshiftRight 4 &&& 0o17) := rfl
  have h2 : byte (e_outdec p ++ rest) 2 =
      ENC (sext (byte p 1) <<< 2 &&& 0o74 ||| (sext (byte p 2)).sshiftRight 6 &&& 0o3) := rfl
  have h3 : byte (e_outdec p ++ rest) 3 = ENC (sext (byte p 2) &&& 0o77) := rfl
  unfold d_outdec
  simp only [h0, h1, h2, h3, DEC_ENC]
  rw [outdec_first, outdec_second, outdec_third]
  match n with
  | 0 => rfl
  | 1 => rfl
  | 2 => rfl
  | n + 3 => simp

theorem drop_e_outdec (p rest : Line) : (e_outdec p ++ rest).drop 4 = rest := by
  rw [← length_e_outdec p, List.drop_left]

theorem ungroup_zero (bp : Line) : ungroup 0 bp = [] := by
  rw [ungroup]

theorem ungroup_succ (n : ℕ) (p buf rest : Line) :
    ungroup (n + 1) (e_outdec p ++ groups (n + 1 - 3) buf ++ rest) =
      [byte p 0, byte p 1, byte p 2].take (n + 1) ++
        ungroup (n + 1 - 3) (groups (n + 1 - 3) buf ++ rest) := by
  rw [ungroup, List.append_assoc, d_outdec_e_outdec, drop_e_outdec]

/-- The groups of some bytes, before whatever is left in the buffer. -/
theorem ungroup_groups (chunk : Line) (stale rest : Line) :
    ungroup chunk.length (groups chunk.length (chunk ++ stale) ++ rest) = chunk := by
  match chunk with
  | [] => exact ungroup_zero _
  | [a] =>
    rw [List.length_singleton, groups, ungroup_succ, show 0 + 1 - 3 = 0 from rfl, ungroup_zero]
    rfl
  | [a, b] =>
    rw [List.length_cons, List.length_singleton, groups, ungroup_succ,
      show 1 + 1 - 3 = 0 from rfl, ungroup_zero]
    rfl
  | a :: b :: c :: chunk =>
    have ih := ungroup_groups chunk stale rest
    have hlen : chunk.length + 1 + 1 + 1 - 3 = chunk.length := Nat.add_sub_cancel _ 3
    have htake : [a, b, c].take (chunk.length + 1 + 1 + 1) = [a, b, c] :=
      List.take_of_length_le (Nat.le_add_left _ _)
    rw [List.length_cons, List.length_cons, List.length_cons, groups, ungroup_succ, hlen]
    exact congrArg₂ (· ++ ·) htake ih

/-! ### A line -/

/-- The line that `encode` writes for some bytes. -/
def lineOf (chunk stale : Line) : Line :=
  ENC (BitVec.ofNat 32 chunk.length) :: groups chunk.length (chunk ++ stale) ++ [10]

theorem encodeFrom_nil (buf : Line) : encodeFrom buf [] = [lineOf [] buf] := by
  rw [encodeFrom]
  rfl

theorem encodeFrom_eq {input : Line} (hne : input ≠ []) (buf : Line) :
    ∃ stale, encodeFrom buf input =
      lineOf (input.take 45) stale :: encodeFrom (input.take 45 ++ stale) (input.drop 45) := by
  refine ⟨buf.drop (min 45 input.length), ?_⟩
  have htake : input.take (min 45 input.length) = input.take 45 := by
    rw [← List.take_take, List.take_length]
  rw [encodeFrom]
  simp only [if_neg hne, htake]
  rw [lineOf, List.length_take]

theorem decode_lineOf {chunk : Line} (hlen : chunk.length ≤ 45) (stale : Line) :
    decode (lineOf chunk stale) = chunk := by
  have hhead : (DEC (byte (lineOf chunk stale) 0)).toNat = chunk.length := by
    have hall : ∀ k : Fin 46, (BitVec.ofNat 32 k.val &&& 0o77 : BitVec 32).toNat = k.val := by decide
    change (DEC (ENC (BitVec.ofNat 32 chunk.length))).toNat = chunk.length
    rw [DEC_ENC]
    exact hall ⟨chunk.length, Nat.lt_succ_of_le hlen⟩
  unfold decode
  rw [hhead]
  exact ungroup_groups chunk stale [10]

/-- What may stand in the body of an s-file. -/
structure Acceptable (line : Line) : Prop where
  ended : Ended line
  no_null : 0 ∉ line
  no_ctl : CTLCHAR ∉ line

theorem mem_groups {n : ℕ} {buf : Line} {c : UInt8} (h : c ∈ groups n buf) :
    32 ≤ c.toNat ∧ c.toNat < 96 := by
  induction n, buf using groups.induct with
  | case1 => exact absurd h (by simp [groups])
  | case2 n buf ih =>
    rw [groups] at h
    rcases List.mem_append.mp h with h | h
    · unfold e_outdec at h
      simp only [List.mem_cons, List.not_mem_nil, or_false] at h
      rcases h with rfl | rfl | rfl | rfl <;> exact toNat_ENC _
    · exact ih h

theorem acceptable_lineOf (chunk stale : Line) : Acceptable (lineOf chunk stale) := by
  have hprint : ∀ c ∈ ENC (BitVec.ofNat 32 chunk.length) :: groups chunk.length (chunk ++ stale),
      32 ≤ c.toNat ∧ c.toNat < 96 := by
    intro c hc
    rcases List.mem_cons.mp hc with rfl | hc
    · exact toNat_ENC _
    · exact mem_groups hc
  have hnot : ∀ d : UInt8, d.toNat < 32 →
      d ∉ ENC (BitVec.ofNat 32 chunk.length) :: groups chunk.length (chunk ++ stale) := by
    intro d hd hmem
    have := (hprint d hmem).1
    omega
  refine ⟨⟨_, hnot 10 (by decide), rfl⟩, fun hmem => ?_, fun hmem => ?_⟩
  · rcases List.mem_append.mp hmem with h | h
    · exact hnot 0 (by decide) h
    · exact absurd h (by decide)
  · rcases List.mem_append.mp hmem with h | h
    · exact hnot CTLCHAR (by decide) h
    · exact absurd h (by decide)

/-! ### The whole file -/

theorem encodeFrom_spec (buf input : Line) :
    (encodeFrom buf input).flatMap decode = input ∧
      ∀ line ∈ encodeFrom buf input, Acceptable line := by
  by_cases hne : input = []
  · subst hne
    rw [encodeFrom_nil]
    refine ⟨?_, fun line hline => ?_⟩
    · rw [List.flatMap_singleton]
      exact decode_lineOf (Nat.zero_le _) buf
    · rw [List.mem_singleton.mp hline]
      exact acceptable_lineOf [] buf
  · have hlt : (input.drop 45).length < input.length := by
      have := List.length_pos_iff.mpr hne
      rw [List.length_drop]
      omega
    obtain ⟨stale, heq⟩ := encodeFrom_eq hne buf
    obtain ⟨hdec, hacc⟩ := encodeFrom_spec (input.take 45 ++ stale) (input.drop 45)
    rw [heq]
    refine ⟨?_, List.forall_mem_cons.mpr ⟨acceptable_lineOf _ _, hacc⟩⟩
    rw [List.flatMap_cons, hdec, decode_lineOf (List.length_take_le _ _), List.take_append_drop]
termination_by input.length

/-- Lines that are acceptable are read as they were written. -/
theorem readLines_acceptable {ls : List Line} (h : ∀ line ∈ ls, Acceptable line) :
    readLines ls.flatten = ls := by
  have hnull : 0 ∉ ls.flatten := by
    intro hmem
    obtain ⟨line, hline, hmem⟩ := List.mem_flatten.mp hmem
    exact (h line hline).no_null hmem
  have hfile : IsFile ls := by
    induction ls with
    | nil => exact True.intro
    | cons line ls ih =>
      obtain ⟨hline, hls⟩ := List.forall_mem_cons.mp h
      refine ⟨Or.inl hline.ended, ih hls ?_⟩
      exact fun hmem => hnull (List.mem_append_right _ hmem)
  rw [readLines_eq hnull, fileLines_flatten ls hfile]

/-- The lines that `encode` writes are decoded to the bytes that it has read, whatever the buffer
held before. They have neither a null byte nor a control character and end with a newline, are
read one by one as they were written, and each of them is a text of the body. -/
theorem decode_encode_bytes (buf input : Line) :
    (encode buf input).flatMap decode = input ∧
      (∀ line ∈ encode buf input, Acceptable line) ∧
      readLines (encode buf input).flatten = encode buf input ∧
      ∀ maxser, ∀ line ∈ encode buf input, item maxser line = some (.text line) := by
  obtain ⟨hdec, hacc⟩ := encodeFrom_spec buf input
  refine ⟨hdec, hacc, readLines_acceptable hacc, fun maxser line hline => item_text fun h => ?_⟩
  obtain ⟨⟨text, -, rfl⟩, -, hctl⟩ := hacc line hline
  cases text with
  | nil => exact absurd h (by decide)
  | cons c text =>
    obtain rfl : c = CTLCHAR := h
    exact hctl List.mem_cons_self

end Unitas.Sccs.Encode
