import Unitas.Lib.Decimal

/-! The file senders of the `g`, `e`, `t` and `x` protocols: what is read from the file, what is
handed to the link, and what is reported. -/
namespace Unitas.Bnu
open Unitas.Decimal

/-- An open file from its offset on. With `failAt` the reads from that far on fail, and the one
before ends there. `failed` tells whether one has. -/
structure LocalFile where
  rest : List UInt8
  failAt : Option ℕ
  failed : Bool

def openFile (bytes : List UInt8) (failAt : Option ℕ) : LocalFile := ⟨bytes, failAt, false⟩

/-- `read(2)`; `none` for an error. -/
def LocalFile.read (n : ℕ) (f : LocalFile) : Option (List UInt8) × LocalFile :=
  match f.failAt with
  | some 0 => (none, { f with failed := true })
  | some k =>
    let chunk := f.rest.take (min n k)
    (some chunk, { f with rest := f.rest.drop (min n k), failAt := some (k - chunk.length) })
  | none => (some (f.rest.take n), { f with rest := f.rest.drop n })

/-- What `Write` has put on the link so far; `accepts` tells which calls it takes whole. `jumps` tells
of the others whether `pkwrite` does not return from them: `pkfail` goes to the `setjmp`. -/
structure Link where
  accepts : ℕ → Bool
  jumps : ℕ → Bool
  calls : ℕ
  written : List UInt8

/-- `(*Write)(fn, bytes, len)`; `none` when it does not return `len`. -/
def Link.write (bytes : List UInt8) (l : Link) : Option Link :=
  if l.accepts l.calls then
    some { l with calls := l.calls + 1, written := l.written ++ bytes }
  else none

/-- How a sender ends. `handed` is what of the file the link has taken. -/
structure Sent where
  success : Bool
  handed : List UInt8
  file : LocalFile
  link : Link

/-- `while ((len = read(fd, bufr, size)) > 0)`, which a short block ends, too. -/
def sendBlocks (size : ℕ) (frame : List UInt8 → List UInt8) :
    ℕ → List UInt8 → LocalFile → Link → Sent
  | 0, handed, f, l => ⟨false, handed, f, l⟩
  | fuel + 1, handed, f, l =>
    match f.read size with
    | (none, f) => ⟨true, handed, f, l⟩
    | (some [], f) => ⟨true, handed, f, l⟩
    | (some block, f) =>
      match l.write (frame block) with
      | none => ⟨false, handed, f, l⟩
      | some l =>
        if block.length ≠ size then ⟨true, handed ++ block, f, l⟩
        else sendBlocks size frame fuel (handed ++ block) f l

/-- The mark at the end. `checked` tells of which calls of `Write` it is seen that the mark has not
been taken. -/
def sendEnd (mark : List UInt8) (checked : ℕ → Bool) (s : Sent) : Sent :=
  if s.success then
    match s.link.write mark with
    | none => { s with success := !checked s.link.calls }
    | some link => { s with link }
  else s

def sendFile (size : ℕ) (frame : List UInt8 → List UInt8) (mark : List UInt8)
    (checked : ℕ → Bool) (f : LocalFile) (l : Link) : Sent :=
  sendEnd mark checked (sendBlocks size frame (f.rest.length + 1) [] f l)

/-- `gwrblk` is `pkwrite`, and sends an empty packet at the end. Nobody looks at a -1 for it, but
`pkfail` ends `gwrdata` there, too. -/
def gwrdata (BUFSIZ : ℕ) (f : LocalFile) (l : Link) : Sent := sendFile BUFSIZ id [] l.jumps f l

def XBUFSIZ : ℕ := 512

def xwrdata (f : LocalFile) (l : Link) : Sent := sendFile XBUFSIZ id [] (fun _ => false) f l

/-- The size of a `long` and the order of its bytes. -/
structure Host where
  longSize : ℕ
  littleEndian : Bool

/-- The four bytes of a number in network order. -/
def netBytes (n : ℕ) : List UInt8 :=
  [UInt8.ofNat (n / 2 ^ 24), UInt8.ofNat (n / 2 ^ 16), UInt8.ofNat (n / 2 ^ 8), UInt8.ofNat n]

/-- `(long)htonl(n)` in memory. -/
def htonl (h : Host) (n : ℕ) : List UInt8 :=
  if h.littleEndian then netBytes n ++ List.replicate (h.longSize - 4) 0
  else List.replicate (h.longSize - 4) 0 ++ netBytes n

def TBUFSIZE : ℕ := 1024

def twrdata (h : Host) (f : LocalFile) (l : Link) : Sent :=
  sendFile TBUFSIZE (fun block => htonl h block.length ++ block) (htonl h 0) (fun _ => true) f l

def EBUFSIZ : ℕ := 1024
def EMESGLEN : ℕ := 20

/-- The length of the file in `cmsglen`, of which the rest is what happens to be there. -/
def cmsglen (junk : ℕ → UInt8) (n : ℕ) : List UInt8 :=
  (List.range EMESGLEN).map fun i => (decimal n ++ [0]).getD i (junk i)

/-- The loop of `ewrdata`, with what is left of the announced length. -/
def ewrBlocks : ℕ → List UInt8 → ℤ → LocalFile → Link → Sent
  | 0, handed, _, f, l => ⟨false, handed, f, l⟩
  | fuel + 1, handed, msglen, f, l =>
    match f.read EBUFSIZ with
    | (none, f) => ⟨false, handed, f, l⟩
    | (some [], f) => ⟨msglen = 0, handed, f, l⟩
    | (some block, f) =>
      match l.write block with
      | none => ⟨false, handed, f, l⟩
      | some l =>
        if msglen - block.length ≤ 0 then ⟨true, handed ++ block, f, l⟩
        else ewrBlocks fuel (handed ++ block) (msglen - block.length) f l

/-- `fstat` gives the length of the file. -/
def ewrdata (junk : ℕ → UInt8) (f : LocalFile) (l : Link) : Sent :=
  match l.write (cmsglen junk f.rest.length) with
  | none => ⟨false, [], f, l⟩
  | some l => ewrBlocks (f.rest.length + 1) [] f.rest.length f l

/-- All of the file is on the link after a success, and a failed `read` is a failure. -/
def Complete (bytes : List UInt8) (s : Sent) : Prop :=
  (s.success → s.handed = bytes) ∧ (s.file.failed → ¬ s.success)

/-- Blocks of `size` that hold `n` bytes. -/
def blocks (size n : ℕ) : ℕ := (n + size - 1) / size

/-- A file of `length` bytes has a `read` that fails before its end, or at its end where the
sender asks for more, and the link takes the blocks before and, where it is `checked`, the mark
behind them. -/
def CutOff (size length : ℕ) (failAt : Option ℕ) (accepts checked : ℕ → Bool) : Prop :=
  ∃ n, failAt = some n ∧ (n < length ∨ n = length ∧ size ∣ n) ∧
    (∀ i < blocks size n, accepts i) ∧ (checked (blocks size n) → accepts (blocks size n))

theorem blocks_add {size : ℕ} (hsize : 0 < size) (n : ℕ) :
    blocks size (n + size) = blocks size n + 1 := by
  unfold blocks
  rw [show n + size + size - 1 = n + size - 1 + size by omega, Nat.add_div_right _ hsize]

theorem blocks_of_le {size n : ℕ} (hpos : 0 < n) (h : n ≤ size) : blocks size n = 1 := by
  unfold blocks
  rw [show n + size - 1 = n - 1 + size by omega, Nat.add_div_right _ (by omega),
    Nat.div_eq_of_lt (by omega)]

/-- A read that does not fail gets a block, or as much as there is before the end or before the
reads fail. -/
theorem LocalFile.read_eq {size : ℕ} (hsize : 0 < size) (rest : List UInt8) {failAt : Option ℕ}
    (h : failAt ≠ some 0) :
    ∃ m, 0 < m ∧ m ≤ size ∧ (∀ n, failAt = some n → m = min size n) ∧
      (failAt = none → m = size) ∧
      LocalFile.read size ⟨rest, failAt, false⟩ = (some (rest.take m),
        ⟨rest.drop m, failAt.map (· - (rest.take m).length), false⟩) := by
  match failAt with
  | none => exact ⟨size, hsize, le_rfl, by simp, by simp, rfl⟩
  | some 0 => exact absurd rfl h
  | some (k + 1) =>
    refine ⟨min size (k + 1), by omega, by omega, ?_, by simp, rfl⟩
    rintro n hn
    rw [Option.some.inj hn]

/-- How the blocks of a file end. -/
def BlocksEnd (size : ℕ) (handed rest : List UInt8) (failAt : Option ℕ) (l : Link) (r : Sent) :
    Prop :=
  (∃ n, failAt = some n ∧ (n < rest.length ∨ n = rest.length ∧ size ∣ n) ∧
      (∀ i < blocks size n, l.accepts (l.calls + i)) ∧ r.success ∧
      (r.handed ≠ handed ++ rest ∨ r.file.failed) ∧ r.link.accepts = l.accepts ∧
      r.link.calls = l.calls + blocks size n) ∨
    ¬ CutOff size rest.length failAt (fun i => l.accepts (l.calls + i)) (fun _ => false) ∧
      (r.success → r.handed = handed ++ rest) ∧ r.file.failed = false

theorem sendBlocks_end {size : ℕ} (hsize : 0 < size) (frame : List UInt8 → List UInt8)
    (fuel : ℕ) : ∀ handed rest failAt l, rest.length < fuel →
      BlocksEnd size handed rest failAt l
        (sendBlocks size frame fuel handed ⟨rest, failAt, false⟩ l) := by
  induction fuel with
  | zero => exact fun _ _ _ _ h => absurd h (Nat.not_lt_zero _)
  | succ fuel ih =>
    intro handed rest failAt l hfuel
    rw [sendBlocks]
    by_cases hzero : failAt = some 0
    · subst hzero
      left
      have hblocks : blocks size 0 = 0 := by
        rw [blocks, Nat.zero_add, Nat.div_eq_of_lt (by omega)]
      refine ⟨0, rfl, ?_, ?_, rfl, .inr rfl, rfl, ?_⟩
      · rcases Nat.eq_zero_or_pos rest.length with h | h
        · exact .inr ⟨h.symm, dvd_zero _⟩
        · exact .inl h
      · rw [hblocks]
        omega
      · rw [hblocks]
        rfl
    obtain ⟨m, hmpos, hmsize, hsome, hnone, hread⟩ := LocalFile.read_eq hsize rest hzero
    have hpos : ∀ n, failAt = some n → 0 < n := by
      intro n hn
      rcases Nat.eq_zero_or_pos n with rfl | h
      · exact absurd hn hzero
      · exact h
    have hlen : (rest.take m).length = min m rest.length := List.length_take
    rw [hread]
    cases hblock : rest.take m with
    | nil =>
      have hrest : rest = [] := by
        rcases List.take_eq_nil_iff.mp hblock with h | h
        · omega
        · exact h
      subst hrest
      right
      refine ⟨?_, by simp, rfl⟩
      rintro ⟨n, hn, hlt | ⟨rfl, _⟩, -⟩
      · exact absurd hlt (Nat.not_lt_zero n)
      · exact absurd hn hzero
    | cons c cs =>
      dsimp only
      rw [← hblock, Link.write]
      have hne : rest ≠ [] := by
        rintro rfl
        simp at hblock
      have hlenpos := List.length_pos_iff.mpr hne
      by_cases haccept : l.accepts l.calls
      · rw [if_pos haccept]
        dsimp only
        by_cases hshort : (rest.take m).length ≠ size
        · rw [if_pos hshort]
          by_cases hcut : ∃ n, failAt = some n ∧ n < rest.length
          · obtain ⟨n, hn, hlt⟩ := hcut
            have hm := hsome n hn
            have hnpos := hpos n hn
            have hblocks : blocks size n = 1 := blocks_of_le hnpos (by omega)
            left
            refine ⟨n, hn, .inl hlt, ?_, rfl, .inl ?_, rfl, ?_⟩
            · intro i hi
              obtain rfl : i = 0 := by omega
              exact haccept
            · intro heq
              have := congrArg List.length heq
              rw [List.length_append, List.length_append, hlen] at this
              omega
            · rw [hblocks]
          · right
            have hall : rest.length ≤ m := by
              cases hfail : failAt with
              | none =>
                have := hnone hfail
                omega
              | some n =>
                have hm := hsome n hfail
                have hge : ¬ n < rest.length := fun h => hcut ⟨n, hfail, h⟩
                omega
            refine ⟨?_, fun _ => by rw [List.take_of_length_le hall], rfl⟩
            rintro ⟨n, hn, hlt | ⟨rfl, hdvd⟩, -⟩
            · exact hcut ⟨n, hn, hlt⟩
            · have := Nat.le_of_dvd hlenpos hdvd
              omega
        · rw [if_neg hshort]
          rw [not_not] at hshort
          obtain rfl : m = size := by omega
          have hsplit : rest.take m ++ rest.drop m = rest := List.take_append_drop m rest
          have hdrop : (rest.drop m).length = rest.length - m := List.length_drop
          have hge : ∀ n, failAt = some n → ∃ k, n = k + m := by
            intro n hn
            have := hsome n hn
            exact ⟨n - m, by omega⟩
          rw [hshort]
          rcases ih (handed ++ rest.take m) (rest.drop m) (failAt.map (· - m))
            ⟨l.accepts, l.jumps, l.calls + 1, l.written ++ frame (rest.take m)⟩ (by omega) with
            ⟨k, hk, hend, hacc, hsucc, hhand, hla, hlc⟩ | ⟨hnot, hhand, hfail⟩
          · left
            obtain ⟨n, hn, rfl⟩ := Option.map_eq_some_iff.mp hk
            obtain ⟨k, rfl⟩ := hge n hn
            rw [Nat.add_sub_cancel] at hend hacc hlc
            have hblocks := blocks_add hsize k
            refine ⟨k + m, hn, ?_, ?_, hsucc, ?_, hla, ?_⟩
            · rcases hend with h | ⟨h, hdvd⟩
              · exact .inl (by omega)
              · exact .inr ⟨by omega, (Nat.dvd_add_self_right).mpr hdvd⟩
            · intro i hi
              cases i with
              | zero => exact haccept
              | succ i =>
                have := hacc i (by omega)
                rwa [Nat.add_assoc, Nat.add_comm 1] at this
            · rwa [List.append_assoc, hsplit] at hhand
            · rw [hlc, hblocks]
              dsimp only
              omega
          · right
            refine ⟨?_, ?_, hfail⟩
            · rintro ⟨n, hn, hend, hall, -⟩
              obtain ⟨k, rfl⟩ := hge n hn
              have hblocks := blocks_add hsize k
              refine hnot ⟨k, by rw [hn, Option.map_some, Nat.add_sub_cancel], ?_, ?_,
                fun h => absurd h Bool.false_ne_true⟩
              · rcases hend with h | ⟨h, hdvd⟩
                · exact .inl (by omega)
                · exact .inr ⟨by omega, (Nat.dvd_add_self_right).mp hdvd⟩
              · intro i hi
                have := hall (i + 1) (by omega)
                dsimp only at this ⊢
                rwa [show l.calls + 1 + i = l.calls + (i + 1) by omega]
            · rwa [List.append_assoc, hsplit] at hhand
      · rw [if_neg haccept]
        right
        refine ⟨?_, by simp, rfl⟩
        rintro ⟨n, hn, -, hall, -⟩
        have hnpos := hpos n hn
        have hb : 0 < blocks size n := by
          rw [blocks]
          exact Nat.div_pos (by omega) hsize
        exact haccept (hall 0 hb)

/-- With one of the plain loops a transfer is complete exactly when it is not cut off unnoticed;
a mark that is looked at must get through for that, too. -/
theorem sendFile_complete_iff {size : ℕ} (hsize : 0 < size) (frame : List UInt8 → List UInt8)
    (mark : List UInt8) (checked : ℕ → Bool) (bytes : List UInt8) (failAt : Option ℕ) (l : Link) :
    Complete bytes (sendFile size frame mark checked (openFile bytes failAt) l) ↔
      ¬ CutOff size bytes.length failAt (fun i => l.accepts (l.calls + i))
        (fun i => checked (l.calls + i)) := by
  unfold sendFile
  have hend := sendBlocks_end hsize frame (bytes.length + 1) [] bytes failAt l
    (Nat.lt_succ_self _)
  change Complete bytes (sendEnd mark checked
    (sendBlocks size frame (bytes.length + 1) [] ⟨bytes, failAt, false⟩ l)) ↔ _
  generalize sendBlocks size frame (bytes.length + 1) [] ⟨bytes, failAt, false⟩ l = r at hend ⊢
  rcases hend with ⟨n, hn, hlt, hacc, hsucc, hhand, hla, hlc⟩ | ⟨hnot, hhand, hfail⟩
  · have hmiss : ∀ link, ¬ Complete bytes { r with link } := by
      rintro link ⟨hall, hfailed⟩
      rcases hhand with h | h
      · exact h (hall hsucc)
      · exact hfailed h hsucc
    have hcut : CutOff size bytes.length failAt (fun i => l.accepts (l.calls + i))
        (fun i => checked (l.calls + i)) ↔
          (checked r.link.calls → r.link.accepts r.link.calls) := by
      rw [hla, hlc]
      constructor
      · rintro ⟨k, hk, -, -, hmark⟩
        obtain rfl : n = k := Option.some.inj (hn.symm.trans hk)
        exact hmark
      · exact fun hmark => ⟨n, hn, hlt, hacc, hmark⟩
    rw [hcut, sendEnd, if_pos hsucc, Link.write]
    by_cases htake : r.link.accepts r.link.calls
    · rw [if_pos htake]
      exact ⟨fun h => absurd h (hmiss _), fun h => absurd (fun _ => htake) h⟩
    · rw [if_neg htake]
      dsimp only
      cases hcheck : checked r.link.calls with
      | false =>
        refine ⟨fun h => absurd ⟨fun _ => h.1 rfl, fun hf => absurd rfl (h.2 hf)⟩ (hmiss r.link),
          fun h => absurd (fun hc => absurd hc Bool.false_ne_true) h⟩
      | true => exact ⟨fun _ h => htake (h rfl), fun _ => ⟨by simp, by simp⟩⟩
  · have hcut : ¬ CutOff size bytes.length failAt (fun i => l.accepts (l.calls + i))
        (fun i => checked (l.calls + i)) := by
      rintro ⟨n, hn, hlt, hall, -⟩
      exact hnot ⟨n, hn, hlt, hall, fun h => absurd h Bool.false_ne_true⟩
    refine ⟨fun _ => hcut, fun _ => ?_⟩
    rw [sendEnd]
    split_ifs with hsucc
    · cases r.link.write mark with
      | none => exact ⟨fun _ => hhand hsucc, by simp [hfail]⟩
      | some link => exact ⟨fun _ => hhand hsucc, by simp [hfail]⟩
    · exact ⟨fun h => absurd h hsucc, by simp [hfail]⟩

theorem ewrBlocks_complete (fuel : ℕ) : ∀ handed rest failAt l, rest.length < fuel →
    Complete (handed ++ rest) (ewrBlocks fuel handed rest.length ⟨rest, failAt, false⟩ l) := by
  induction fuel with
  | zero => exact fun _ _ _ _ h => absurd h (Nat.not_lt_zero _)
  | succ fuel ih =>
    intro handed rest failAt l hfuel
    rw [ewrBlocks]
    by_cases hzero : failAt = some 0
    · subst hzero
      exact ⟨by simp [LocalFile.read], by simp [LocalFile.read]⟩
    obtain ⟨m, hmpos, _, _, _, hread⟩ := LocalFile.read_eq (show 0 < EBUFSIZ by decide) rest hzero
    have hlen : (rest.take m).length = min m rest.length := List.length_take
    rw [hread]
    cases hblock : rest.take m with
    | nil =>
      have hrest : rest = [] := by
        rcases List.take_eq_nil_iff.mp hblock with h | h
        · omega
        · exact h
      subst hrest
      exact ⟨by simp, by simp⟩
    | cons c cs =>
      dsimp only
      rw [← hblock, Link.write]
      by_cases haccept : l.accepts l.calls
      · rw [if_pos haccept]
        dsimp only
        by_cases hall : rest.length ≤ m
        · rw [if_pos (by omega), List.take_of_length_le hall]
          exact ⟨fun _ => rfl, by simp⟩
        · have hcons : (rest.take m).length < rest.length := by omega
          have hpos : 0 < (rest.take m).length := by omega
          rw [if_neg (by omega)]
          have hdrop : ((rest.drop m).length : ℤ) = rest.length - (rest.take m).length := by
            rw [List.length_drop]
            omega
          have := ih (handed ++ rest.take m) (rest.drop m)
            (failAt.map (· - (rest.take m).length))
            ⟨l.accepts, l.jumps, l.calls + 1, l.written ++ rest.take m⟩ (by
              rw [List.length_drop]
              omega)
          rwa [List.append_assoc, List.take_append_drop, hdrop] at this
      · rw [if_neg haccept]
        exact ⟨by simp, by simp⟩

theorem ewrdata_complete (junk : ℕ → UInt8) (bytes : List UInt8) (failAt : Option ℕ) (l : Link) :
    Complete bytes (ewrdata junk (openFile bytes failAt) l) := by
  unfold ewrdata
  cases l.write (cmsglen junk (openFile bytes failAt).rest.length) with
  | none => exact ⟨by simp, by simp⟩
  | some l =>
    have := ewrBlocks_complete (bytes.length + 1) [] bytes failAt l (Nat.lt_succ_self _)
    rwa [List.nil_append] at this

/-- A transfer by `ewrdata` is complete. The other senders take a failed `read` for the end of
the file, and are right about it only as long as nothing is cut off. -/
theorem senders_complete (BUFSIZ : ℕ) (hB : 0 < BUFSIZ) (h : Host) (junk : ℕ → UInt8)
    (bytes : List UInt8) (failAt : Option ℕ) (l : Link) :
    Complete bytes (ewrdata junk (openFile bytes failAt) l) ∧
    (Complete bytes (gwrdata BUFSIZ (openFile bytes failAt) l) ↔
      ¬ CutOff BUFSIZ bytes.length failAt (fun i => l.accepts (l.calls + i))
        (fun i => l.jumps (l.calls + i))) ∧
    (Complete bytes (twrdata h (openFile bytes failAt) l) ↔
      ¬ CutOff TBUFSIZE bytes.length failAt (fun i => l.accepts (l.calls + i)) (fun _ => true)) ∧
    (Complete bytes (xwrdata (openFile bytes failAt) l) ↔
      ¬ CutOff XBUFSIZ bytes.length failAt (fun i => l.accepts (l.calls + i)) (fun _ => false)) :=
  ⟨ewrdata_complete junk bytes failAt l,
    sendFile_complete_iff hB id [] l.jumps bytes failAt l,
    sendFile_complete_iff (by decide) _ (htonl h 0) (fun _ => true) bytes failAt l,
    sendFile_complete_iff (by decide) id [] (fun _ => false) bytes failAt l⟩

/-- A link that takes everything. -/
def openLink : Link := ⟨fun _ => true, fun _ => false, 0, []⟩

theorem senders_complete_short :
    Complete [97] (gwrdata 512 (openFile [97] none) openLink) :=
  (senders_complete 512 (by decide) ⟨8, true⟩ (fun _ => 0) [97] none openLink).2.1.mpr
    (fun ⟨_, h, _⟩ => nomatch h)

/-- The first `read` fails, and `gwrdata` reports success. -/
theorem senders_not_complete :
    ¬ ∀ bytes failAt l, Complete bytes (gwrdata 512 (openFile bytes failAt) l) := by
  intro h
  exact absurd ((h [97] (some 0) openLink).1 rfl) (by decide)

end Unitas.Bnu
