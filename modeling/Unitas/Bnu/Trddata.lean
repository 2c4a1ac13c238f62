import Mathlib.Data.List.Induction
import Unitas.Bnu.SendFile
import Unitas.Lib.ByteStream
import Unitas.Lib.CInt

/-! The `t` protocol: `trddata` reads the blocks of `twrdata`, each after its length. -/
namespace Unitas.Bnu
open Unitas.ByteStream Unitas.CInt

/-- A number in network order. -/
def netValue (bytes : List UInt8) : ℕ := bytes.foldl (fun n b => 256 * n + b.toNat) 0

/-- `ntohl` of a `long` in memory, of which it takes 32 bits. -/
def ntohl (h : Host) (bytes : List UInt8) : ℕ :=
  if h.littleEndian then netValue (bytes.take 4) else netValue (bytes.drop (h.longSize - 4))

inductive TEnd
  | success
  | fail
  | overflow
  | outOfFuel
  deriving DecidableEq, Repr

/-- How `trddata` ends, what it has stored, and what it has asked `erdblk` to store in `bufr`. -/
structure TRead where
  how : TEnd
  stored : List UInt8
  asks : List ℤ
  stream : Stream UInt8

variable (ready : ℕ → ℕ)

/-- `erdblk`; nothing is read for a length that is not positive. -/
def erdblk (len : ℤ) (s : Stream UInt8) : List UInt8 × Stream UInt8 :=
  s.readBlock ready len.toNat len.toNat

/-- More than `TBUFSIZE` bytes in `bufr` are the end. -/
def trddata (h : Host) : ℕ → Stream UInt8 → TRead
  | 0, s => ⟨.outOfFuel, [], [], s⟩
  | fuel + 1, s =>
    let (field, s) := erdblk ready h.longSize s
    if field.length ≠ h.longSize then ⟨.fail, [], [], s⟩
    else
      let Nbytes := wrap (8 * h.longSize) (ntohl h field)
      let nread := wrap 32 Nbytes
      if nread = 0 then ⟨.success, [], [], s⟩
      else if TBUFSIZE < nread then ⟨.overflow, [], [nread], s⟩
      else
        let (block, s) := erdblk ready nread s
        if block.length ≠ Nbytes then ⟨.fail, [], [nread], s⟩
        else
          let r := trddata h fuel s
          { r with stored := block ++ r.stored, asks := nread :: r.asks }

/-- The lengths that `trddata` comes to. -/
def lengthFields (h : Host) : ℕ → List UInt8 → List ℕ
  | 0, _ => []
  | fuel + 1, bytes =>
    if bytes.length < h.longSize then []
    else
      let n := ntohl h (bytes.take h.longSize)
      n :: if n = 0 ∨ TBUFSIZE < n then [] else lengthFields h fuel (bytes.drop (h.longSize + n))

/-- The hosts there are. -/
def Host.Valid (h : Host) : Prop := h.longSize = 4 ∨ h.longSize = 8

theorem erdblk_eq (len : ℤ) (s : Stream UInt8) :
    erdblk ready len s = (s.rest.take len.toNat, s.skip len.toNat) :=
  s.readBlock_eq ready _ _ le_rfl

theorem netValue_lt (bytes : List UInt8) : netValue bytes < 256 ^ bytes.length := by
  induction bytes using List.reverseRecOn with
  | nil => decide
  | append_singleton bytes b ih =>
    have hb := b.toNat_lt
    rw [netValue, List.foldl_append, List.length_append, List.length_singleton, Nat.pow_succ]
    change 256 * netValue bytes + b.toNat < _
    omega

theorem ntohl_lt {h : Host} (bytes : List UInt8) (hlen : bytes.length = h.longSize)
    (hv : h.Valid) : ntohl h bytes < 2 ^ 32 := by
  have hpow : (256 : ℕ) ^ 4 = 2 ^ 32 := by norm_num
  unfold ntohl
  split_ifs
  · have := netValue_lt (bytes.take 4)
    rw [List.length_take] at this
    refine lt_of_lt_of_le this (hpow ▸ Nat.pow_le_pow_right (by decide) (by omega))
  · have := netValue_lt (bytes.drop (h.longSize - 4))
    rw [List.length_drop] at this
    refine lt_of_lt_of_le this (hpow ▸ Nat.pow_le_pow_right (by decide) ?_)
    rcases hv with h | h <;> omega

/-- A length field as a `long` on any of the hosts. -/
theorem wrap_long {h : Host} (hv : h.Valid) {n : ℕ} (hn : n < 2 ^ 32) :
    wrap (8 * h.longSize) n = if n < 2 ^ 31 ∨ h.longSize = 8 then (n : ℤ) else n - 2 ^ 32 := by
  rcases hv with h4 | h8
  · simp only [wrap, h4, Int.bmod_def]
    norm_num at hn ⊢
    split_ifs <;> omega
  · simp only [wrap, h8, Int.bmod_def]
    norm_num at hn ⊢
    omega

theorem wrap_int {n : ℕ} (hn : n < 2 ^ 32) {v : ℤ} (hv : v = n ∨ v = n - 2 ^ 32) :
    wrap 32 v = if n < 2 ^ 31 then (n : ℤ) else n - 2 ^ 32 := by
  simp only [wrap, Int.bmod_def]
  norm_num at hn hv ⊢
  split_ifs <;> omega

/-- A length field as an `int`. -/
theorem nread_eq {h : Host} (hv : h.Valid) {n : ℕ} (hn : n < 2 ^ 32) :
    wrap 32 (wrap (8 * h.longSize) n) = if n < 2 ^ 31 then (n : ℤ) else n - 2 ^ 32 := by
  apply wrap_int hn
  rw [wrap_long hv hn]
  split_ifs
  · exact .inl rfl
  · exact .inr rfl

/-- One block. -/
theorem trddata_step {h : Host} (hv : h.Valid) (fuel : ℕ) (s : Stream UInt8) :
    let n := ntohl h (s.rest.take h.longSize)
    let data := s.skip h.longSize
    trddata ready h (fuel + 1) s =
      if s.rest.length < h.longSize then ⟨.fail, [], [], data⟩
      else if n = 0 then ⟨.success, [], [], data⟩
      else if 2 ^ 31 ≤ n then ⟨.fail, [], [(n : ℤ) - 2 ^ 32], data⟩
      else if TBUFSIZE < n then ⟨.overflow, [], [(n : ℤ)], data⟩
      else if data.rest.length < n then ⟨.fail, [], [(n : ℤ)], data.skip n⟩
      else
        let r := trddata ready h fuel (data.skip n)
        { r with stored := data.rest.take n ++ r.stored, asks := (n : ℤ) :: r.asks } := by
  intro n data
  rw [trddata, erdblk_eq, Int.toNat_natCast]
  dsimp only
  rw [List.length_take]
  by_cases hshort : s.rest.length < h.longSize
  · rw [if_pos hshort, if_pos (by omega)]
  have hn : n < 2 ^ 32 := ntohl_lt _ (by rw [List.length_take]; omega) hv
  have hlong := wrap_long hv hn
  have hint := nread_eq hv hn
  change (if min h.longSize s.rest.length ≠ h.longSize then _ else
    if wrap 32 (wrap (8 * h.longSize) n) = 0 then _ else _) = _
  have hTB : TBUFSIZE = 1024 := rfl
  rw [if_neg hshort, if_neg (by omega), hint]
  by_cases hzero : n = 0
  · rw [if_pos hzero, if_pos (by split_ifs <;> omega)]
  rw [if_neg hzero, if_neg (by split_ifs <;> omega)]
  by_cases hneg : 2 ^ 31 ≤ n
  · have hnlt : ¬ n < 2 ^ 31 := by omega
    have hnone : ((n : ℤ) - 2 ^ 32).toNat = 0 := by omega
    have hdiff : (([] : List UInt8).length : ℤ) ≠ wrap (8 * h.longSize) n := by
      rw [hlong, List.length_nil]
      split_ifs <;> omega
    rw [if_pos hneg, if_neg hnlt, if_neg (by omega), erdblk_eq, hnone, List.take_zero,
      Stream.skip_zero]
    exact if_pos hdiff
  have hnlt : n < 2 ^ 31 := by omega
  rw [if_neg hneg, if_pos hnlt]
  by_cases hover : TBUFSIZE < n
  · rw [if_pos hover, if_pos (by omega)]
  rw [if_neg hover, if_neg (by omega), erdblk_eq, Int.toNat_natCast]
  have hsame : wrap (8 * h.longSize) n = n := by rw [hlong, if_pos (.inl hnlt)]
  have hlen : (data.rest.take n).length = min n data.rest.length := List.length_take
  by_cases hend : data.rest.length < n
  · rw [if_pos hend]
    exact if_pos (by rw [hsame, hlen]; omega)
  · rw [if_neg hend]
    exact if_neg (by rw [hsame, hlen]; omega)

theorem Host.Valid.four_le {h : Host} (hv : h.Valid) : 4 ≤ h.longSize := by
  rcases hv with h4 | h8 <;> omega

/-- `trddata` comes to an end, whatever the stream. -/
theorem trddata_ends {h : Host} (hv : h.Valid) (fuel : ℕ) :
    ∀ s, s.rest.length < fuel → (trddata ready h fuel s).how ≠ .outOfFuel := by
  induction fuel with
  | zero => exact fun _ h => absurd h (Nat.not_lt_zero _)
  | succ fuel ih =>
    intro s hfuel
    have hfour := hv.four_le
    rw [trddata_step ready hv]
    split_ifs with hshort
    · simp
    · simp
    · simp
    · simp
    · simp
    · refine ih _ ?_
      simp only [Stream.skip, List.length_drop]
      omega

theorem lengthFields_nil {h : Host} (hv : h.Valid) (fuel : ℕ) : lengthFields h fuel [] = [] := by
  have hfour := hv.four_le
  cases fuel with
  | zero => rfl
  | succ fuel =>
    rw [lengthFields, if_pos]
    rw [List.length_nil]
    omega

/-- The buffer is large enough exactly for lengths up to its size and for those that are negative
as an `int`. -/
theorem trddata_asks {h : Host} (hv : h.Valid) (fuel : ℕ) :
    ∀ s, (∀ a ∈ (trddata ready h fuel s).asks, a ≤ TBUFSIZE) ↔
      ∀ n ∈ lengthFields h fuel s.rest, n ≤ TBUFSIZE ∨ 2 ^ 31 ≤ n := by
  induction fuel with
  | zero => exact fun s => by simp [trddata, lengthFields]
  | succ fuel ih =>
    intro s
    have hTB : TBUFSIZE = 1024 := rfl
    rw [trddata_step ready hv, lengthFields]
    by_cases hshort : s.rest.length < h.longSize
    · rw [if_pos hshort, if_pos hshort]
      simp
    have hn : ntohl h (s.rest.take h.longSize) < 2 ^ 32 :=
      ntohl_lt _ (by rw [List.length_take]; omega) hv
    rw [if_neg hshort, if_neg hshort]
    dsimp only
    generalize ntohl h (s.rest.take h.longSize) = n at hn ⊢
    by_cases hzero : n = 0
    · rw [if_pos hzero, if_pos (.inl hzero)]
      simp [hzero]
    rw [if_neg hzero]
    by_cases hneg : 2 ^ 31 ≤ n
    · rw [if_pos hneg, if_pos (.inr (by omega))]
      simp only [List.mem_singleton, forall_eq]
      omega
    rw [if_neg hneg]
    by_cases hover : TBUFSIZE < n
    · rw [if_pos hover, if_pos (.inr hover)]
      simp only [List.mem_singleton, forall_eq]
      omega
    have hmore : ¬ (n = 0 ∨ TBUFSIZE < n) := by omega
    rw [if_neg hover, if_neg hmore]
    by_cases hend : (s.skip h.longSize).rest.length < n
    · have hdrop : s.rest.drop (h.longSize + n) = [] := by
        simp only [Stream.skip, List.length_drop] at hend
        exact List.drop_eq_nil_of_le (by omega)
      rw [if_pos hend, hdrop, lengthFields_nil hv]
      simp only [List.mem_singleton, forall_eq]
      omega
    · rw [if_neg hend]
      have hrest : ((s.skip h.longSize).skip n).rest = s.rest.drop (h.longSize + n) := by
        simp only [Stream.skip, List.drop_drop]
      have hih := ih ((s.skip h.longSize).skip n)
      rw [hrest] at hih
      simp only [List.mem_cons, forall_eq_or_imp]
      rw [hih]
      refine and_congr ?_ Iff.rfl
      omega

theorem length_htonl {h : Host} (hv : h.Valid) (n : ℕ) : (htonl h n).length = h.longSize := by
  have hfour := hv.four_le
  unfold htonl netBytes
  split_ifs <;> simp <;> omega

theorem ntohl_htonl {h : Host} (hv : h.Valid) {n : ℕ} (hn : n < 2 ^ 32) :
    ntohl h (htonl h n) = n := by
  have hfour := hv.four_le
  have hnet : netValue (netBytes n) = n := by
    simp only [netBytes, netValue, List.foldl_cons, List.foldl_nil, UInt8.toNat_ofNat']
    norm_num at hn ⊢
    omega
  unfold htonl ntohl
  by_cases hle : h.littleEndian
  · rw [if_pos hle, if_pos hle]
    exact (congrArg netValue (List.take_left' rfl)).trans hnet
  · rw [if_neg hle, if_neg hle, List.drop_left' List.length_replicate, hnet]

/-- A block as `twrdata` writes it. -/
theorem trddata_block {h : Host} (hv : h.Valid) (fuel : ℕ) {block : List UInt8} (hne : block ≠ [])
    (hlen : block.length ≤ TBUFSIZE) (tail : List UInt8) (pos : ℕ) :
    ∃ pos', trddata ready h (fuel + 1) ⟨htonl h block.length ++ block ++ tail, pos⟩ =
      let r := trddata ready h fuel ⟨tail, pos'⟩
      { r with stored := block ++ r.stored, asks := (block.length : ℤ) :: r.asks } := by
  have hTB : TBUFSIZE = 1024 := rfl
  have hpos := List.length_pos_iff.mpr hne
  have hfield := length_htonl hv block.length
  rw [trddata_step ready hv]
  dsimp only
  rw [List.append_assoc, List.take_left' hfield, ntohl_htonl hv (by omega)]
  have hdata : (⟨htonl h block.length ++ (block ++ tail), pos⟩ : Stream UInt8).skip h.longSize =
      ⟨block ++ tail, pos + h.longSize⟩ := by
    simp only [Stream.skip, List.drop_left' hfield, List.length_append, hfield, Stream.mk.injEq,
      true_and]
    omega
  rw [hdata, if_neg (by rw [List.length_append]; omega), if_neg (by omega), if_neg (by omega),
    if_neg (by omega), if_neg (by rw [List.length_append]; omega)]
  refine ⟨pos + h.longSize + min block.length (block ++ tail).length, ?_⟩
  rw [List.take_left' rfl]
  simp only [Stream.skip, List.drop_left' rfl]

theorem trddata_end {h : Host} (hv : h.Valid) (fuel : ℕ) (tail : List UInt8) (pos : ℕ) :
    ∃ pos', trddata ready h (fuel + 1) ⟨htonl h 0 ++ tail, pos⟩ =
      ⟨.success, [], [], ⟨tail, pos'⟩⟩ := by
  have hfield := length_htonl hv 0
  rw [trddata_step ready hv]
  dsimp only
  rw [List.take_left' hfield, ntohl_htonl hv (by norm_num),
    if_neg (by rw [List.length_append]; omega), if_pos rfl]
  refine ⟨pos + min h.longSize (htonl h 0 ++ tail).length, ?_⟩
  simp only [Stream.skip, List.drop_left' hfield]

/-- A block of `twrdata` before the end mark, and what `trddata` makes of the blocks. -/
theorem sendBlocks_trddata {h : Host} (hv : h.Valid) (fuel : ℕ) :
    ∀ handed rest l, rest.length < fuel → (∀ i, l.accepts i) →
      let r := sendBlocks TBUFSIZE (fun block => htonl h block.length ++ block) fuel handed
        ⟨rest, none, false⟩ l
      r.success ∧ (∀ i, r.link.accepts i) ∧ ∃ wire, r.link.written = l.written ++ wire ∧
        ∀ g tail pos, wire.length < g →
          let t := trddata ready h g ⟨wire ++ (htonl h 0 ++ tail), pos⟩
          t.how = .success ∧ t.stored = rest ∧ t.stream.rest = tail := by
  have hTB : TBUFSIZE = 1024 := rfl
  induction fuel with
  | zero => exact fun _ _ _ h => absurd h (Nat.not_lt_zero _)
  | succ fuel ih =>
    intro handed rest l hfuel hl
    rw [sendBlocks, LocalFile.read]
    dsimp only
    cases hblock : rest.take TBUFSIZE with
    | nil =>
      obtain rfl : rest = [] := by
        rcases List.take_eq_nil_iff.mp hblock with h | h
        · omega
        · exact h
      refine ⟨rfl, hl, [], (List.append_nil _).symm, fun g tail pos hg => ?_⟩
      obtain ⟨g, rfl⟩ : ∃ k, g = k + 1 := ⟨g - 1, by omega⟩
      obtain ⟨pos', ht⟩ := trddata_end ready hv g tail pos
      rw [List.nil_append, ht]
      exact ⟨rfl, rfl, rfl⟩
    | cons c cs =>
      dsimp only
      rw [← hblock, Link.write, if_pos (hl _)]
      dsimp only
      have hlen : (rest.take TBUFSIZE).length = min TBUFSIZE rest.length := List.length_take
      have hne : rest.take TBUFSIZE ≠ [] := by
        rw [hblock]
        exact List.cons_ne_nil c cs
      have hwire : 0 < (htonl h (rest.take TBUFSIZE).length ++ rest.take TBUFSIZE).length := by
        have := hv.four_le
        rw [List.length_append, length_htonl hv]
        omega
      by_cases hshort : (rest.take TBUFSIZE).length ≠ TBUFSIZE
      · rw [if_pos hshort]
        refine ⟨rfl, hl, _, rfl, fun g tail pos hg => ?_⟩
        obtain ⟨g, rfl⟩ : ∃ k, g = k + 2 := ⟨g - 2, by omega⟩
        obtain ⟨pos', ht⟩ := trddata_block ready hv (g + 1) hne (by omega) (htonl h 0 ++ tail) pos
        obtain ⟨pos'', ht'⟩ := trddata_end ready hv g tail pos'
        rw [ht, ht']
        refine ⟨rfl, ?_, rfl⟩
        dsimp only
        rw [List.append_nil]
        exact List.take_of_length_le (by omega)
      · rw [if_neg hshort]
        obtain ⟨hsucc, hacc, wire, hwritten, hread⟩ := ih (handed ++ rest.take TBUFSIZE)
          (rest.drop TBUFSIZE) ⟨l.accepts, l.jumps, l.calls + 1,
            l.written ++ (htonl h (rest.take TBUFSIZE).length ++ rest.take TBUFSIZE)⟩
          (by rw [List.length_drop]; omega) hl
        refine ⟨hsucc, hacc, htonl h (rest.take TBUFSIZE).length ++ rest.take TBUFSIZE ++ wire,
          by rw [hwritten, List.append_assoc], fun g tail pos hg => ?_⟩
        rw [List.length_append] at hg
        obtain ⟨g, rfl⟩ : ∃ k, g = k + 1 := ⟨g - 1, by omega⟩
        obtain ⟨pos', ht⟩ := trddata_block ready hv g hne (by omega)
          (wire ++ (htonl h 0 ++ tail)) pos
        obtain ⟨hhow, hstored, hrest⟩ := hread g tail pos' (by omega)
        rw [List.append_assoc _ wire, ht]
        refine ⟨hhow, ?_, hrest⟩
        dsimp only
        rw [hstored, List.take_append_drop]

/-- `trddata` stores what `twrdata` has sent, comes to an end on every stream, and stays in its
buffer exactly as long as no length it comes to is too large and still positive. -/
theorem trddata_correct (h : Host) (hv : h.Valid) :
    (∀ bytes tail, ∃ sent, twrdata h (openFile bytes none) openLink = sent ∧ sent.success ∧
      ∀ ready : ℕ → ℕ,
        let t := trddata ready h ((sent.link.written ++ tail).length + 1)
          ⟨sent.link.written ++ tail, 0⟩
        t.how = .success ∧ t.stored = bytes ∧ t.stream.rest = tail) ∧
    ∀ (ready : ℕ → ℕ) bytes,
      let t := trddata ready h (bytes.length + 1) ⟨bytes, 0⟩
      t.how ≠ .outOfFuel ∧ ((∀ a ∈ t.asks, a ≤ TBUFSIZE) ↔
        ∀ n ∈ lengthFields h (bytes.length + 1) bytes, n ≤ TBUFSIZE ∨ 2 ^ 31 ≤ n) := by
  refine ⟨fun bytes tail => ⟨_, rfl, ?_⟩, fun ready bytes => ⟨?_, trddata_asks ready hv _ _⟩⟩
  · have hblocks := fun ready => sendBlocks_trddata ready hv (bytes.length + 1) [] bytes openLink
      (Nat.lt_succ_self _) (fun _ => rfl)
    have hsent : twrdata h (openFile bytes none) openLink = sendEnd (htonl h 0) (fun _ => true)
      (sendBlocks TBUFSIZE (fun block => htonl h block.length ++ block) (bytes.length + 1) []
        ⟨bytes, none, false⟩ openLink) := rfl
    rw [hsent]
    generalize sendBlocks TBUFSIZE (fun block => htonl h block.length ++ block)
      (bytes.length + 1) [] ⟨bytes, none, false⟩ openLink = r at hblocks
    obtain ⟨hsucc, hacc, _⟩ := hblocks (fun _ => 0)
    rw [sendEnd, if_pos hsucc, Link.write, if_pos (hacc _)]
    refine ⟨hsucc, fun ready => ?_⟩
    obtain ⟨_, _, wire, hwire, hread⟩ := hblocks ready
    have hwire : r.link.written = wire := hwire
    dsimp only
    rw [hwire, List.append_assoc]
    exact hread _ tail 0 (by rw [List.length_append]; omega)
  · exact trddata_ends ready hv _ _ (Nat.lt_succ_self _)

/-- A file of one byte, and a stream that breaks off after a length and one byte. -/
theorem trddata_correct_lp64 :
    (∃ sent, twrdata ⟨8, true⟩ (openFile [97] none) openLink = sent ∧ sent.success ∧
      ∀ ready : ℕ → ℕ,
        let t := trddata ready ⟨8, true⟩ ((sent.link.written ++ [98]).length + 1)
          ⟨sent.link.written ++ [98], 0⟩
        t.how = .success ∧ t.stored = [97] ∧ t.stream.rest = [98]) ∧
    let bytes := [0, 0, 0, 2, 0, 0, 0, 0, 97]
    let t := trddata (fun _ => 0) ⟨8, true⟩ (bytes.length + 1) ⟨bytes, 0⟩
    t.how ≠ .outOfFuel ∧ ((∀ a ∈ t.asks, a ≤ TBUFSIZE) ↔
      ∀ n ∈ lengthFields ⟨8, true⟩ (bytes.length + 1) bytes, n ≤ TBUFSIZE ∨ 2 ^ 31 ≤ n) :=
  ⟨(trddata_correct ⟨8, true⟩ (.inr rfl)).1 [97] [98],
    (trddata_correct ⟨8, true⟩ (.inr rfl)).2 (fun _ => 0) [0, 0, 0, 2, 0, 0, 0, 0, 97]⟩

/-- A length of 1025 is taken at its word. -/
theorem trddata_not_bounded :
    ¬ ∀ (ready : ℕ → ℕ) bytes, ∀ a ∈ (trddata ready ⟨8, true⟩ (bytes.length + 1) ⟨bytes, 0⟩).asks,
      a ≤ TBUFSIZE := by
  intro h
  exact absurd (h (fun _ => 0) [0, 0, 4, 1, 0, 0, 0, 0] 1025 (by decide)) (by decide)

end Unitas.Bnu
