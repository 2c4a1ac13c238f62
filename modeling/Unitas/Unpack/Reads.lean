import Unitas.Unpack.Independence

/-! What `getdict` and `decode` read of their tables, whatever is in the file. -/
namespace Unitas.Unpack
open Function

section Reads
variable (BUFSIZ : ℕ)

/-- One more bit reads `intnodes[lev]` and, at a leaf, compares its place with `eof`. -/
def BitInside (bit lev i : ℕ) (s : State) : Prop :=
  1 ≤ lev ∧ lev ≤ s.maxlev ∧
    (s.intnodes lev ≤ 2 * i + bit →
      ∃ t, s.tree lev = some t ∧ t + (2 * i + bit - s.intnodes lev) ≤ s.eof)

def BitsInside : ℕ → ℕ → ℕ → ℕ → State → Prop
  | 0, _, _, _, _ => True
  | bitsleft + 1, c, lev, i, s =>
    BitInside (c / 128 % 2) lev i s ∧
      match decodeBit BUFSIZ (c / 128 % 2) lev i s with
      | .done _ _ => True
      | .more lev i s => BitsInside bitsleft (2 * c) lev i s

def BytesInside : ℕ → ℕ → ℕ → State → Prop
  | 0, _, _, _ => True
  | fuel + 1, lev, i, s =>
    let s := s.refill BUFSIZ
    if s.inleft < 0 then True
    else
      let s : State := { s with inleft := s.inleft - 1 }
      if s.inleft < 0 then True
      else
        let (c, s) := s.next
        BitsInside BUFSIZ 8 c.toNat lev i s ∧
          match decodeBits BUFSIZ 8 c.toNat lev i s with
          | .done _ _ => True
          | .more lev i s => BytesInside fuel lev i s

def DecodeInside (s : State) : Prop :=
  BytesInside BUFSIZ (s.inleft.toNat + s.infile.length + 1) 1 0 { s with outbuff := [] }

/-- The counts of the levels up to `k` are among the `n` bytes of the first `read`. -/
def CountsInside (n : ℤ) : ℕ → State → Prop
  | 0, _ => True
  | k + 1, s => CountsInside n k s ∧ (readCounts k s).inp < n

def CharsInside (n : ℤ) : ℕ → State → Prop
  | 0, _ => True
  | c + 1, s => 255 ≤ s.eof ∨ s.inp < n ∧ CharsInside n c (readChar s)

def LeavesInside (n : ℤ) : ℕ → State → Prop
  | 0, _ => True
  | k + 1, s => LeavesInside n k s ∧
    match readLeaves k s with
    | (false, _) => True
    | (true, s) => k + 1 ≤ s.maxlev ∧ CharsInside n (s.intnodes (k + 1))
        { s with tree := update s.tree (k + 1) (some s.eof) }

/-- The loops over the levels, the last leaf and `intnodes[maxlev] += 2`. -/
def LevelsInside (s : State) : Prop :=
  let start : State := { s with
    origsize := headerSize s, maxlev := headerLevels s, inp := 7 }
  24 < start.maxlev ∨ CountsInside s.inleft start.maxlev start ∧
    LeavesInside s.inleft start.maxlev (readCounts start.maxlev start) ∧
    match readLeaves start.maxlev (readCounts start.maxlev start) with
    | (false, _) => True
    | (true, s') => s'.inp < s.inleft ∧ 1 ≤ s'.maxlev

/-- All of `getdict` after the first `read`. Byte 6 has a value before it. -/
def DictInside (s : State) : Prop :=
  (∀ i, 2 ≤ i → i ≤ 6 → (i : ℤ) < s.inleft ∨ i = 6) ∧ LevelsInside s ∧
    match headerRead s with
    | (false, _) => True
    | (true, d) => DecodeInside BUFSIZ d

/-- What a `return` of `getdict` can mean. -/
def Returns (r : Result) : Prop := r = .success ∨ ∃ msg, r = .failure msg

end Reads

section Decode
variable (BUFSIZ : ℕ)

/-- The counters are inside the dictionary. -/
structure Ready (s : State) (lev i : ℕ) : Prop where
  inTable : InTable s.maxlev s
  onPath : OnPath s.maxlev s lev i

theorem Ready.emits {s s' : State} {lev i : ℕ} (h : Ready s lev i) (he : Emits s s') :
    Ready s' lev i := by
  obtain ⟨_, _, _, rfl⟩ := he
  have ht := h.inTable
  have hp := h.onPath
  exact ⟨⟨ht.maxlev_le, ht.bottom, ht.leaf, ht.eof_le⟩, ⟨hp.pos, hp.le, hp.first, hp.lt⟩⟩

theorem emit_emits {c : UInt8} {s s' : State} (h : emit BUFSIZ c s = some s') : Emits s s' := by
  unfold emit State.write at h
  dsimp only at h
  split_ifs at h
  · simp at h
  · simp only [Option.map_some, Option.some.injEq] at h
    exact ⟨_, _, _, h.symm⟩
  · exact ⟨_, _, _, (Option.some.inj h).symm⟩

theorem finish_returns (s : State) : Returns (finish s).1 := by
  unfold finish State.write
  split_ifs
  · exact Or.inr ⟨_, rfl⟩
  · dsimp only
    split_ifs
    · exact Or.inr ⟨_, rfl⟩
    · exact Or.inl rfl

/-- A bit, or several, leave the counters inside the dictionary and the input alone. -/
inductive Goes (s : State) : Progress → Prop
  | done {r s'} (h : Returns r) : Goes s (.done r s')
  | more {lev i s'} (he : Emits s s') (h : Ready s' lev i) : Goes s (.more lev i s')

theorem Goes.emits {s s' : State} {p : Progress} (h : Goes s' p) (he : Emits s s') :
    Goes s p := by
  cases h with
  | done h => exact .done h
  | more he' h => exact .more (he.trans he') h

theorem decodeBit_inside_of_ready {bit lev i : ℕ} {s : State} (h : Ready s lev i)
    (hbit : bit ≤ 1) :
    BitInside bit lev i s ∧ Goes s (decodeBit BUFSIZ bit lev i s) := by
  have hmax := h.inTable.maxlev_le
  have heof := h.inTable.eof_le
  have hpos := h.onPath.pos
  have hle := h.onPath.le
  have hleaf := h.inTable.leaf lev (2 * i + bit) hpos hle
    (fun h1 => by have := h.onPath.first h1; omega)
    (fun h2 => by have := h.onPath.lt h2; omega)
  refine ⟨⟨hpos, hle, hleaf⟩, ?_⟩
  unfold decodeBit
  dsimp only
  rw [if_neg (by omega)]
  by_cases hinner : 2 * i + bit < s.intnodes lev
  · rw [if_pos hinner]
    have hne : lev ≠ s.maxlev := by
      intro hlev
      rw [hlev, h.inTable.bottom] at hinner
      omega
    exact .more (Emits.refl s) ⟨h.inTable, ⟨by omega, by omega, by omega, fun _ => hinner⟩⟩
  · rw [if_neg hinner]
    obtain ⟨t, ht, hend⟩ := hleaf (by omega)
    rw [ht]
    dsimp only
    split_ifs with hp hover
    · exact .done (finish_returns s)
    · omega
    · cases hemit : emit BUFSIZ (s.characters (t + (2 * i + bit - s.intnodes lev))) s with
      | none => exact .done (Or.inr ⟨_, rfl⟩)
      | some s' =>
        have he := emit_emits BUFSIZ hemit
        have hfirst : Ready s 1 0 := ⟨h.inTable, ⟨le_rfl, by omega, fun _ => rfl, by omega⟩⟩
        exact .more he (hfirst.emits he)

theorem decodeBits_inside_of_ready (n : ℕ) : ∀ c lev i s, Ready s lev i →
    BitsInside BUFSIZ n c lev i s ∧ Goes s (decodeBits BUFSIZ n c lev i s) := by
  induction n with
  | zero => exact fun _ _ _ s h => ⟨trivial, .more (Emits.refl s) h⟩
  | succ n ih =>
    intro c lev i s h
    obtain ⟨hin, hgoes⟩ := decodeBit_inside_of_ready BUFSIZ h
      (show c / 128 % 2 ≤ 1 by omega)
    rw [BitsInside, decodeBits]
    generalize decodeBit BUFSIZ (c / 128 % 2) lev i s = p at hgoes ⊢
    cases hgoes with
    | done hr => exact ⟨⟨hin, trivial⟩, .done hr⟩
    | more he h =>
      obtain ⟨hrest, hgoes⟩ := ih (2 * c) _ _ _ h
      exact ⟨⟨hin, hrest⟩, hgoes.emits he⟩

/-- The bytes that a state can still take, in the buffer and in the file. -/
def State.left (s : State) : ℕ := s.inleft.toNat + s.infile.length

theorem refill_left (hB : 0 < BUFSIZ) (s : State) :
    (s.refill BUFSIZ).left ≤ s.left := by
  unfold State.refill State.read State.left
  split_ifs
  · dsimp only
    omega
  · simp only [List.length_take, List.length_drop]
    omega
  · exact le_rfl

/-- Every round takes a byte, and the last one ends with the text. -/
theorem decodeBytes_inside_of_ready (hB : 0 < BUFSIZ) (fuel : ℕ) : ∀ lev i s, Ready s lev i →
    s.left < fuel →
    BytesInside BUFSIZ fuel lev i s ∧ Returns (decodeBytes BUFSIZ fuel lev i s).1 := by
  induction fuel with
  | zero => omega
  | succ fuel ih =>
    intro lev i s h hfuel
    have hleft := refill_left BUFSIZ hB s
    obtain ⟨inbuff, inleft, inp, infile, hrefill⟩ := refill_frame BUFSIZ s
    rw [BytesInside, decodeBytes]
    rw [hrefill] at hleft ⊢
    unfold State.left at hleft hfuel
    dsimp only [State.next] at hleft ⊢
    split_ifs with hneg hend
    · exact ⟨trivial, Or.inr ⟨_, rfl⟩⟩
    · exact ⟨trivial, Or.inr ⟨_, rfl⟩⟩
    · have hready : Ready { s with
          inbuff, inleft := inleft - 1, inp := inp + 1, infile } lev i := by
        have ht := h.inTable
        have hp := h.onPath
        exact ⟨⟨ht.maxlev_le, ht.bottom, ht.leaf, ht.eof_le⟩,
          ⟨hp.pos, hp.le, hp.first, hp.lt⟩⟩
      obtain ⟨hin, hgoes⟩ := decodeBits_inside_of_ready BUFSIZ 8 (inbuff inp).toNat lev i _ hready
      generalize decodeBits BUFSIZ 8 (inbuff inp).toNat lev i _ = p at hgoes ⊢
      cases hgoes with
      | done hr => exact ⟨⟨hin, trivial⟩, hr⟩
      | more he h =>
        obtain ⟨hrest, hr⟩ := ih _ _ _ h (by
          obtain ⟨_, _, _, rfl⟩ := he
          unfold State.left
          dsimp only
          omega)
        exact ⟨⟨hin, hrest⟩, hr⟩

theorem decode_inside_of_ready (hB : 0 < BUFSIZ) {s : State} (h : InTable s.maxlev s)
    (hpos : 1 ≤ s.maxlev) :
    DecodeInside BUFSIZ s ∧ Returns (decode BUFSIZ s).1 := by
  unfold DecodeInside decode
  apply decodeBytes_inside_of_ready BUFSIZ hB
  · exact ⟨⟨h.maxlev_le, h.bottom, h.leaf, h.eof_le⟩, ⟨le_rfl, hpos, fun _ => rfl, by omega⟩⟩
  · unfold State.left
    dsimp only
    omega

end Decode

section Header
variable (BUFSIZ : ℕ)

theorem countsInside_iff (n : ℤ) (k : ℕ) (s : State) :
    CountsInside n k s ↔ ∀ l < k, (s.inp : ℤ) + l < n := by
  induction k with
  | zero => simp [CountsInside]
  | succ k ih =>
    obtain ⟨intnodes, hcounts, _⟩ := readCounts_spec k s
    rw [CountsInside, ih, hcounts]
    constructor
    · intro h l hl
      by_cases hlk : l = k
      · have := h.2
        push_cast at this
        rw [hlk]
        exact this
      · exact h.1 l (by omega)
    · intro h
      refine ⟨fun l hl => h l (by omega), ?_⟩
      have := h k (by omega)
      push_cast
      exact this

theorem charsInside_iff (n : ℤ) (c : ℕ) : ∀ s : State, s.eof ≤ 255 →
    (CharsInside n c s ↔ ∀ j < min c (255 - s.eof), (s.inp : ℤ) + j < n) := by
  induction c with
  | zero => simp [CharsInside]
  | succ c ih =>
    intro s hle
    rw [CharsInside]
    by_cases hfull : 255 ≤ s.eof
    · constructor
      · intro _ j hj
        omega
      · exact fun _ => Or.inl hfull
    · have ih := ih (readChar s) (by rw [readChar_eq]; dsimp only; omega)
      rw [readChar_eq] at ih ⊢
      dsimp only at ih
      rw [ih]
      push_cast
      constructor
      · intro h j hj
        obtain ⟨h0, hrest⟩ := h.resolve_left hfull
        obtain _ | j := j
        · simpa using h0
        · have := hrest j (by omega)
          push_cast
          omega
      · intro h
        right
        constructor
        · simpa using h 0 (by omega)
        · intro j hj
          have := h (j + 1) (by omega)
          push_cast at this
          omega

/-- Of the leaves no more are read than fit. -/
theorem leavesInside_iff (n : ℤ) (s : State) (heof : s.eof = 0) : ∀ k, k ≤ s.maxlev →
    (LeavesInside n k s ↔ ∀ j < min (leavesUpTo s.intnodes k) 255, (s.inp : ℤ) + j < n) := by
  intro k
  induction k with
  | zero => simp [LeavesInside, leavesUpTo]
  | succ k ih =>
    intro hk
    rw [LeavesInside, ih (by omega), leavesUpTo]
    by_cases hover : 255 < leavesUpTo s.intnodes k
    · obtain ⟨s', hread, _⟩ := readLeaves_overflow s heof k hover
      rw [hread]
      dsimp only
      rw [Nat.min_eq_right (by omega), Nat.min_eq_right (by omega)]
      exact and_iff_left trivial
    · obtain ⟨characters, tree, hread, _, _⟩ := readLeaves_spec s heof k (by omega)
      rw [hread]
      dsimp only
      rw [charsInside_iff _ _ _ (by dsimp only; omega)]
      dsimp only
      push_cast
      constructor
      · rintro ⟨hbefore, _, hnew⟩ j hj
        by_cases hjk : j < leavesUpTo s.intnodes k
        · exact hbefore j (by omega)
        · have := hnew (j - leavesUpTo s.intnodes k) (by omega)
          omega
      · intro h
        refine ⟨fun j hj => h j (by omega), hk, ?_⟩
        intro j hj
        have := h (leavesUpTo s.intnodes k + j) (by omega)
        push_cast at this
        omega

/-- Bytes of the header that the loops over the levels and the last leaf read. -/
def bytesRead (levels total : ℕ) : ℕ := 7 + levels + if total ≤ 255 then total + 1 else 255

theorem levelsInside_iff {s : State} (heof : s.eof = 0) (hlev : headerLevels s ≤ 24) :
    LevelsInside s ↔ 1 ≤ headerLevels s ∧
      (bytesRead (headerLevels s) (headerTotal s) : ℤ) ≤ s.inleft := by
  obtain ⟨intnodes, hcounts, hint, hupto⟩ := readCounts_header s
  have hupto : leavesUpTo intnodes (headerLevels s) = headerTotal s := hupto _ le_rfl
  unfold LevelsInside bytesRead
  dsimp only
  rw [or_iff_right (by omega), countsInside_iff, hcounts,
    leavesInside_iff _ { s with
      origsize := headerSize s, maxlev := headerLevels s, inp := 7 + headerLevels s
      intnodes } heof _ le_rfl]
  dsimp only
  rw [hupto]
  by_cases htotal : headerTotal s ≤ 255
  · obtain ⟨characters, tree, hread, _, _⟩ := readLeaves_spec
      { s with
        origsize := headerSize s, maxlev := headerLevels s, inp := 7 + headerLevels s
        intnodes } heof (headerLevels s) (hupto.trans_le htotal)
    dsimp only at hread
    rw [hupto] at hread
    rw [hread, if_pos htotal]
    dsimp only
    push_cast
    constructor
    · rintro ⟨_, _, hlast, hpos⟩
      exact ⟨hpos, by omega⟩
    · rintro ⟨hpos, hend⟩
      refine ⟨fun l hl => ?_, fun j hj => ?_, by omega, hpos⟩
      · omega
      · omega
  · obtain ⟨s', hread, _⟩ := readLeaves_overflow
      { s with
        origsize := headerSize s, maxlev := headerLevels s, inp := 7 + headerLevels s
        intnodes } heof (headerLevels s) (by
          dsimp only
          rw [hupto]
          omega)
    rw [hread, if_neg htotal]
    dsimp only
    push_cast
    have hpos : 1 ≤ headerLevels s := by
      by_contra hnone
      have hzero : headerLevels s = 0 := by omega
      rw [headerTotal, hzero, leavesUpTo] at htotal
      omega
    constructor
    · rintro ⟨_, hleaves, _⟩
      have := hleaves 254 (by omega)
      push_cast at this
      exact ⟨hpos, by omega⟩
    · rintro ⟨_, hend⟩
      refine ⟨fun l hl => ?_, fun j hj => ?_, trivial⟩
      · omega
      · omega

/-- Every header that `levelsInside_iff` allows leads to a dictionary or to a diagnostic. -/
theorem dictInside_iff (hB : 0 < BUFSIZ) {s : State} (heof : s.eof = 0) :
    DictInside BUFSIZ s ∧ Returns (readDict BUFSIZ s).1 ↔
      6 ≤ s.inleft ∧ (24 < headerLevels s ∨ 1 ≤ headerLevels s ∧
        (bytesRead (headerLevels s) (headerTotal s) : ℤ) ≤ s.inleft) := by
  unfold DictInside
  constructor
  · rintro ⟨⟨hbytes, hlevels, _⟩, _⟩
    have h5 := hbytes 5 (by omega) (by omega)
    refine ⟨by omega, ?_⟩
    by_cases hlev : 24 < headerLevels s
    · exact Or.inl hlev
    · exact Or.inr ((levelsInside_iff heof (by omega)).mp hlevels)
  · rintro ⟨hsix, hwhole⟩
    have hbytes : ∀ i, 2 ≤ i → i ≤ 6 → (i : ℤ) < s.inleft ∨ i = 6 := by
      intro i _ hi
      omega
    have hlevels : LevelsInside s := by
      by_cases hlev : 24 < headerLevels s
      · exact Or.inl hlev
      · exact (levelsInside_iff heof (by omega)).mpr (hwhole.resolve_left hlev)
    rw [readDict_eq]
    by_cases hfits : DictFits s
    · obtain ⟨d, hd, hloaded⟩ := headerRead_of_fits heof hfits
      have hlev := hfits.1
      obtain ⟨hpos, _⟩ := hwhole.resolve_left (by omega)
      have hmax : d.maxlev = headerLevels s := by
        obtain ⟨_, _, _, rfl⟩ := hloaded.frame
        rfl
      have htable := hloaded.inTable hfits hpos
      rw [← hmax] at htable hpos
      obtain ⟨hin, hr⟩ := decode_inside_of_ready BUFSIZ hB htable hpos
      rw [hd]
      exact ⟨⟨hbytes, hlevels, hin⟩, hr⟩
    · obtain ⟨s', hs', _⟩ := headerRead_of_not_fits heof hfits
      rw [hs']
      exact ⟨⟨hbytes, hlevels, trivial⟩, Or.inr ⟨_, rfl⟩⟩

end Header

section Packed

/-- The number of levels in the header of a packed file, or what `getdict` has in its place. -/
def packedLevels (packed : List UInt8) : ℕ := (packed.getD 6 25).toNat

def packedTotal (packed : List UInt8) : ℕ :=
  leavesUpTo (fun l => (packed.getD (6 + l) 0).toNat) (packedLevels packed)

/-- The first `n` bytes of a packed file hold its header as far as it is looked at, and the
header has at least one level. -/
def HeaderWhole (n : ℕ) (packed : List UInt8) : Prop :=
  6 ≤ n ∧ (24 < packedLevels packed ∨ 1 ≤ packedLevels packed ∧
    bytesRead (packedLevels packed) (packedTotal packed) ≤ n)

instance (n : ℕ) (packed : List UInt8) : Decidable (HeaderWhole n packed) := by
  unfold HeaderWhole
  infer_instance

/-- All that is read of a packed file and its tables is set, and `getdict` returns. -/
def ReadsInside (BUFSIZ : ℕ) (s : State) : Prop :=
  DictInside BUFSIZ (firstRead BUFSIZ s) ∧ Returns (getdict BUFSIZ s).1

theorem readsInside_firstRead {BUFSIZ : ℕ} (hB : 2 ≤ BUFSIZ) {s : State} {rest : List UInt8}
    (h : s.infile = US :: RS :: rest) :
    ReadsInside BUFSIZ s ↔ 6 ≤ (firstRead BUFSIZ s).inleft ∧
      (24 < headerLevels (firstRead BUFSIZ s) ∨ 1 ≤ headerLevels (firstRead BUFSIZ s) ∧
        (bytesRead (headerLevels (firstRead BUFSIZ s)) (headerTotal (firstRead BUFSIZ s)) : ℤ) ≤
          (firstRead BUFSIZ s).inleft) := by
  obtain ⟨hneg, hUS, hRS⟩ := firstRead_bytes BUFSIZ hB h
  obtain ⟨_, heof, _⟩ := firstRead_frame BUFSIZ s
  have hdict : getdict BUFSIZ s = readDict BUFSIZ (firstRead BUFSIZ s) := by
    rw [getdict_eq, if_neg hneg, if_neg (by simp [hUS]), if_neg (by rw [hRS]; decide),
      if_neg (by simp [hRS])]
  rw [ReadsInside, hdict]
  exact dictInside_iff BUFSIZ (by omega) heof

theorem readsInside_iff {BUFSIZ : ℕ} (hB : 7 ≤ BUFSIZ) {s : State} {rest : List UInt8}
    (h : s.infile = US :: RS :: rest) :
    ReadsInside BUFSIZ s ↔ HeaderWhole (min BUFSIZ s.infile.length) s.infile := by
  obtain ⟨hleft, _, hbuf⟩ := firstRead_buffer BUFSIZ (s := s) (by rw [h]; simp)
  have hbyte : ∀ i d, i < BUFSIZ →
      (s.infile.take BUFSIZ).getD i d = s.infile.getD i d := by
    intro i d hi
    simp only [List.getD_eq_getElem?_getD, List.getElem?_take, if_pos hi]
  have hlevels : headerLevels (firstRead BUFSIZ s) = packedLevels s.infile := by
    rw [headerLevels, hbuf, hbyte 6 _ (by omega), update_self]
    rfl
  have htotal : 7 + packedLevels s.infile ≤ min BUFSIZ s.infile.length →
      headerTotal (firstRead BUFSIZ s) = packedTotal s.infile := by
    intro hlong
    rw [headerTotal, hlevels]
    apply leavesUpTo_congr
    intro l h1 hl
    have hlt : 6 + l < s.infile.length := by omega
    rw [headerLeaves, hbuf, hbyte _ _ (by omega)]
    simp only [List.getD_eq_getElem?_getD, List.getElem?_eq_getElem hlt, Option.getD_some]
  rw [readsInside_firstRead (by omega) h, hleft, hlevels, HeaderWhole]
  have hshort : ∀ total, 7 + packedLevels s.infile ≤ bytesRead (packedLevels s.infile) total := by
    intro total
    unfold bytesRead
    omega
  by_cases hlong : 7 + packedLevels s.infile ≤ min BUFSIZ s.infile.length
  · rw [htotal hlong]
    omega
  · have h1 := hshort (headerTotal (firstRead BUFSIZ s))
    have h2 := hshort (packedTotal s.infile)
    omega

/-- The program has just been started with a packed file. -/
def started (packed : List UInt8) : State := { Statics.loaded with
  infile := packed, readErr := false, written := [], writeErr := false }

/-- One level with a character and `END`, and a text of these two. -/
theorem readsInside_iff_one :
    ReadsInside 1024 (started [31, 30, 0, 0, 0, 1, 1, 0, 97, 64]) :=
  (readsInside_iff (by decide) rfl).mpr (by decide)

/-- A header without levels: the first bit of the text already is on a level past `maxlev`. -/
theorem not_readsInside :
    ¬ ∀ (s : State) (rest : List UInt8), s.infile = US :: RS :: rest → ReadsInside 1024 s := by
  intro h
  have hin := (readsInside_firstRead (by decide) rfl).mp
    (h (started [31, 30, 0, 0, 0, 1, 0, 97, 0]) _ rfl)
  have hlevels : headerLevels (firstRead 1024 (started [31, 30, 0, 0, 0, 1, 0, 97, 0])) = 0 := by
    decide
  omega

end Packed

end Unitas.Unpack
