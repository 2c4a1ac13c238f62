import Unitas.Unpack.Getdict
import Unitas.Lib.LevelCode

/-! Specifications of the loops of `getdict`, for a dictionary that fits the first buffer. -/
namespace Unitas.Unpack
open Function Unitas.LevelCode

variable {BUFSIZ : ℕ}

theorem readCounts_spec (n : ℕ) (s : State) :
    ∃ intnodes, readCounts n s = { s with intnodes, inp := s.inp + n } ∧
      ∀ l, intnodes l = if 1 ≤ l ∧ l ≤ n then (s.inbuff (s.inp + l - 1)).toNat
        else s.intnodes l := by
  induction n with
  | zero =>
    refine ⟨s.intnodes, rfl, fun l => ?_⟩
    rw [if_neg (by omega)]
  | succ n ih =>
    obtain ⟨intnodes, heq, hval⟩ := ih
    refine ⟨update intnodes (n + 1) (s.inbuff (s.inp + n)).toNat, ?_, fun l => ?_⟩
    · rw [readCounts, heq]
      rfl
    · by_cases hl : l = n + 1
      · subst hl
        rw [update_self, if_pos ⟨by omega, le_rfl⟩]
        rfl
      · have hiff : 1 ≤ l ∧ l ≤ n + 1 ↔ 1 ≤ l ∧ l ≤ n := by omega
        simp only [update_of_ne hl, hval, hiff]

theorem readChar_eq (s : State) : readChar s = { s with
    characters := update s.characters s.eof (s.inbuff s.inp)
    eof := s.eof + 1
    inp := s.inp + 1 } := rfl

theorem readChars_spec (c : ℕ) :
    ∀ s : State, s.eof + c ≤ 255 →
      ∃ characters, readChars c s =
          (true, { s with characters, eof := s.eof + c, inp := s.inp + c }) ∧
        (∀ j < c, characters (s.eof + j) = s.inbuff (s.inp + j)) ∧
        ∀ j < s.eof, characters j = s.characters j := by
  induction c with
  | zero => exact fun s _ => ⟨s.characters, rfl, by simp, by simp⟩
  | succ c ih =>
    intro s hle
    obtain ⟨characters, heq, hnew, hold⟩ := ih (readChar s) (by rw [readChar_eq]; dsimp only; omega)
    rw [readChar_eq] at heq hnew hold
    refine ⟨characters, ?_, ?_, ?_⟩
    · rw [readChars, if_neg (by omega), readChar_eq, heq]
      simp only [Nat.add_assoc, Nat.add_comm 1]
    · intro j hj
      by_cases hj0 : j = 0
      · subst hj0
        exact (hold s.eof (Nat.lt_succ_self _)).trans (update_self ..)
      · obtain ⟨k, rfl⟩ : ∃ k, j = k + 1 := ⟨j - 1, by omega⟩
        have := hnew k (by omega)
        rwa [Nat.add_assoc, Nat.add_assoc, Nat.add_comm 1] at this
    · intro j hj
      exact (hold j (by dsimp only; omega)).trans (update_of_ne (by omega) ..)

/-- Leaves on the levels up to `n`. -/
def leavesUpTo (leaves : ℕ → ℕ) : ℕ → ℕ
  | 0 => 0
  | n + 1 => leavesUpTo leaves n + leaves (n + 1)

theorem leavesUpTo_congr {leaves leaves' : ℕ → ℕ} {n : ℕ}
    (h : ∀ l, 1 ≤ l → l ≤ n → leaves' l = leaves l) :
    leavesUpTo leaves' n = leavesUpTo leaves n := by
  induction n with
  | zero => rfl
  | succ n ih =>
    rw [leavesUpTo, leavesUpTo, h (n + 1) (by omega) le_rfl,
      ih fun l h1 hl => h l h1 (by omega)]

theorem leavesUpTo_mono (leaves : ℕ → ℕ) {m n : ℕ} (h : m ≤ n) :
    leavesUpTo leaves m ≤ leavesUpTo leaves n := by
  induction n, h using Nat.le_induction with
  | base => exact le_rfl
  | succ n _ ih => exact le_trans ih (Nat.le_add_right _ _)

/-- The leaves fit the dictionary. -/
theorem readLeaves_spec (s : State) (heof : s.eof = 0) :
    ∀ n, leavesUpTo s.intnodes n ≤ 255 →
      ∃ characters tree, readLeaves n s = (true, { s with
          characters, tree, eof := leavesUpTo s.intnodes n
          inp := s.inp + leavesUpTo s.intnodes n }) ∧
        (∀ l, tree l = if 1 ≤ l ∧ l ≤ n then some (leavesUpTo s.intnodes (l - 1))
          else s.tree l) ∧
        ∀ j < leavesUpTo s.intnodes n, characters j = s.inbuff (s.inp + j) := by
  intro n
  induction n with
  | zero =>
    intro _
    refine ⟨s.characters, s.tree, ?_, ?_, ?_⟩
    · have hself : ({ s with eof := 0 } : State) = s := by rw [← heof]
      exact congrArg (true, ·) hself.symm
    · intro l
      rw [if_neg (by omega)]
    · intro j hj
      rw [leavesUpTo] at hj
      omega
  | succ n ih =>
    intro hle
    have hn : leavesUpTo s.intnodes (n + 1) = leavesUpTo s.intnodes n + s.intnodes (n + 1) := rfl
    obtain ⟨characters, tree, heq, htree, hchars⟩ := ih (by omega)
    obtain ⟨characters', heq', hnew, hold⟩ := readChars_spec (s.intnodes (n + 1))
      { s with
        characters, tree := update tree (n + 1) (some (leavesUpTo s.intnodes n))
        eof := leavesUpTo s.intnodes n
        inp := s.inp + leavesUpTo s.intnodes n } (by dsimp only; omega)
    refine ⟨characters', update tree (n + 1) (some (leavesUpTo s.intnodes n)), ?_, ?_, ?_⟩
    · rw [readLeaves, heq]
      dsimp only
      rw [heq']
      dsimp only
      rw [hn, Nat.add_assoc]
    · intro l
      by_cases hln : l = n + 1
      · subst hln
        rw [update_self, if_pos ⟨by omega, le_rfl⟩]
        rfl
      · have hiff : 1 ≤ l ∧ l ≤ n + 1 ↔ 1 ≤ l ∧ l ≤ n := by omega
        simp only [update_of_ne hln, htree, hiff]
    · intro j hj
      by_cases hjn : j < leavesUpTo s.intnodes n
      · rw [hold j hjn]
        exact hchars j hjn
      · have := hnew (j - leavesUpTo s.intnodes n) (by omega)
        dsimp only at this
        rwa [show leavesUpTo s.intnodes n + (j - leavesUpTo s.intnodes n) = j by omega,
          show s.inp + leavesUpTo s.intnodes n + (j - leavesUpTo s.intnodes n) = s.inp + j by
            omega] at this

theorem readChars_overflow (c : ℕ) :
    ∀ s : State, s.eof ≤ 255 → 255 < s.eof + c →
      ∃ s', readChars c s = (false, s') ∧ s'.toFiles = s.toFiles := by
  induction c with
  | zero =>
    intro s h h'
    omega
  | succ c ih =>
    intro s h h'
    rw [readChars]
    split_ifs with hfull
    · exact ⟨s, rfl, rfl⟩
    · rw [readChar_eq]
      exact ih _ (by dsimp only; omega) (by dsimp only; omega)

theorem readLeaves_overflow (s : State) (heof : s.eof = 0) :
    ∀ n, 255 < leavesUpTo s.intnodes n →
      ∃ s', readLeaves n s = (false, s') ∧ s'.toFiles = s.toFiles := by
  intro n
  induction n with
  | zero =>
    intro h
    rw [leavesUpTo] at h
    omega
  | succ n ih =>
    intro h
    rw [leavesUpTo] at h
    rw [readLeaves]
    by_cases hn : 255 < leavesUpTo s.intnodes n
    · obtain ⟨s', heq, hfiles⟩ := ih hn
      rw [heq]
      exact ⟨s', rfl, hfiles⟩
    · obtain ⟨characters, tree, heq, _, _⟩ := readLeaves_spec s heof n (by omega)
      rw [heq]
      exact readChars_overflow _ _ (by dsimp only; omega) (by dsimp only; omega)

/-- What the header in the first buffer says. -/
def headerSize (s : State) : ℤ :=
  ((((s.inbuff 2).toNat * 256 + (s.inbuff 3).toNat) * 256 + (s.inbuff 4).toNat) * 256 +
    (s.inbuff 5).toNat : ℤ)

def headerLevels (s : State) : ℕ := (s.inbuff 6).toNat

def headerLeaves (s : State) (l : ℕ) : ℕ := (s.inbuff (6 + l)).toNat

/-- Leaves in the dictionary but for the last one, of which there is no count. -/
def headerTotal (s : State) : ℕ := leavesUpTo (headerLeaves s) (headerLevels s)

/-- Length of the header with the dictionary. -/
def headerEnd (s : State) : ℕ := 7 + headerLevels s + headerTotal s + 1

/-- The state in which `decode` is called. -/
structure Loaded (s d : State) : Prop where
  frame : ∃ characters tree intnodes, d = { s with
    origsize := headerSize s
    maxlev := headerLevels s
    inp := headerEnd s
    inleft := s.inleft - headerEnd s
    eof := headerTotal s + 1
    characters, tree, intnodes }
  tree : ∀ l, d.tree l = if 1 ≤ l ∧ l ≤ headerLevels s
    then some (leavesUpTo (headerLeaves s) (l - 1)) else s.tree l
  characters : ∀ j ≤ headerTotal s, d.characters j = s.inbuff (7 + headerLevels s + j)
  intnodes : ∃ leaves, d.intnodes = innerNodes (headerLevels s) 0 leaves ∧
    leaves (headerLevels s) =
      (if 1 ≤ headerLevels s then headerLeaves s (headerLevels s) else s.intnodes 0) + 2 ∧
    ∀ l, l ≠ headerLevels s → leaves l =
      if 1 ≤ l ∧ l ≤ headerLevels s then headerLeaves s l else s.intnodes l

/-- Does the first buffer hold a whole dictionary of a legal size? -/
def DictFits (s : State) : Prop :=
  headerLevels s ≤ 24 ∧ headerTotal s ≤ 255 ∧ (headerEnd s : ℤ) ≤ s.inleft

/-- What `getdict` does before `decode`; `false` is the `goto goof`. -/
def headerRead (s : State) : Bool × State :=
  let start : State := { s with
    origsize := headerSize s, maxlev := headerLevels s, inp := 7 }
  if 24 < headerLevels s then (false, start)
  else
    match readLeaves (headerLevels s) (readCounts (headerLevels s) start) with
    | (false, s) => (false, s)
    | (true, s) =>
      let s := readChar s
      let s := { s with
        intnodes := update s.intnodes s.maxlev (s.intnodes s.maxlev + 2)
        inleft := s.inleft - s.inp }
      if s.inleft < 0 then (false, s)
      else (true, { s with intnodes := innerNodes s.maxlev 0 s.intnodes })

theorem readDict_eq (BUFSIZ : ℕ) (s : State) : readDict BUFSIZ s =
    match headerRead s with
    | (false, s) => (.failure .notPackedFormat, s)
    | (true, d) => decode BUFSIZ d := by
  have h : readDict BUFSIZ s =
      if 24 < headerLevels s then (.failure .notPackedFormat, { s with
        origsize := headerSize s, maxlev := headerLevels s, inp := 7 })
      else
        match readLeaves (headerLevels s) (readCounts (headerLevels s) { s with
          origsize := headerSize s, maxlev := headerLevels s, inp := 7 }) with
        | (false, s) => (.failure .notPackedFormat, s)
        | (true, s) =>
          let s := readChar s
          let s := { s with
            intnodes := update s.intnodes s.maxlev (s.intnodes s.maxlev + 2)
            inleft := s.inleft - s.inp }
          if s.inleft < 0 then (.failure .notPackedFormat, s)
          else decode BUFSIZ { s with intnodes := innerNodes s.maxlev 0 s.intnodes } := rfl
  rw [h, headerRead]
  dsimp only
  split_ifs with hlev
  · rfl
  · split
    · rfl
    · split_ifs
      · rfl
      · rfl

/-- The counts of the levels, in place of the inner nodes of the last file. -/
theorem readCounts_header (s : State) :
    ∃ intnodes, readCounts (headerLevels s) { s with
          origsize := headerSize s, maxlev := headerLevels s, inp := 7 } =
        { s with
          origsize := headerSize s, maxlev := headerLevels s, inp := 7 + headerLevels s
          intnodes } ∧
      (∀ l, intnodes l = if 1 ≤ l ∧ l ≤ headerLevels s then headerLeaves s l
        else s.intnodes l) ∧
      ∀ l ≤ headerLevels s, leavesUpTo intnodes l = leavesUpTo (headerLeaves s) l := by
  obtain ⟨intnodes, hcounts, hint⟩ := readCounts_spec (headerLevels s)
    { s with origsize := headerSize s, maxlev := headerLevels s, inp := 7 }
  dsimp only at hint hcounts
  have hval : ∀ l, intnodes l = if 1 ≤ l ∧ l ≤ headerLevels s then headerLeaves s l
      else s.intnodes l := by
    intro l
    rw [hint, headerLeaves]
    split_ifs with hl
    · rw [show 7 + l - 1 = 6 + l by omega]
    · rfl
  refine ⟨intnodes, hcounts, hval, fun l hl => leavesUpTo_congr fun k h1 hk => ?_⟩
  rw [hval, if_pos ⟨h1, le_trans hk hl⟩]

theorem headerRead_of_fits {s : State} (heof : s.eof = 0) (h : DictFits s) :
    ∃ d, headerRead s = (true, d) ∧ Loaded s d := by
  obtain ⟨hlev, htotal, hend⟩ := h
  obtain ⟨intnodes, hcounts, hint, hupto⟩ := readCounts_header s
  obtain ⟨characters, tree, hread, htree, hchars⟩ := readLeaves_spec
    { s with
      origsize := headerSize s, maxlev := headerLevels s, inp := 7 + headerLevels s, intnodes }
    heof (headerLevels s) ((hupto _ le_rfl).trans_le htotal)
  dsimp only at hread htree hchars
  rw [hupto _ le_rfl] at hread hchars
  unfold headerRead
  dsimp only
  rw [if_neg (by omega), hcounts, hread]
  dsimp only
  rw [readChar_eq]
  dsimp only
  have hinp : 7 + headerLevels s + leavesUpTo (headerLeaves s) (headerLevels s) + 1 =
      headerEnd s := rfl
  rw [hinp, if_neg (by omega)]
  refine ⟨_, rfl, ⟨_, _, _, rfl⟩, ?_, ?_, ?_⟩
  · intro l
    dsimp only
    rw [htree]
    split_ifs with hl
    · rw [hupto _ (by omega)]
    · rfl
  · intro j hj
    by_cases hlast : j = headerTotal s
    · subst hlast
      exact update_self ..
    · refine (update_of_ne hlast ..).trans ?_
      exact hchars j (lt_of_le_of_ne hj hlast)
  · refine ⟨_, rfl, ?_, ?_⟩
    · rw [update_self, hint]
      by_cases h0 : 1 ≤ headerLevels s
      · rw [if_pos ⟨h0, le_rfl⟩, if_pos h0]
      · rw [if_neg (fun h => h0 h.1), if_neg h0, show headerLevels s = 0 by omega]
    · intro l hl
      rw [update_of_ne hl, hint]

theorem headerRead_of_not_fits {s : State} (heof : s.eof = 0) (h : ¬ DictFits s) :
    ∃ s', headerRead s = (false, s') ∧ s'.toFiles = s.toFiles := by
  obtain ⟨intnodes, hcounts, hint, hupto⟩ := readCounts_header s
  have hupto := hupto _ le_rfl
  unfold headerRead
  dsimp only
  by_cases hlev : 24 < headerLevels s
  · rw [if_pos hlev]
    exact ⟨_, rfl, rfl⟩
  · rw [if_neg hlev, hcounts]
    by_cases htotal : headerTotal s ≤ 255
    · obtain ⟨characters, tree, hread, _, _⟩ := readLeaves_spec
        { s with
          origsize := headerSize s, maxlev := headerLevels s, inp := 7 + headerLevels s
          intnodes } heof (headerLevels s) (hupto.trans_le htotal)
      dsimp only at hread
      rw [hupto] at hread
      rw [hread]
      dsimp only
      rw [readChar_eq]
      dsimp only
      have hinp : 7 + headerLevels s + leavesUpTo (headerLeaves s) (headerLevels s) + 1 =
          headerEnd s := rfl
      rw [hinp, if_pos]
      · exact ⟨_, rfl, rfl⟩
      · by_contra hend
        exact h ⟨by omega, htotal, by omega⟩
    · obtain ⟨s', hread, hfiles⟩ := readLeaves_overflow
        { s with
          origsize := headerSize s, maxlev := headerLevels s, inp := 7 + headerLevels s
          intnodes } heof (headerLevels s) (by
            dsimp only
            rw [hupto]
            exact Nat.lt_of_not_le htotal)
      rw [hread]
      exact ⟨s', rfl, hfiles⟩

theorem readDict_of_fits (BUFSIZ : ℕ) {s : State} (heof : s.eof = 0) (h : DictFits s) :
    ∃ d, readDict BUFSIZ s = decode BUFSIZ d ∧ Loaded s d := by
  obtain ⟨d, hd, hloaded⟩ := headerRead_of_fits heof h
  refine ⟨d, ?_, hloaded⟩
  rw [readDict_eq, hd]

theorem readDict_of_not_fits (BUFSIZ : ℕ) {s : State} (heof : s.eof = 0) (h : ¬ DictFits s) :
    ∃ s', readDict BUFSIZ s = (.failure .notPackedFormat, s') ∧ s'.toFiles = s.toFiles := by
  obtain ⟨s', hs', hfiles⟩ := headerRead_of_not_fits heof h
  refine ⟨s', ?_, hfiles⟩
  rw [readDict_eq, hs']

theorem innerNodes_spec {inner leaves : ℕ → ℕ} {maxlev : ℕ} (h : Levels inner leaves maxlev) :
    ∀ i intnodes, (∀ l, 1 ≤ l → l ≤ i → intnodes l = leaves l) →
      ∀ l, innerNodes i (2 * inner i) intnodes l =
        if 1 ≤ l ∧ l ≤ i then inner l else intnodes l := by
  intro i
  induction i with
  | zero =>
    intro intnodes _ l
    rw [innerNodes, if_neg (by omega)]
  | succ i ih =>
    intro intnodes hleaves l
    have hhalf : 2 * inner (i + 1) / 2 = inner (i + 1) := by omega
    rw [innerNodes, hleaves (i + 1) (by omega) le_rfl, hhalf, h.children i, ih]
    · by_cases hl : l = i + 1
      · subst hl
        rw [if_neg (by omega), if_pos (by omega), update_self]
      · have hiff : 1 ≤ l ∧ l ≤ i + 1 ↔ 1 ≤ l ∧ l ≤ i := by omega
        simp only [update_of_ne hl, hiff]
    · intro k hk1 hki
      rw [update_of_ne (by omega)]
      exact hleaves k hk1 (by omega)

end Unitas.Unpack
