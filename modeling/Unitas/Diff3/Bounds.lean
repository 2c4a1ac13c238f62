import Unitas.Diff3.Model
import Unitas.Lib.Stopping

/-! The tables of `diff3` are not left, if and only if each diff has at least one change and fewer
than `NC`. -/
namespace Unitas.Diff3
open Unitas.Stopping

/-- A run that stays within the tables, and what its result is. -/
abbrev Within {α : Type} (m : M α) (Q : α → Prop) : Prop := Avoids Stop.outside m Q

theorem within_index (i : ℤ) (h0 : 0 ≤ i) (hlt : i < NC) : Within (index i) fun _ => True := by
  unfold index
  rw [if_pos ⟨h0, hlt⟩]
  exact Avoids.pure True.intro

theorem within_getDiff (w : Which) (i : ℤ) (h0 : 0 ≤ i) (hlt : i < NC) :
    Within (getDiff w i) fun _ => True := by
  unfold getDiff
  refine (within_index i h0 hlt).bind fun k _ => ?_
  exact avoids_get.bind fun _ _ => Avoids.pure True.intro

theorem within_setDiff (w : Which) (i : ℤ) (h0 : 0 ≤ i) (hlt : i < NC) (f : Diff → Diff) :
    Within (setDiff w i f) fun _ => True := by
  unfold setDiff
  exact (within_index i h0 hlt).bind fun k _ => avoids_modify _

/-! ### The files -/

theorem within_skipLines (i : Fin 3) (n : ℕ) : Within (skipLines i n) fun _ => True := by
  induction n with
  | zero => exact Avoids.pure True.intro
  | succ n ih =>
    unfold skipLines
    refine avoids_get.bind fun s _ => ?_
    cases getlin BUFSIZ [] (s.fp i) with
    | none => exact Avoids.throw (by decide)
    | some r =>
      refine (avoids_modify _).bind fun _ _ => ?_
      exact ih.bind fun _ _ => Avoids.pure True.intro

theorem within_skip (i : Fin 3) (line : ℤ) : Within (skip i line) fun _ => True := by
  unfold skip
  exact avoids_get.bind fun s _ => within_skipLines i _

theorem within_change (i : Fin 3) (rold : Range) (dup : Bool) :
    Within (change i rold dup) fun _ => True := by
  unfold change
  refine (avoids_modify _).bind fun _ _ => Avoids.ite (fun _ => Avoids.pure True.intro) fun _ => ?_
  refine (within_skip i rold.start).bind fun _ _ => ?_
  exact (within_skip i rold.stop).bind fun _ _ => Avoids.pure True.intro

theorem within_keep (i : Fin 3) (rnew : Range) : Within (keep i rnew) fun _ => True := by
  unfold keep
  exact avoids_get.bind fun s _ => within_change i _ true

theorem within_duplicate (r1 r2 : Range) : Within (duplicate r1 r2) fun _ => True := by
  unfold duplicate
  refine Avoids.ite (fun _ => Avoids.pure True.intro) fun _ => ?_
  refine (within_skip 0 r1.start).bind fun _ _ => (within_skip 1 r2.start).bind fun _ _ => ?_
  refine avoids_get.bind fun s _ => ?_
  cases sameLines (r1.stop - r1.start).toNat (s.fp 0) (s.fp 1) with
  | none => exact Avoids.throw (by decide)
  | some dup => exact Avoids.pure True.intro

/-! ### The merge -/

theorem within_edit (eflag : ℕ) (diff : Diff) (dup : Bool) {j : ℕ} (hj : j + 1 < NC) :
    Within (edit eflag diff dup j) fun j' => j' ≤ j + 1 := by
  unfold edit
  refine Avoids.ite (fun _ => Avoids.pure (Nat.le_succ j)) fun _ => ?_
  refine (within_index (j + 1) (by omega) (by omega)).bind fun k _ => ?_
  refine (avoids_modify _).bind fun _ _ => ?_
  refine (within_index j (by omega) (by omega)).bind fun k' _ => ?_
  refine avoids_get.bind fun s _ => (within_skip 2 _).bind fun _ _ => ?_
  refine (within_skip 2 _).bind fun _ _ => ?_
  exact (avoids_modify _).bind fun _ _ => Avoids.pure (Nat.le_refl _)

theorem within_third (eflag : ℕ) (x y : Diff) {j : ℕ} (hj : j + 1 < NC) :
    Within (third eflag x y j) fun j' => j' ≤ j + 1 := by
  unfold third
  refine (within_duplicate x.old y.old).bind fun dup _ => Avoids.ite (fun _ => ?_) fun _ => ?_
  · refine (within_change 0 _ _).bind fun _ _ => (within_change 1 _ _).bind fun _ _ => ?_
    exact (within_change 2 _ _).bind fun _ _ => Avoids.pure (Nat.le_succ j)
  · exact within_edit eflag x dup hj

theorem within_before (w w' : Which) {k k' : ℕ} (hk : k < NC) (hk' : k' < NC) :
    Within (before w w' k k') fun _ => True := by
  unfold before
  refine (within_getDiff w k (by omega) (by omega)).bind fun _ _ => ?_
  exact (within_getDiff w' k' (by omega) (by omega)).bind fun _ _ => Avoids.pure True.intro

theorem within_reaches (w : Which) {m k : ℕ} (hm : m < NC) :
    Within (reaches w m k) fun b => b = true → k + 1 < m := by
  unfold reaches
  refine Avoids.ite (fun hk => ?_) fun _ => Avoids.pure fun h => absurd h Bool.false_ne_true
  refine (within_getDiff w k (by omega) (by omega)).bind fun _ _ => ?_
  exact (within_getDiff w (k + 1) (by omega) (by omega)).bind fun _ _ => Avoids.pure fun _ => hk

theorem within_mergeNext (w : Which) {k : ℕ} (hk : k + 1 < NC) :
    Within (mergeNext w k) fun _ => True := by
  unfold mergeNext
  refine (within_getDiff w k (by omega) (by omega)).bind fun _ _ => ?_
  exact within_setDiff w (k + 1) (by omega) (by omega) _

theorem within_first (eflag : ℕ) {k : ℕ} (hk : k < NC) :
    Within (first eflag k) fun _ => True := by
  unfold first
  refine Avoids.ite (fun _ => ?_) fun _ => Avoids.pure True.intro
  refine (within_getDiff .d13 k (by omega) (by omega)).bind fun x _ => ?_
  refine (within_change 0 _ _).bind fun _ _ => (within_keep 1 _).bind fun _ _ => ?_
  exact within_change 2 _ _

theorem within_second (eflag : ℕ) {k : ℕ} (hk : k < NC) :
    Within (second eflag k) fun _ => True := by
  unfold second
  refine Avoids.ite (fun _ => ?_) fun _ => Avoids.pure True.intro
  refine (within_getDiff .d23 k (by omega) (by omega)).bind fun y _ => ?_
  refine (within_keep 0 _).bind fun _ _ => (within_change 1 _ _).bind fun _ _ => ?_
  exact within_change 2 _ _

/-- The places lie within the tables or right behind them, and each section that is to be edited
has taken a change of both tables. -/
structure Place.Ok (m1 m2 : ℕ) (p : Place) : Prop where
  d1 : p.d1 ≤ m1
  d2 : p.d2 ≤ m2
  j1 : p.j ≤ p.d1
  j2 : p.j ≤ p.d2

theorem within_turn (eflag : ℕ) {m1 m2 : ℕ} (hm1 : m1 < NC) (hm2 : m2 < NC) {p : Place}
    (hp : p.Ok m1 m2) (hmore : p.d1 < m1 ∨ p.d2 < m2) :
    Within (turn eflag m1 m2 p) (Place.Ok m1 m2) := by
  obtain ⟨hd1, hd2, hj1, hj2⟩ := hp
  unfold turn
  have hfirst : Within (if ¬ p.d2 < m2 then (pure true : M Bool)
      else if p.d1 < m1 then before .d13 .d23 p.d1 p.d2 else pure false)
      fun b => (b = true → p.d1 < m1) ∧ (b = false → p.d2 < m2) := by
    refine Avoids.ite (fun h2 => Avoids.pure ⟨fun _ => by omega, fun h => ?_⟩) fun h2 => ?_
    · exact absurd h.symm Bool.false_ne_true
    · rw [not_not] at h2
      refine Avoids.ite (fun h1 => ?_) fun _ => Avoids.pure ⟨fun h => ?_, fun _ => h2⟩
      · exact (within_before _ _ (by omega) (by omega)).mono fun _ _ => ⟨fun _ => h1, fun _ => h2⟩
      · exact absurd h Bool.false_ne_true
  refine hfirst.bind fun b hb => Avoids.ite (fun h => ?_) fun h => ?_
  · -- peculiar to the first file
    have h1 := hb.1 h
    refine (within_first eflag (by omega)).bind fun _ _ => Avoids.pure ⟨?_, hd2, ?_, hj2⟩
    · exact h1
    · exact hj1.trans (Nat.le_succ _)
  have h2 := hb.2 (by simpa using h)
  have hsecond : Within (if ¬ p.d1 < m1 then (pure true : M Bool)
      else if p.d2 < m2 then before .d23 .d13 p.d2 p.d1 else pure false)
      fun b => b = false → p.d1 < m1 := by
    refine Avoids.ite (fun _ => Avoids.pure fun h => absurd h.symm Bool.false_ne_true) fun h1 => ?_
    rw [not_not] at h1
    refine Avoids.ite (fun _ => ?_) fun _ => Avoids.pure fun _ => h1
    exact (within_before _ _ (by omega) (by omega)).mono fun _ _ _ => h1
  refine hsecond.bind fun b' hb' => Avoids.ite (fun _ => ?_) fun h' => ?_
  · -- peculiar to the second file
    refine (within_second eflag (by omega)).bind fun _ _ => Avoids.pure ⟨hd1, ?_, hj1, ?_⟩
    · exact h2
    · exact hj2.trans (Nat.le_succ _)
  have h1 := hb' (by simpa using h')
  refine (within_reaches .d13 hm1).bind fun c hc => Avoids.ite (fun h3 => ?_) fun _ => ?_
  · have := hc h3
    refine (within_mergeNext .d13 (by omega)).bind fun _ _ => Avoids.pure ⟨?_, hd2, ?_, hj2⟩
    · exact h1
    · exact hj1.trans (Nat.le_succ _)
  refine (within_reaches .d23 hm2).bind fun c hc => Avoids.ite (fun h4 => ?_) fun _ => ?_
  · have := hc h4
    refine (within_mergeNext .d23 (by omega)).bind fun _ _ => Avoids.pure ⟨hd1, ?_, hj1, ?_⟩
    · exact h2
    · exact hj2.trans (Nat.le_succ _)
  refine (within_getDiff .d13 p.d1 (by omega) (by omega)).bind fun x _ => ?_
  refine (within_getDiff .d23 p.d2 (by omega) (by omega)).bind fun y _ => ?_
  refine Avoids.ite (fun _ => ?_) fun _ => ?_
  · -- a section more at most
    refine (within_third eflag x y (by omega)).bind fun j hj => Avoids.pure ⟨h1, h2, ?_, ?_⟩
    · exact hj.trans (Nat.succ_le_succ hj1)
    · exact hj.trans (Nat.succ_le_succ hj2)
  · refine (within_setDiff .d13 p.d1 (by omega) (by omega) _).bind fun _ _ => ?_
    refine (within_setDiff .d23 p.d2 (by omega) (by omega) _).bind fun _ _ => ?_
    exact Avoids.pure ⟨hd1, hd2, hj1, hj2⟩

theorem within_turns (eflag : ℕ) {m1 m2 : ℕ} (hm1 : m1 < NC) (hm2 : m2 < NC) (fuel : ℕ) :
    ∀ p : Place, p.Ok m1 m2 → Within (turns eflag m1 m2 fuel p) fun j => j ≤ m1 := by
  induction fuel with
  | zero => exact fun _ _ => Avoids.throw (by decide)
  | succ fuel ih =>
    intro p hp
    unfold turns
    refine Avoids.ite (fun hmore => ?_) fun _ => Avoids.pure (hp.j1.trans hp.d1)
    exact (within_turn eflag hm1 hm2 hp hmore).bind fun p' hp' => ih p' hp'

theorem within_edscript (oflag : Bool) (file : List UInt8) (n : ℕ) (hn : n < NC) :
    Within (edscript oflag file n) fun _ => True := by
  induction n with
  | zero => exact Avoids.pure True.intro
  | succ n ih =>
    unfold edscript
    have hindex : Within (index ((n : ℤ) + 1)) fun _ => True :=
      within_index _ (by omega) (by omega)
    have hrest : Within (do
        let k ← index ((n : ℤ) + 1)
        let r := ((← get).de k).new
        if (file.drop r.start.toNat).length < r.stop - r.start then throw .trouble
        else edscript oflag file n : M Unit) fun _ => True := by
      refine hindex.bind fun k _ => avoids_get.bind fun s _ => Avoids.ite (fun _ => ?_) fun _ => ?_
      · exact Avoids.throw (by decide)
      · exact ih (by omega)
    cases oflag with
    | false => exact hrest
    | true => exact hindex.bind fun _ _ => hrest

theorem within_merge (eflag : ℕ) (oflag : Bool) {m1 m2 : ℕ} (hm1 : m1 < NC) (hm2 : m2 < NC)
    (fuel : ℕ) (file : List UInt8) : Within (merge eflag oflag m1 m2 fuel file) fun _ => True := by
  unfold merge
  have hstart : Place.Ok m1 m2 ⟨0, 0, 0⟩ :=
    ⟨Nat.zero_le _, Nat.zero_le _, Nat.le_refl _, Nat.le_refl _⟩
  refine (within_turns eflag hm1 hm2 fuel _ hstart).bind fun j hj => ?_
  refine Avoids.ite (fun _ => ?_) fun _ => ?_
  · exact within_edscript oflag file j (by omega)
  · exact Avoids.pure True.intro

/-! ### Reading -/

theorem index_ok {i : ℤ} (h0 : 0 ≤ i) (hlt : i < NC) (s : State) :
    index i s = .ok (i.toNat, s) := by
  unfold index
  rw [if_pos ⟨h0, hlt⟩]
  rfl

theorem index_outside {i : ℤ} (h : i < 0 ∨ NC ≤ i) (s : State) : index i s = .error .outside := by
  unfold index
  rw [if_neg (by omega)]
  rfl

theorem getDiff_ok (w : Which) {i : ℤ} (h0 : 0 ≤ i) (hlt : i < NC) (s : State) :
    getDiff w i s = .ok (s.diffs w i.toNat, s) := by
  unfold getDiff
  rw [bind_ok (index_ok h0 hlt s)]
  rfl

theorem setDiff_ok (w : Which) {i : ℤ} (h0 : 0 ≤ i) (hlt : i < NC) (f : Diff → Diff) (s : State) :
    ∃ t, setDiff w i f s = .ok (⟨⟩, t) := by
  unfold setDiff
  rw [bind_ok (index_ok h0 hlt s)]
  exact ⟨_, rfl⟩

/-- The changes go into the table as long as it has room. -/
theorem readChanges_ok (w : Which) (xs : List Diff) : ∀ i s, i + xs.length ≤ NC →
    ∃ t, readChanges w i xs s = .ok (i + xs.length, t) := by
  induction xs with
  | nil => exact fun i s _ => ⟨s, rfl⟩
  | cons x xs ih =>
    intro i s hroom
    rw [List.length_cons] at hroom
    obtain ⟨t, ht⟩ := setDiff_ok w (by omega : (0 : ℤ) ≤ i) (by omega) (fun _ => x) s
    obtain ⟨u, hu⟩ := ih (i + 1) t (by omega)
    refine ⟨u, ?_⟩
    unfold readChanges
    rw [if_neg (by omega), bind_ok ht, hu, List.length_cons, Nat.add_right_comm]
    rfl

/-- `readin` of a diff that is not too long stays within the table if and only if there are a first
change and room for one more. -/
theorem readin_cases (w : Which) {b : List UInt8} (hfew : (changes b).length ≤ NC) (s : State) :
    (0 < (changes b).length ∧ (changes b).length < NC ∧
      ∃ t, readin w b s = .ok ((changes b).length, t)) ∨
    ¬ (0 < (changes b).length ∧ (changes b).length < NC) ∧ readin w b s = .error .outside := by
  obtain ⟨t, ht⟩ := readChanges_ok w (changes b) 0 s (by omega)
  rw [Nat.zero_add] at ht
  unfold readin
  rw [bind_ok ht]
  generalize (changes b).length = i at hfew ⊢
  by_cases hpos : 0 < i
  · rw [bind_ok (getDiff_ok w (by omega) (by omega) t)]
    by_cases hlt : i < NC
    · left
      obtain ⟨u, hu⟩ := setDiff_ok w (by omega : (0 : ℤ) ≤ i) (by omega)
        (fun y => { y with
          old.start := (t.diffs w ((i : ℤ) - 1).toNat).old.stop
          new.start := (t.diffs w ((i : ℤ) - 1).toNat).new.stop }) t
      refine ⟨hpos, hlt, u, ?_⟩
      rw [bind_ok hu]
      rfl
    · right
      refine ⟨fun h => hlt h.2, ?_⟩
      refine bind_error ?_ _
      unfold setDiff
      exact bind_error (index_outside (by omega) t) _
  · right
    refine ⟨fun h => hpos h.1, ?_⟩
    refine bind_error ?_ _
    unfold getDiff
    exact bind_error (index_outside (by omega) t) _

/-- No access lies outside of the tables, if and only if each diff has at least one change and
fewer than `NC`. -/
theorem within_tables (eflag : ℕ) (oflag : Bool) (input : Input)
    (h13 : (changes input.d13).length ≤ NC) (h23 : (changes input.d23).length ≤ NC) :
    (∀ fuel, main eflag oflag input fuel (zero input) ≠ .error .outside) ↔
      (0 < (changes input.d13).length ∧ (changes input.d13).length < NC) ∧
        0 < (changes input.d23).length ∧ (changes input.d23).length < NC := by
  constructor
  · intro hall
    have h := hall 0
    unfold main at h
    rcases readin_cases .d13 h13 (zero input) with ⟨hpos, hlt, t, ht⟩ | ⟨-, hout⟩
    · rw [bind_ok ht] at h
      rcases readin_cases .d23 h23 t with ⟨hpos', hlt', -⟩ | ⟨-, hout⟩
      · exact ⟨⟨hpos, hlt⟩, hpos', hlt'⟩
      · exact absurd (bind_error hout _) h
    · exact absurd (bind_error hout _) h
  · rintro ⟨hm, hn⟩ fuel
    unfold main
    rcases readin_cases .d13 h13 (zero input) with ⟨-, hlt, t, ht⟩ | ⟨hnot, -⟩
    · rw [bind_ok ht]
      rcases readin_cases .d23 h23 t with ⟨-, hlt', u, hu⟩ | ⟨hnot, -⟩
      · rw [bind_ok hu]
        exact (within_merge eflag oflag hlt hlt' fuel (input.files 2)).ne u
      · exact absurd hn hnot
    · exact absurd hm hnot

/-- One line that is different in all of the files. -/
def oneChange : Input where
  d13 := [49, 99, 49, 10]
  d23 := [49, 99, 49, 10]
  files i := [97 + UInt8.ofNat i.val, 10]

/-- The first file is the third one, so that the first diff is empty. -/
def sameFile : Input where
  d13 := []
  d23 := [49, 99, 49, 10]
  files i := if i = 1 then [98, 10] else [97, 10]

theorem within_tables_oneChange :
    (∀ fuel, main 3 true oneChange fuel (zero oneChange) ≠ .error .outside) ↔
      (0 < (changes oneChange.d13).length ∧ (changes oneChange.d13).length < NC) ∧
        0 < (changes oneChange.d23).length ∧ (changes oneChange.d23).length < NC := by
  exact within_tables 3 true oneChange (by decide +kernel) (by decide +kernel)

/-- The sentinel of an empty diff is taken from before the table. -/
theorem not_within_tables : ¬ ∀ (eflag : ℕ) (oflag : Bool) (input : Input),
    (changes input.d13).length ≤ NC → (changes input.d23).length ≤ NC →
    ∀ fuel, main eflag oflag input fuel (zero input) ≠ .error .outside := by
  intro h
  have h13 : (changes sameFile.d13).length = 0 := rfl
  refine h 0 false sameFile (by rw [h13]; exact Nat.zero_le _) (by decide +kernel) 0 ?_
  unfold main
  rcases readin_cases .d13 (by rw [h13]; exact Nat.zero_le _) (zero sameFile) with h | ⟨-, hout⟩
  · rw [h13] at h
    exact absurd h.1 (Nat.lt_irrefl 0)
  · exact bind_error hout _

end Unitas.Diff3
