import Mathlib.Data.List.TakeWhile
import Unitas.Lib.Stopping
import Unitas.Newform.Spec

/-! `cnvtspec` leaves the list of its specification in the table, and the lists before it. -/
namespace Unitas.Newform
open Stopping

/-! ### What a specification stands for -/

/-- The stops of the specifications that are there, after 1. -/
def standard : Fin 10 → List ℕ
  | 0 => [9, 17, 25, 33, 41, 49, 57, 65, 73]
  | 1 => [10, 16, 36, 72]
  | 2 => [10, 16, 40, 72]
  | 3 => [8, 12, 16, 20, 55]
  | 4 => [6, 10, 14, 49]
  | 5 => [6, 10, 14, 18, 22, 26, 30, 34, 38, 42, 46, 50, 54, 58, 62, 67]
  | 6 => [7, 11, 15, 19, 23]
  | 7 => [5, 9, 13, 17, 21, 25, 29, 33, 37, 41, 45, 49, 53, 57, 61]
  | 8 => [10, 55]
  | 9 => [12, 20, 44]

/-- The stops before the end of the line. -/
def stepStops (n : ℕ) : List ℕ := (List.range ((LINELEN - 2) / n)).map fun i => 1 + (i + 1) * n

/-- The stops after 1. Zero ends a list. -/
def Spec.stops : Spec → Except Fault (List ℕ)
  | .table k => .ok (standard k)
  | .step n => .ok (stepStops (if n = 0 then 1 else n))
  | .numbers ns => .ok (ns.takeWhile (0 < ·))
  | .stdin | .file _ => .error .indirection

def stopsOfLine (line : Str) : Except Fault (List ℕ) :=
  match readspec .start [] line with
  | none => .ok (standard 0)
  | some p => do
    let spec ← scan .start p
    spec.stops

def stopsOfStdin (lines : Lines) : Except Fault (List ℕ) :=
  match lines.stdin with
  | none => .ok (standard 0)
  | some line => stopsOfLine line

def Spec.stopsIn (lines : Lines) : Spec → Except Fault (List ℕ)
  | .stdin => stopsOfStdin lines
  | .file name =>
    match lines.file name with
    | none => .error .file
    | some line => stopsOfLine line
  | spec => spec.stops

def stopsOf (lines : Lines) (p : Str) : Except Fault (List ℕ) :=
  scan .start p >>= Spec.stopsIn lines

/-! ### New lists -/

theorem takeWhile_stop (P : ℕ → Bool) (ns : List ℕ)
    (h : (ns.takeWhile P).length < ns.length) : P (ns[(ns.takeWhile P).length]) = false := by
  induction ns with
  | nil => exact absurd h (Nat.lt_irrefl 0)
  | cons n ns ih =>
    by_cases hn : P n = true
    · simp only [List.takeWhile_cons, hn, if_true, List.length_cons, List.getElem_cons_succ] at h ⊢
      exact ih (Nat.lt_of_succ_lt_succ h)
    · simp only [List.takeWhile_cons, hn, Bool.false_eq_true, if_false, List.length_nil,
        List.getElem_cons_zero]

/-- The numbers of a list are at `q`, after 1. -/
structure Stored (ns : List ℕ) (q p : ℕ) (t₀ t : ℕ → ℕ) : Prop where
  asc : ns.Pairwise (· < ·)
  last : p = q + 1 + ns.length
  first : t q = 1
  get : ∀ i (h : i < ns.length), t (q + 1 + i) = ns[i]
  before : ∀ x < q, t x = t₀ x

theorem Stored.exists_stops {ns : List ℕ} {q p : ℕ} {t₀ t : ℕ → ℕ} (h : Stored ns q p t₀ t) :
    ∃ e : Stops, e.ns = ns.takeWhile (0 < ·) ∧ e.size ≤ ns.length ∧
      e.At (Function.update t p 0) q := by
  have hpre := List.takeWhile_prefix (fun n : ℕ => decide (0 < n)) (l := ns)
  refine ⟨⟨ns.takeWhile (0 < ·), fun n hn => by simpa using List.mem_takeWhile_imp hn,
    h.asc.sublist (List.takeWhile_sublist _)⟩, rfl, hpre.length_le, fun j hj => ?_⟩
  set e : Stops := ⟨ns.takeWhile (0 < ·), _, _⟩ with he
  have hsize : e.size = (ns.takeWhile (0 < ·)).length := rfl
  have hle : e.size ≤ ns.length := hpre.length_le
  have hlast := h.last
  cases j with
  | zero =>
    rw [Function.update_of_ne (by omega)]
    exact h.first
  | succ j =>
    have hadd : q + (j + 1) = q + 1 + j := by omega
    rw [hadd]
    by_cases hlt : j < e.size
    · rw [Function.update_of_ne (by omega), h.get j (by omega), Stops.get_succ hlt]
      exact (hpre.getElem hlt).symm
    · obtain rfl : j = e.size := by omega
      rw [Stops.get_end]
      by_cases hend : e.size = ns.length
      · have hp : q + 1 + e.size = p := by omega
        rw [hp, Function.update_self]
      · have hlt' : e.size < ns.length := by omega
        rw [Function.update_of_ne (by omega), h.get e.size hlt']
        have hstop := takeWhile_stop (fun n : ℕ => decide (0 < n)) ns hlt'
        exact Nat.eq_zero_of_not_pos (of_decide_eq_false hstop)

theorem numberLoop_spec {ns : List ℕ} {p p' : ℕ} {t t' : ℕ → ℕ}
    (h : numberLoop ns p t = .ok (p', t')) :
    ns.Pairwise (· < ·) ∧ p' = p + ns.length ∧ (∀ i (hi : i < ns.length), t' (p + i) = ns[i]) ∧
      ∀ x < p, t' x = t x := by
  induction ns generalizing p t with
  | nil =>
    cases h
    exact ⟨.nil, rfl, fun i hi => absurd hi (Nat.not_lt_zero i), fun _ _ => rfl⟩
  | cons n ns ih =>
    rw [numberLoop] at h
    split_ifs at h with hlt
    obtain ⟨hasc, hp', hget, hbefore⟩ := ih h
    refine ⟨List.pairwise_cons.mpr ⟨fun n' hn' => ?_, hasc⟩, ?_, fun i hi => ?_, fun x hx => ?_⟩
    · cases ns with
      | nil => cases hn'
      | cons b ns =>
        have hb : n < b := hlt b rfl
        rcases List.mem_cons.mp hn' with rfl | hmem
        · exact hb
        · exact hb.trans ((List.pairwise_cons.mp hasc).1 n' hmem)
    · rw [hp', List.length_cons]
      omega
    · cases i with
      | zero =>
        rw [Nat.add_zero, hbefore p (Nat.lt_succ_self p), Function.update_self]
        rfl
      | succ i =>
        have := hget i (Nat.lt_of_succ_lt_succ hi)
        rwa [Nat.add_right_comm, Nat.add_assoc] at this
    · rw [hbefore x (hx.trans (Nat.lt_succ_self p)), Function.update_of_ne (Nat.ne_of_lt hx)]

theorem stepLoop_spec {n q : ℕ} (hn : 0 < n) (fuel i : ℕ) (t : ℕ → ℕ)
    (hget : ∀ j ≤ i, t (q + j) = 1 + j * n) (hi : i ≤ (LINELEN - 2) / n + 1)
    (hfuel : (LINELEN - 2) / n + 1 - i < fuel) :
    ∃ t', stepLoop n fuel (q + i) t = (q + ((LINELEN - 2) / n + 1), t') ∧
      (∀ j ≤ (LINELEN - 2) / n + 1, t' (q + j) = 1 + j * n) ∧ ∀ x < q, t' x = t x := by
  induction fuel generalizing i t with
  | zero => exact absurd hfuel (Nat.not_lt_zero _)
  | succ fuel ih =>
    rw [stepLoop, hget i le_rfl]
    have hdiv : i ≤ (LINELEN - 2) / n ↔ i * n ≤ LINELEN - 2 := Nat.le_div_iff_mul_le hn
    have hline : LINELEN = 80 := rfl
    by_cases hlt : 1 + i * n < LINELEN
    · have hle : i ≤ (LINELEN - 2) / n := hdiv.mpr (by omega)
      rw [if_pos hlt]
      dsimp only
      rw [Function.update_self, Function.update_idem, Nat.add_assoc]
      have hnext (j : ℕ) (hj : j ≤ i + 1) :
          Function.update t (q + (i + 1)) (1 + i * n + n) (q + j) = 1 + j * n := by
        rcases Nat.lt_or_eq_of_le hj with hj' | rfl
        · rw [Function.update_of_ne (by omega)]
          exact hget j (Nat.le_of_lt_succ hj')
        · rw [Function.update_self, Nat.succ_mul, Nat.add_assoc]
      obtain ⟨t', hloop, hget', hbefore⟩ := ih (i + 1) _ hnext (by omega) (by omega)
      refine ⟨t', hloop, hget', fun x hx => ?_⟩
      rw [hbefore x hx, Function.update_of_ne (by omega)]
    · rw [if_neg hlt]
      have heq : i = (LINELEN - 2) / n + 1 := by
        have : ¬ i ≤ (LINELEN - 2) / n := fun hle => hlt (by have := hdiv.mp hle; omega)
        omega
      exact ⟨t, by rw [← heq], by rw [← heq]; exact hget, fun _ _ => rfl⟩

/-- The list of `-number`; the entry after its last stop is to become zero. -/
theorem stored_step {n : ℕ} (hn : 0 < n) (q : ℕ) (t₀ : ℕ → ℕ) :
    ∃ t, stepLoop n LINELEN q (Function.update t₀ q 1) = (q + ((LINELEN - 2) / n + 1), t) ∧
      Stored (stepStops n) q (q + ((LINELEN - 2) / n + 1)) t₀ t := by
  have hsteps := Nat.div_le_self (LINELEN - 2) n
  have hline : LINELEN = 80 := rfl
  have hstart (j : ℕ) (hj : j ≤ 0) : Function.update t₀ q 1 (q + j) = 1 + j * n := by
    obtain rfl := Nat.le_zero.mp hj
    rw [Nat.add_zero, Function.update_self, Nat.zero_mul]
  obtain ⟨t, hloop, hget, hbefore⟩ :=
    stepLoop_spec hn LINELEN 0 _ hstart (Nat.zero_le _) (by omega)
  have hlen : (stepStops n).length = (LINELEN - 2) / n := by
    rw [stepStops, List.length_map, List.length_range]
  refine ⟨t, hloop, ?_, ?_, ?_, fun i hi => ?_, fun x hx => ?_⟩
  · refine List.pairwise_map.mpr (List.pairwise_lt_range.imp fun hlt => ?_)
    exact Nat.add_lt_add_left (Nat.mul_lt_mul_of_pos_right (Nat.succ_lt_succ hlt) hn) 1
  · rw [hlen]
    omega
  · simpa using hget 0 (Nat.zero_le _)
  · have hi' := hget (i + 1) (by omega)
    rw [Nat.add_assoc, Nat.add_comm 1 i, hi']
    simp only [stepStops, List.getElem_map, List.getElem_range]
  · rw [hbefore x hx, Function.update_of_ne (Nat.ne_of_lt hx)]

theorem takeWhile_stepStops (n : ℕ) : (stepStops n).takeWhile (0 < ·) = stepStops n := by
  refine List.takeWhile_eq_self_iff.mpr fun x hx => ?_
  obtain ⟨i, -, rfl⟩ := List.mem_map.mp hx
  exact decide_eq_true (Nat.lt_of_lt_of_le Nat.one_pos (Nat.le_add_right _ _))

/-! ### The lists of the table -/

/-- Each specification has its list, before the next entry. -/
structure Lists (lines : Lines) (s : Specs) (lists : ℕ → Stops) : Prop where
  many : 10 ≤ s.nextspec
  stored : ∀ k < s.nextspec, (lists k).At s.tabtbl (s.spectbl k)
  below : ∀ k < s.nextspec, s.spectbl k + (lists k).size + 1 < s.nexttab
  standard : ∀ k : Fin 10, (lists k).ns = standard k
  stdin : ∀ k, s.sitabspec = some k →
    k < s.nextspec ∧ stopsOfStdin lines = .ok (lists k).ns

/-- There is a new list, or none, and the others have stayed. -/
structure Enters (lines : Lines) (s : Specs) (lists : ℕ → Stops) (stops : Except Fault (List ℕ))
    (k : ℕ) (s' : Specs) (lists' : ℕ → Stops) : Prop where
  holds : Lists lines s' lists'
  lt : k < s'.nextspec
  stops : stops = .ok (lists' k).ns
  le : s.nextspec ≤ s'.nextspec
  same : ∀ j < s.nextspec, lists' j = lists j

variable {lines : Lines} {s s' : Specs} {lists : ℕ → Stops} {k : ℕ}

theorem Lists.slot (h : Lists lines s lists) {ns : List ℕ} {p : ℕ} {t : ℕ → ℕ}
    (hstored : Stored ns s.nexttab p s.tabtbl t) (hslot : s.slot p t = .ok (k, s')) :
    ∃ lists', Enters lines s lists (.ok (ns.takeWhile (0 < ·))) k s' lists' := by
  obtain ⟨e, he, hsize, hat⟩ := hstored.exists_stops
  have hlast := hstored.last
  unfold Specs.slot at hslot
  split_ifs at hslot
  cases hslot
  have hmany := h.many
  have hsame (j : ℕ) (hj : j < s.nextspec) : Function.update lists s.nextspec e j = lists j :=
    Function.update_of_ne (Nat.ne_of_lt hj) _ _
  refine ⟨Function.update lists s.nextspec e, ⟨?_, ?_, ?_, ?_, ?_⟩, Nat.lt_succ_self _,
    by rw [Function.update_self, he], Nat.le_succ _, hsame⟩
  · exact hmany.trans (Nat.le_succ _)
  · intro j hj
    rcases Nat.lt_succ_iff_lt_or_eq.mp hj with hj' | rfl
    · intro i hi
      have hbelow := h.below j hj'
      dsimp only
      rw [hsame j hj'] at hi ⊢
      rw [Function.update_of_ne (Nat.ne_of_lt hj'), Function.update_of_ne (by omega),
        hstored.before _ (by omega)]
      exact h.stored j hj' i hi
    · dsimp only
      rw [Function.update_self, Function.update_self]
      exact hat
  · intro j hj
    dsimp only
    rcases Nat.lt_succ_iff_lt_or_eq.mp hj with hj' | rfl
    · have hbelow := h.below j hj'
      rw [hsame j hj', Function.update_of_ne (Nat.ne_of_lt hj')]
      omega
    · rw [Function.update_self, Function.update_self]
      omega
  · intro j
    rw [hsame j (j.isLt.trans_le hmany)]
    exact h.standard j
  · intro j hj
    obtain ⟨hlt, hstops⟩ := h.stdin j hj
    rw [hsame j hlt]
    exact ⟨hlt.trans (Nat.lt_succ_self _), hstops⟩

theorem Lists.enter (h : Lists lines s lists) {spec : Spec} (henter : s.enter spec = .ok (k, s')) :
    ∃ lists', Enters lines s lists spec.stops k s' lists' := by
  cases spec with
  | table j =>
    cases henter
    exact ⟨lists, h, j.isLt.trans_le h.many, congrArg _ (h.standard j).symm, le_rfl, fun _ _ => rfl⟩
  | step n =>
    have hpos : 0 < if n = 0 then 1 else n := by
      split_ifs
      · exact Nat.one_pos
      · omega
    obtain ⟨t, hloop, hstored⟩ := stored_step hpos s.nexttab s.tabtbl
    simp only [Specs.enter, hloop] at henter
    by_cases hint : 1 + (if n = 0 then 1 else n) < 2 ^ 31
    · rw [if_pos hint] at henter
      have hout := h.slot hstored henter
      rwa [takeWhile_stepStops] at hout
    · rw [if_neg hint] at henter
      cases henter
  | numbers ns =>
    obtain ⟨⟨p, t⟩, hloop, hslot⟩ := exists_of_bind_ok henter
    obtain ⟨hasc, hp, hget, hbefore⟩ := numberLoop_spec hloop
    refine h.slot ⟨hasc, hp, ?_, hget, fun x hx => ?_⟩ hslot
    · rw [hbefore _ (Nat.lt_succ_self _), Function.update_self]
    · rw [hbefore x (hx.trans (Nat.lt_succ_self _)), Function.update_of_ne (Nat.ne_of_lt hx)]
  | stdin => cases henter
  | file name => cases henter

theorem Lists.indirect (h : Lists lines s lists) {line : Str}
    (hind : s.indirect line = .ok (k, s')) :
    ∃ lists', Enters lines s lists (stopsOfLine line) k s' lists' := by
  unfold Specs.indirect at hind
  unfold stopsOfLine
  cases hread : readspec .start [] line with
  | none =>
    rw [hread] at hind
    cases hind
    exact ⟨lists, h, Nat.lt_of_lt_of_le (by decide) h.many, congrArg _ (h.standard 0).symm, le_rfl,
      fun _ _ => rfl⟩
  | some p =>
    rw [hread] at hind
    obtain ⟨spec, hscan, henter⟩ := exists_of_bind_ok hind
    simp only [hscan]
    exact h.enter henter

/-- An accepted specification has the list of its stops. -/
theorem Lists.cnvtspec (h : Lists lines s lists) {p : Str}
    (hcnvt : cnvtspec lines s p = .ok (k, s')) :
    ∃ lists', Enters lines s lists (stopsOf lines p) k s' lists' := by
  obtain ⟨spec, hscan, hspec⟩ := exists_of_bind_ok hcnvt
  have hstops : stopsOf lines p = spec.stopsIn lines := by
    unfold stopsOf
    rw [hscan]
    rfl
  rw [hstops]
  cases spec with
  | table j => exact h.enter (show s.enter (.table j) = .ok (k, s') from hspec)
  | step n => exact h.enter (show s.enter (.step n) = .ok (k, s') from hspec)
  | numbers ns => exact h.enter (show s.enter (.numbers ns) = .ok (k, s') from hspec)
  | stdin =>
    cases hsi : s.sitabspec with
    | some j =>
      simp only [Specs.select, hsi] at hspec
      cases hspec
      obtain ⟨hlt, hj⟩ := h.stdin _ hsi
      exact ⟨lists, h, hlt, hj, le_rfl, fun _ _ => rfl⟩
    | none =>
      cases hline : lines.stdin with
      | none =>
        simp only [Specs.select, hsi, hline] at hspec
        cases hspec
        refine ⟨lists, h, Nat.lt_of_lt_of_le (by decide) h.many, ?_, le_rfl, fun _ _ => rfl⟩
        simp only [Spec.stopsIn, stopsOfStdin, hline]
        exact congrArg _ (h.standard 0).symm
      | some line =>
        simp only [Specs.select, hsi, hline] at hspec
        obtain ⟨⟨j, s''⟩, hind, hset⟩ := exists_of_bind_ok hspec
        cases hset
        obtain ⟨lists', hholds, hlt, hstops', hle, hsame⟩ := h.indirect hind
        have hstdin : stopsOfStdin lines = .ok (lists' j).ns := by
          simp only [stopsOfStdin, hline]
          exact hstops'
        refine ⟨lists', ⟨hholds.many, hholds.stored, hholds.below, hholds.standard, ?_⟩, hlt,
          hstdin, hle, hsame⟩
        intro i hi
        cases hi
        exact ⟨hlt, hstdin⟩
  | file name =>
    cases hfile : lines.file name with
    | none =>
      simp only [Specs.select, hfile] at hspec
      cases hspec
    | some line =>
      simp only [Specs.select, Spec.stopsIn, hfile] at hspec ⊢
      exact h.indirect hspec

/-- So have all the specifications of a command line. -/
theorem Lists.cnvtspecs {ps : List Str} {ks : List ℕ} (h : Lists lines s lists)
    (hcnvt : cnvtspecs lines ps s = .ok (ks, s')) :
    ∃ lists', Lists lines s' lists' ∧ s.nextspec ≤ s'.nextspec ∧
      (∀ j < s.nextspec, lists' j = lists j) ∧
      List.Forall₂ (fun p k => k < s'.nextspec ∧ stopsOf lines p = .ok (lists' k).ns) ps ks := by
  induction ps generalizing s lists ks with
  | nil =>
    cases hcnvt
    exact ⟨lists, h, le_rfl, fun _ _ => rfl, .nil⟩
  | cons p ps ih =>
    obtain ⟨⟨k, s₁⟩, hfirst, hrest⟩ := exists_of_bind_ok hcnvt
    obtain ⟨⟨ks', s₂⟩, hrest, hcons⟩ := exists_of_bind_ok hrest
    cases hcons
    obtain ⟨lists₁, henters⟩ := h.cnvtspec hfirst
    obtain ⟨lists₂, hholds, hle, hsame, hall⟩ := ih henters.holds hrest
    refine ⟨lists₂, hholds, henters.le.trans hle, fun j hj => ?_, .cons ⟨?_, ?_⟩ hall⟩
    · rw [hsame j (hj.trans_le henters.le), henters.same j hj]
    · exact henters.lt.trans_le hle
    · rw [hsame k henters.lt]
      exact henters.stops

/-! ### The table at the beginning -/

def standardStops (k : Fin 10) : Stops where
  ns := standard k
  pos := by
    revert k
    decide
  asc := by
    revert k
    decide

def standardLists (k : ℕ) : Stops := standardStops (Fin.ofNat 10 k)

theorem standard_stored : ∀ k < 10, ∀ j ≤ (standardLists k).size + 1,
    initial.tabtbl (initial.spectbl k + j) = (standardLists k).get j := by
  decide +kernel

theorem standard_below : ∀ k < 10,
    initial.spectbl k + (standardLists k).size + 1 < initial.nexttab := by
  decide +kernel

theorem lists_initial : Lists lines initial standardLists :=
  ⟨le_rfl, standard_stored, standard_below, fun k => congrArg standard (Fin.ofNat_val_eq_self k),
    nofun⟩

end Unitas.Newform
