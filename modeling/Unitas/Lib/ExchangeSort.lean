import Mathlib.Data.List.Basic
import Mathlib.Data.List.Perm.Basic

/-! Sorting by exchange: each element in turn is swapped with every later one that belongs before
it. -/
namespace Unitas.ExchangeSort

variable {α : Type} (after : α → α → Bool)

/-- The inner loop: the element that ends up in front, and the rest. -/
def sweep (r : α) : List α → α × List α
  | [] => (r, [])
  | t :: ts =>
    if after r t then
      let (m, ts) := sweep t ts
      (m, r :: ts)
    else
      let (m, ts) := sweep r ts
      (m, t :: ts)

def sortLoop : ℕ → List α → List α
  | 0, l => l
  | _ + 1, [] => []
  | n + 1, r :: rs =>
    let (m, rs) := sweep after r rs
    m :: sortLoop n rs

def exchangeSort (l : List α) : List α := sortLoop after l.length l

theorem sweep_perm (ts : List α) : ∀ r,
    ((sweep after r ts).1 :: (sweep after r ts).2).Perm (r :: ts) := by
  induction ts with
  | nil => exact fun r => List.Perm.refl _
  | cons t ts ih =>
    intro r
    rw [sweep]
    split_ifs
    · exact ((List.Perm.swap _ _ _).trans ((ih t).cons r))
    · exact (List.Perm.swap _ _ _).trans (((ih r).cons t).trans (List.Perm.swap _ _ _))

theorem sweep_length (ts : List α) (r : α) : (sweep after r ts).2.length = ts.length := by
  have := (sweep_perm after ts r).length_eq
  simpa using this

theorem sortLoop_perm (n : ℕ) : ∀ l : List α, (sortLoop after n l).Perm l := by
  induction n with
  | zero => exact fun l => List.Perm.refl l
  | succ n ih =>
    intro l
    cases l with
    | nil => exact List.Perm.refl _
    | cons r rs =>
      rw [sortLoop]
      exact ((ih _).cons _).trans (sweep_perm after rs r)

theorem exchangeSort_perm (l : List α) : (exchangeSort after l).Perm l :=
  sortLoop_perm after l.length l

section
variable {after} {P : α → Prop}
  (htrans : ∀ {x y z}, P y → after x y = true → after y z = true → after x z = true)
include htrans

/-- When of any two elements one belongs after the other, the front belongs before the rest. -/
theorem sweep_front (ts : List α) : ∀ r, (∀ x ∈ r :: ts, P x) →
    (r :: ts).Pairwise (fun x y => after x y = true ∨ after y x = true) →
    ∀ x ∈ (sweep after r ts).2, after x (sweep after r ts).1 = true := by
  induction ts with
  | nil => exact fun _ _ _ x hx => absurd hx List.not_mem_nil
  | cons t ts ih =>
    intro r hP hpair
    have hPr := hP r List.mem_cons_self
    have hPt := hP t (List.mem_cons_of_mem r List.mem_cons_self)
    rw [List.pairwise_cons] at hpair
    obtain ⟨hr, htail⟩ := hpair
    rw [sweep]
    split_ifs with h
    · have hfront := ih t (fun x hx => hP x (List.mem_cons_of_mem r hx)) htail
      dsimp only
      intro x hx
      rcases List.mem_cons.mp hx with rfl | hx
      · have ht : t ∈ (sweep after t ts).1 :: (sweep after t ts).2 :=
          (sweep_perm after ts t).mem_iff.mpr List.mem_cons_self
        rcases List.mem_cons.mp ht with heq | ht
        · rwa [← heq]
        · exact htrans hPt h (hfront t ht)
      · exact hfront x hx
    · have hrt : after t r = true := (hr t List.mem_cons_self).resolve_left h
      have hfront := ih r (fun x hx => hP x (by
        rcases List.mem_cons.mp hx with rfl | hx
        · exact List.mem_cons_self
        · exact List.mem_cons_of_mem _ (List.mem_cons_of_mem _ hx)))
        (List.pairwise_cons.mpr ⟨fun x hx => hr x (List.mem_cons_of_mem t hx),
          (List.pairwise_cons.mp htail).2⟩)
      dsimp only
      intro x hx
      rcases List.mem_cons.mp hx with rfl | hx
      · have hmem : r ∈ (sweep after r ts).1 :: (sweep after r ts).2 :=
          (sweep_perm after ts r).mem_iff.mpr List.mem_cons_self
        rcases List.mem_cons.mp hmem with heq | hmem
        · rwa [← heq]
        · exact htrans hPr hrt (hfront r hmem)
      · exact hfront x hx

theorem sortLoop_sorted (n : ℕ) : ∀ l : List α, l.length ≤ n → (∀ x ∈ l, P x) →
    l.Pairwise (fun x y => after x y = true ∨ after y x = true) →
    (sortLoop after n l).Pairwise fun x y => after y x = true := by
  induction n with
  | zero =>
    intro l hl _ _
    obtain rfl := List.length_eq_zero_iff.mp (Nat.le_zero.mp hl)
    exact List.Pairwise.nil
  | succ n ih =>
    intro l hl hP hpair
    cases l with
    | nil => exact List.Pairwise.nil
    | cons r rs =>
      have hperm := sweep_perm after rs r
      have hpair' := hpair.perm hperm.symm fun h => h.symm
      have hlen := sweep_length after rs r
      have hP' : ∀ x ∈ (sweep after r rs).2, P x := fun x hx =>
        hP x (hperm.mem_iff.mp (List.mem_cons_of_mem _ hx))
      rw [sortLoop]
      refine List.pairwise_cons.mpr ⟨fun x hx => ?_, ih _ ?_ hP' (List.pairwise_cons.mp hpair').2⟩
      · exact sweep_front htrans rs r hP hpair x ((sortLoop_perm after n _).mem_iff.mp hx)
      · rw [hlen]
        exact Nat.le_of_succ_le_succ hl

theorem exchangeSort_sorted {l : List α} (hP : ∀ x ∈ l, P x)
    (hpair : l.Pairwise fun x y => after x y = true ∨ after y x = true) :
    (exchangeSort after l).Pairwise fun x y => after y x = true :=
  sortLoop_sorted htrans l.length l (Nat.le_refl _) hP hpair

end

end Unitas.ExchangeSort
