import Mathlib

/-! Two lists in order are gone through side by side, perhaps in another order: when are all their
common elements met? -/
namespace Unitas.Merge

set_option linter.unusedSectionVars false

variable {α β γ : Type} [DecidableEq α] [BEq α] [LawfulBEq α] [LinearOrder β] [LinearOrder γ]

/-- The elements that are at the head of both lists at once, when the list whose head comes first
by `g` goes on. -/
def matched (g : α → γ) : List α → List α → List α
  | [], _ => []
  | _ :: _, [] => []
  | a :: l, b :: m =>
    if a = b then a :: matched g l m
    else if g a < g b then matched g l (b :: m)
    else matched g (a :: l) m
  termination_by l m => l.length + m.length

/-- The same walk, which keeps what it passes: an element of the first list alone under 1, of the
second one alone under 2, and of both under 3. -/
def columns (g : α → γ) : List α → List α → List (ℕ × α)
  | [], m => m.map (2, ·)
  | a :: l, [] => (a :: l).map (1, ·)
  | a :: l, b :: m =>
    if a = b then (3, a) :: columns g l m
    else if g a < g b then (1, a) :: columns g l (b :: m)
    else (2, b) :: columns g (a :: l) m
  termination_by l m => l.length + m.length

/-- Common elements are met as often as both lists have them. -/
def AllMatched (g : α → γ) (l m : List α) : Prop :=
  ∀ v, (matched g l m).count v = min (l.count v) (m.count v)

/-- Elements of one list that are left over before a common element, and not before an earlier
one, come before it by `g`. -/
def InStep (f : α → β) (g : α → γ) (l m : List α) : Prop :=
  ∀ v x, v ∈ l → v ∈ m → l.count x ≠ m.count x → f x < f v →
    (∃ w, w ∈ l ∧ w ∈ m ∧ f x < f w ∧ f w < f v) ∨ g x < g v

def Sorted (f : α → β) (l : List α) : Prop := l.Pairwise fun a b => f a ≤ f b

theorem count_map_column (k j : ℕ) (v : α) (l : List α) :
    (l.map (j, ·)).count (k, v) = if k = j then l.count v else 0 := by
  split_ifs with hk
  · subst hk
    exact List.count_map_of_injective l (Prod.mk k) (fun _ _ h => (Prod.mk.inj h).2) v
  · refine List.count_eq_zero_of_not_mem fun hmem => ?_
    obtain ⟨a, -, heq⟩ := List.mem_map.mp hmem
    exact hk (congrArg Prod.fst heq).symm

theorem columns_spec (g : α → γ) (l m : List α) (v : α) :
    (columns g l m).count (3, v) = (matched g l m).count v ∧
      (columns g l m).count (1, v) + (matched g l m).count v = l.count v ∧
      (columns g l m).count (2, v) + (matched g l m).count v = m.count v ∧
      ∀ k, k ≠ 1 → k ≠ 2 → k ≠ 3 → (columns g l m).count (k, v) = 0 := by
  have hhead : ∀ (j : ℕ) (a : α) (rest : List (ℕ × α)) (k : ℕ), ((j, a) :: rest).count (k, v) =
      rest.count (k, v) + if k = j then [a].count v else 0 := by
    intro j a rest k
    have hmap := count_map_column k j v [a]
    rw [List.map_singleton] at hmap
    rw [← hmap, ← List.singleton_append, List.count_append, Nat.add_comm]
  have hcons : ∀ (a : α) (l : List α), (a :: l).count v = l.count v + [a].count v := by
    intro a l
    rw [← List.singleton_append, List.count_append, Nat.add_comm]
  fun_induction matched g l m with
  | case1 m =>
    rw [columns]
    have hmap := fun k => count_map_column k 2 v m
    refine ⟨hmap 3, ?_, ?_, fun k _ h _ => (hmap k).trans (if_neg h)⟩
    · rw [hmap 1]
      rfl
    · rw [hmap 2]
      exact Nat.add_zero _
  | case2 a l =>
    rw [columns]
    have hmap := fun k => count_map_column k 1 v (a :: l)
    refine ⟨hmap 3, ?_, ?_, fun k h _ _ => (hmap k).trans (if_neg h)⟩
    · rw [hmap 1]
      exact Nat.add_zero _
    · rw [hmap 2]
      rfl
  | case3 l b m ih =>
    obtain ⟨h3, h1, h2, h0⟩ := ih
    rw [columns, if_pos rfl, hcons b (matched g l m), hcons b l, hcons b m, hhead, hhead, hhead]
    refine ⟨congrArg (· + [b].count v) h3, ?_, ?_, fun k hk1 hk2 hk3 => ?_⟩
    · rw [if_neg (by decide)]
      omega
    · rw [if_neg (by decide)]
      omega
    · rw [hhead, if_neg hk3, h0 k hk1 hk2 hk3]
  | case4 a l b m hab hlt ih =>
    obtain ⟨h3, h1, h2, h0⟩ := ih
    rw [columns, if_neg hab, if_pos hlt, hcons a l, hhead, hhead, hhead]
    refine ⟨h3, ?_, h2, fun k hk1 hk2 hk3 => ?_⟩
    · rw [if_pos rfl]
      omega
    · rw [hhead, if_neg hk1, h0 k hk1 hk2 hk3]
  | case5 a l b m hab hlt ih =>
    obtain ⟨h3, h1, h2, h0⟩ := ih
    rw [columns, if_neg hab, if_neg hlt, hcons b m, hhead, hhead, hhead]
    refine ⟨h3, h1, ?_, fun k hk1 hk2 hk3 => ?_⟩
    · rw [if_pos rfl]
      omega
    · rw [hhead, if_neg hk2, h0 k hk1 hk2 hk3]

theorem matched_nil_right (g : α → γ) (l : List α) : matched g l [] = [] := by
  cases l with
  | nil => rw [matched]
  | cons a l => rw [matched]

variable {f : α → β} {g : α → γ} (hf : Function.Injective f) (hg : Function.Injective g)

include hg in
theorem matched_comm (n : ℕ) : ∀ l m : List α, l.length + m.length ≤ n →
    matched g l m = matched g m l := by
  induction n with
  | zero =>
    intro l m h
    obtain rfl := List.length_eq_zero_iff.mp (by omega : l.length = 0)
    obtain rfl := List.length_eq_zero_iff.mp (by omega : m.length = 0)
    rfl
  | succ n ih =>
    intro l m h
    cases l with
    | nil => rw [matched, matched_nil_right]
    | cons a l =>
      cases m with
      | nil => rw [matched, matched]
      | cons b m =>
        rw [List.length_cons, List.length_cons] at h
        rw [matched, matched]
        by_cases hab : a = b
        · rw [if_pos hab, if_pos hab.symm, ih l m (by omega), hab]
        · have hne : g a ≠ g b := fun h => hab (hg h)
          rw [if_neg hab, if_neg (Ne.symm hab)]
          by_cases hlt : g a < g b
          · rw [if_pos hlt, if_neg hlt.not_gt, ih l (b :: m) (by rw [List.length_cons]; omega)]
          · rw [if_neg hlt, if_pos (lt_of_le_of_ne (not_lt.mp hlt) hne.symm),
              ih (a :: l) m (by rw [List.length_cons]; omega)]

theorem allMatched_comm (hg : Function.Injective g) (l m : List α) :
    AllMatched g l m ↔ AllMatched g m l := by
  rw [AllMatched, AllMatched, matched_comm hg _ l m (Nat.le_refl _)]
  exact forall_congr' fun v => by omega

theorem inStep_comm (l m : List α) : InStep f g l m ↔ InStep f g m l := by
  have hone : ∀ l m : List α, InStep f g l m → InStep f g m l := by
    intro l m h v x hvm hvl hx hlt
    exact (h v x hvl hvm hx.symm hlt).imp_left fun ⟨w, hw⟩ => ⟨w, hw.2.1, hw.1, hw.2.2⟩
  exact ⟨hone l m, hone m l⟩

/-- The heads agree. -/
theorem allMatched_cons_self (a : α) (l m : List α) :
    AllMatched g (a :: l) (a :: m) ↔ AllMatched g l m := by
  rw [AllMatched, AllMatched, matched, if_pos rfl]
  refine forall_congr' fun v => ?_
  rw [List.count_cons, List.count_cons, List.count_cons]
  omega

theorem mem_of_count_ne {l m : List α} {x : α} (h : l.count x ≠ m.count x) : x ∈ l ∨ x ∈ m := by
  by_contra hnot
  rw [not_or] at hnot
  rw [List.count_eq_zero_of_not_mem hnot.1, List.count_eq_zero_of_not_mem hnot.2] at h
  exact h rfl

theorem inStep_cons_self {a : α} {l m : List α} (hl : Sorted f (a :: l))
    (hm : Sorted f (a :: m)) : InStep f g (a :: l) (a :: m) ↔ InStep f g l m := by
  have hcount : ∀ x, (a :: l).count x ≠ (a :: m).count x ↔ l.count x ≠ m.count x := by
    intro x
    rw [List.count_cons, List.count_cons]
    omega
  have hle : ∀ x, l.count x ≠ m.count x → f a ≤ f x := fun x hx =>
    (mem_of_count_ne hx).elim (List.rel_of_pairwise_cons hl) (List.rel_of_pairwise_cons hm)
  constructor
  · intro h v x hvl hvm hx hlt
    refine (h v x (List.mem_cons_of_mem a hvl) (List.mem_cons_of_mem a hvm)
      ((hcount x).mpr hx) hlt).imp_left ?_
    rintro ⟨w, hwl, hwm, hxw, hwv⟩
    have hne : w ≠ a := by
      rintro rfl
      exact (hle x hx).not_gt hxw
    exact ⟨w, List.mem_of_ne_of_mem hne hwl, List.mem_of_ne_of_mem hne hwm, hxw, hwv⟩
  · intro h v x hvl hvm hx hlt
    have hx' := (hcount x).mp hx
    have hne : v ≠ a := by
      rintro rfl
      exact (hle x hx').not_gt hlt
    refine (h v x (List.mem_of_ne_of_mem hne hvl) (List.mem_of_ne_of_mem hne hvm) hx'
      hlt).imp_left ?_
    rintro ⟨w, hwl, hwm, hw⟩
    exact ⟨w, List.mem_cons_of_mem a hwl, List.mem_cons_of_mem a hwm, hw⟩

theorem matched_sublist (g : α → γ) (l m : List α) : (matched g l m).Sublist l := by
  fun_induction matched g l m with
  | case1 m => exact List.Sublist.refl _
  | case2 a l => exact List.nil_sublist _
  | case3 l b m ih => exact ih.cons_cons b
  | case4 a l b m _ _ ih => exact ih.cons a
  | case5 a l b m _ _ ih => exact ih

include hf in
/-- An element that is passed over although the other list may have it later is never met. -/
theorem count_matched_zero {a b : α} {m : List α} (hba : f b < f a) (hab : g a < g b)
    (l : List α) (hl : Sorted f l) (hle : ∀ x ∈ l, f a ≤ f x) :
    (matched g l (b :: m)).count a = 0 := by
  induction l with
  | nil => rw [matched, List.count_nil]
  | cons c l ih =>
    have hc := hle c List.mem_cons_self
    have hcb : c ≠ b := by
      rintro rfl
      exact (hba.trans_le hc).false
    rw [matched, if_neg hcb]
    by_cases hlt : g c < g b
    · rw [if_pos hlt]
      exact ih hl.of_cons fun x hx => hle x (List.mem_cons_of_mem c hx)
    · rw [if_neg hlt]
      have hac : f a < f c := by
        refine lt_of_le_of_ne hc fun h => ?_
        rw [← hf h] at hlt
        exact hlt hab
      have hnot : a ∉ c :: l := by
        intro hmem
        rcases List.mem_cons.mp hmem with rfl | hmem
        · exact hac.false
        · exact (hac.trans_le (List.rel_of_pairwise_cons hl hmem)).false
      have := (matched_sublist g (c :: l) m).count_le a
      rw [List.count_eq_zero_of_not_mem hnot] at this
      exact Nat.le_zero.mp this

include hf in
/-- The first list goes on. -/
theorem step_left {a b : α} {l m : List α} (hab : g a < g b) (hl : Sorted f (a :: l))
    (hm : Sorted f (b :: m))
    (ih : AllMatched g l (b :: m) ↔ InStep f g l (b :: m)) :
    AllMatched g (a :: l) (b :: m) ↔ InStep f g (a :: l) (b :: m) := by
  have hne : a ≠ b := by
    rintro rfl
    exact hab.false
  have hmatched : matched g (a :: l) (b :: m) = matched g l (b :: m) := by
    rw [matched, if_neg hne, if_pos hab]
  by_cases hmem : a ∈ b :: m
  · -- `a` comes later in the other list: it is missed
    have hba : f b < f a := by
      refine lt_of_le_of_ne (List.rel_of_pairwise_cons hm (List.mem_of_ne_of_mem hne hmem)) ?_
      exact fun h => hne (hf h).symm
    have hbl : b ∉ a :: l := by
      intro h
      rcases List.mem_cons.mp h with rfl | h
      · exact hba.false
      · exact (hba.trans_le (List.rel_of_pairwise_cons hl h)).false
    refine iff_of_false (fun h => ?_) fun h => ?_
    · have hcount := h a
      rw [hmatched, count_matched_zero hf hba hab l hl.of_cons
        fun x hx => List.rel_of_pairwise_cons hl hx] at hcount
      have h1 := List.count_pos_iff.mpr hmem
      have h2 := List.count_pos_iff.mpr (List.mem_cons_self : a ∈ a :: l)
      omega
    · have hcount : (a :: l).count b ≠ (b :: m).count b := by
        rw [List.count_eq_zero_of_not_mem hbl]
        have := List.count_pos_iff.mpr (List.mem_cons_self : b ∈ b :: m)
        omega
      rcases h a b List.mem_cons_self hmem hcount hba with ⟨w, hw, -, -, hwa⟩ | h
      · rcases List.mem_cons.mp hw with rfl | hw
        · exact hwa.false
        · exact (hwa.trans_le (List.rel_of_pairwise_cons hl hw)).false
      · exact (h.trans hab).false
  · have hcount : ∀ x ≠ a, (a :: l).count x = l.count x := fun x hx =>
      List.count_cons_of_ne (Ne.symm hx)
    have hzero : (b :: m).count a = 0 := List.count_eq_zero_of_not_mem hmem
    have hall : AllMatched g (a :: l) (b :: m) ↔ AllMatched g l (b :: m) := by
      refine forall_congr' fun v => ?_
      rw [hmatched]
      by_cases hv : v = a
      · rw [hv, hzero, Nat.min_zero, Nat.min_zero]
      · rw [hcount v hv]
    rw [hall, ih]
    constructor
    · intro h v x hvl hvm hx hlt
      have hva : v ≠ a := fun h => hmem (h ▸ hvm)
      have hvl' := List.mem_of_ne_of_mem hva hvl
      have hlift : ∀ x, (∃ w, w ∈ l ∧ w ∈ b :: m ∧ f x < f w ∧ f w < f v) ∨ g x < g v →
          (∃ w, w ∈ a :: l ∧ w ∈ b :: m ∧ f x < f w ∧ f w < f v) ∨ g x < g v := fun x h =>
        h.imp_left fun ⟨w, hw, hrest⟩ => ⟨w, List.mem_cons_of_mem a hw, hrest⟩
      by_cases hxa : x = a
      · subst hxa
        by_cases hal : x ∈ l
        · have hpos := List.count_pos_iff.mpr hal
          exact hlift x (h v x hvl' hvm (by omega) hlt)
        · -- the last copy of `x` comes before `v` because `b` does
          by_cases hvb : v = b
          · exact Or.inr (hvb ▸ hab)
          have hbv : f b < f v := lt_of_le_of_ne (List.rel_of_pairwise_cons hm
            (List.mem_of_ne_of_mem hvb hvm)) fun h => hvb (hf h).symm
          by_cases hbl : b ∈ l
          · refine Or.inl ⟨b, List.mem_cons_of_mem x hbl, List.mem_cons_self, ?_, hbv⟩
            exact lt_of_le_of_ne (List.rel_of_pairwise_cons hl hbl) fun h => hne (hf h)
          · have hbcount : l.count b ≠ (b :: m).count b := by
              rw [List.count_eq_zero_of_not_mem hbl]
              have := List.count_pos_iff.mpr (List.mem_cons_self : b ∈ b :: m)
              omega
            rcases h v b hvl' hvm hbcount hbv with ⟨w, hwl, hwm, -, hwv⟩ | h
            · refine Or.inl ⟨w, List.mem_cons_of_mem x hwl, hwm, ?_, hwv⟩
              refine lt_of_le_of_ne (List.rel_of_pairwise_cons hl hwl) fun h => hal ?_
              rwa [hf h]
            · exact Or.inr (hab.trans h)
      · rw [hcount x hxa] at hx
        exact hlift x (h v x hvl' hvm hx hlt)
    · intro h v x hvl hvm hx hlt
      have hx' : (a :: l).count x ≠ (b :: m).count x := by
        by_cases hxa : x = a
        · rw [hxa, hzero, List.count_cons_self]
          omega
        · rwa [hcount x hxa]
      refine (h v x (List.mem_cons_of_mem a hvl) hvm hx' hlt).imp_left ?_
      rintro ⟨w, hwl, hwm, hw⟩
      have hwa : w ≠ a := fun h => hmem (h ▸ hwm)
      exact ⟨w, List.mem_of_ne_of_mem hwa hwl, hwm, hw⟩

include hf hg in
/-- All common elements are met if and only if the two lists stay in step. -/
theorem allMatched_iff (n : ℕ) : ∀ l m : List α, l.length + m.length ≤ n → Sorted f l →
    Sorted f m → (AllMatched g l m ↔ InStep f g l m) := by
  have hnil : ∀ m : List α, AllMatched g [] m ↔ InStep f g [] m := fun m =>
    iff_of_true (fun v => by rw [matched, List.count_nil, Nat.zero_min])
      fun v x h => absurd h List.not_mem_nil
  induction n with
  | zero =>
    intro l m h _ _
    obtain rfl := List.length_eq_zero_iff.mp (by omega : l.length = 0)
    exact hnil m
  | succ n ih =>
    intro l m h hl hm
    cases l with
    | nil => exact hnil m
    | cons a l =>
      cases m with
      | nil =>
        rw [allMatched_comm hg, inStep_comm]
        exact hnil (a :: l)
      | cons b m =>
        rw [List.length_cons, List.length_cons] at h
        by_cases hab : a = b
        · subst hab
          rw [allMatched_cons_self, inStep_cons_self hl hm]
          exact ih l m (by omega) hl.of_cons hm.of_cons
        · rcases lt_or_gt_of_ne fun h => hab (hg h) with hlt | hlt
          · exact step_left hf hlt hl hm (ih l (b :: m) (by rw [List.length_cons]; omega)
              hl.of_cons hm)
          · rw [allMatched_comm hg, inStep_comm]
            refine step_left hf hlt hm hl ?_
            rw [allMatched_comm hg, inStep_comm]
            exact ih (a :: l) m (by rw [List.length_cons]; omega) hl hm.of_cons

end Unitas.Merge
