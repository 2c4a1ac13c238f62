import Mathlib.Data.List.Nodup
import Mathlib.Tactic.SplitIfs
import Mathlib.Logic.Function.Basic

/-! Singly linked lists through a field `next` of their cells, with the walks and updates
that go by slots: the pointer to the first cell, or the field of a cell. -/
namespace Unitas.LinkedList

variable {α : Type*}

/-- The cells from a pointer on, up to a null pointer. -/
inductive Chain (next : α → Option α) : Option α → List α → Prop
  | nil : Chain next none []
  | cons {a : α} {l : List α} : Chain next (next a) l → Chain next (some a) (a :: l)

variable {next next' : α → Option α} {p : Option α} {a b : α} {l l' l₁ l₂ : List α}

theorem Chain.congr (h : Chain next p l) (heq : ∀ a ∈ l, next' a = next a) :
    Chain next' p l := by
  induction h with
  | nil => exact .nil
  | @cons a l _ ih =>
    refine .cons ?_
    rw [heq a (by simp)]
    exact ih fun b hb => heq b (by simp [hb])

theorem Chain.eq_nil (h : Chain next none l) : l = [] := by
  cases h
  rfl

theorem Chain.exists_cons (h : Chain next (some a) l) :
    ∃ l', l = a :: l' ∧ Chain next (next a) l' := by
  cases h with
  | cons h => exact ⟨_, rfl, h⟩

theorem Chain.unique (h : Chain next p l) (h' : Chain next p l') : l = l' := by
  induction h generalizing l' with
  | nil => exact h'.eq_nil.symm
  | cons _ ih =>
    obtain ⟨l'', rfl, h''⟩ := h'.exists_cons
    rw [ih h'']

theorem Chain.of_append (h : Chain next p (l₁ ++ a :: l₂)) : Chain next (some a) (a :: l₂) := by
  induction l₁ generalizing p with
  | nil =>
    cases h with
    | cons h => exact .cons h
  | cons b l₁ ih =>
    cases h with
    | cons h => exact ih h

/-- A cell comes once: after its second occurrence the list would go on as after its first. -/
theorem Chain.nodup (h : Chain next p l) : l.Nodup := by
  induction h with
  | nil => exact List.nodup_nil
  | @cons a l h ih =>
    refine List.nodup_cons.mpr ⟨fun hmem => ?_, ih⟩
    obtain ⟨l₁, l₂, rfl⟩ := List.append_of_mem hmem
    have heq := (Chain.cons h).unique h.of_append
    have hlen := congrArg List.length heq
    simp at hlen
    omega

theorem Chain.eq_head? (h : Chain next p l) : p = l.head? := by
  cases h <;> rfl

theorem Chain.next_eq (h : Chain next p (l₁ ++ a :: l₂)) : next a = l₂.head? := by
  cases h.of_append with
  | cons h => exact h.eq_head?

/-! ### Slots -/

structure Links (α : Type*) where
  head : Option α
  next : α → Option α

/-- The slot `none` is the pointer to the first cell. -/
def Links.get (k : Links α) : Option α → Option α
  | none => k.head
  | some a => k.next a

def Links.set [DecidableEq α] (k : Links α) (slot p : Option α) : Links α :=
  match slot with
  | none => { k with head := p }
  | some a => { k with next := Function.update k.next a p }

/-- The cells of `k` are those of `l`, in that order. -/
def Links.Is (k : Links α) (l : List α) : Prop := Chain k.next k.head l

/-- A walk that does not come to an end, or goes on from a null pointer. -/
inductive Fault
  | loops
  | null
  deriving DecidableEq

/-- The slot that points to `a`, from a slot on. -/
def Links.slotOf [DecidableEq α] (k : Links α) (a : α) : ℕ → Option α → Except Fault (Option α)
  | 0, _ => .error .loops
  | fuel + 1, slot =>
    match k.get slot with
    | none => .error .null
    | some b => if b = a then .ok slot else k.slotOf a fuel (some b)

variable {k : Links α} {slot : Option α}

/-- The cells from a slot that is not one of theirs. -/
def Links.From (k : Links α) (slot : Option α) (l : List α) : Prop :=
  Chain k.next (k.get slot) l ∧ ∀ c ∈ l, slot ≠ some c

theorem Links.Is.from_none (h : k.Is l) : k.From none l := ⟨h, fun _ _ => nofun⟩

theorem Links.From.tail (h : k.From slot (b :: l)) : k.get slot = some b ∧ k.From (some b) l := by
  obtain ⟨hchain, -⟩ := h
  generalize hget : k.get slot = p at hchain
  have hnodup := hchain.nodup
  cases hchain with
  | cons hchain =>
    refine ⟨rfl, hchain, fun c hc heq => ?_⟩
    rw [Option.some.inj heq] at hnodup
    exact (List.nodup_cons.mp hnodup).1 hc

/-- What a walk behind the cells `l₁` comes to. -/
theorem Links.Is.get_getLast? (h : k.Is (l₁ ++ l₂)) : k.get l₁.getLast? = l₂.head? := by
  rcases List.eq_nil_or_concat l₁ with rfl | ⟨l, b, rfl⟩
  · exact Chain.eq_head? h
  · have heq : l.concat b ++ l₂ = l ++ b :: l₂ := by simp
    rw [heq] at h
    rw [List.concat_eq_append, List.getLast?_concat]
    exact Chain.next_eq h

variable [DecidableEq α]

theorem Links.get_set_self (k : Links α) (slot p : Option α) : (k.set slot p).get slot = p := by
  cases slot with
  | none => rfl
  | some a => exact Function.update_self ..

theorem Links.get_set_ne {slot' : Option α} (h : slot' ≠ slot) (k : Links α) (p : Option α) :
    (k.set slot p).get slot' = k.get slot' := by
  cases slot with
  | none =>
    cases slot' with
    | none => exact absurd rfl h
    | some a => rfl
  | some a =>
    cases slot' with
    | none => rfl
    | some b =>
      have hne : b ≠ a := fun hba => h (congrArg some hba)
      exact Function.update_of_ne hne ..

theorem Links.next_set_ne (h : slot ≠ some b) (k : Links α) (p : Option α) :
    (k.set slot p).next b = k.next b :=
  k.get_set_ne (Ne.symm h) p

/-- A slot that is written lies outside of the cells behind it. -/
theorem Links.From.set (h : k.From slot l) (hp : Chain k.next p l') (hsub : ∀ c ∈ l', c ∈ l) :
    Chain (k.set slot p).next ((k.set slot p).get slot) l' := by
  rw [Links.get_set_self]
  exact hp.congr fun c hc => k.next_set_ne (h.2 c (hsub c hc)) p

/-- The walk finds the slot in front of `a`, and writing it takes `a` out. -/
theorem Links.From.slotOf_eq (h : k.From slot l) (ha : a ∈ l) {fuel : ℕ}
    (hfuel : l.length ≤ fuel) :
    ∃ slot', k.slotOf a fuel slot = .ok slot' ∧ (slot' = slot ∨ ∃ c ∈ l, slot' = some c) ∧
      Chain (k.set slot' (k.next a)).next ((k.set slot' (k.next a)).get slot) (l.erase a) := by
  induction l generalizing slot fuel with
  | nil => cases ha
  | cons b l ih =>
    obtain ⟨hget, htail⟩ := h.tail
    cases fuel with
    | zero => exact absurd hfuel (Nat.not_succ_le_zero _)
    | succ fuel =>
      by_cases hba : b = a
      · subst hba
        refine ⟨slot, ?_, .inl rfl, ?_⟩
        · rw [Links.slotOf, hget]
          exact if_pos rfl
        · rw [List.erase_cons_head]
          exact h.set htail.1 fun c hc => List.mem_cons_of_mem _ hc
      · have ha' : a ∈ l := (List.mem_cons.mp ha).resolve_left (Ne.symm hba)
        obtain ⟨slot', hfind, hslot', hchain⟩ := ih htail ha' (Nat.le_of_succ_le_succ hfuel)
        have hmem : ∃ c ∈ b :: l, slot' = some c := by
          rcases hslot' with rfl | ⟨c, hc, rfl⟩
          · exact ⟨b, by simp, rfl⟩
          · exact ⟨c, by simp [hc], rfl⟩
        have hne : slot ≠ slot' := by
          obtain ⟨c, hc, rfl⟩ := hmem
          exact h.2 c hc
        refine ⟨slot', ?_, .inr hmem, ?_⟩
        · rw [Links.slotOf, hget]
          exact (if_neg hba).trans hfind
        · rw [List.erase_cons_tail (by simpa using hba), k.get_set_ne hne, hget]
          exact .cons hchain

theorem Links.Is.slotOf_eq (h : k.Is l) (ha : a ∈ l) {fuel : ℕ} (hfuel : l.length ≤ fuel) :
    ∃ slot, k.slotOf a fuel none = .ok slot ∧ (k.set slot (k.next a)).Is (l.erase a) := by
  obtain ⟨slot, hfind, -, hchain⟩ := h.from_none.slotOf_eq ha hfuel
  exact ⟨slot, hfind, hchain⟩

theorem Links.Is.unlink (h : k.Is l) (ha : a ∈ l) {fuel : ℕ} (hfuel : l.length ≤ fuel) :
    ∃ slot l', k.slotOf a fuel none = .ok slot ∧ (k.set slot (k.next a)).Is l' ∧
      ∀ b, b ∈ l' ↔ b ≠ a ∧ b ∈ l := by
  obtain ⟨slot, hfind, his⟩ := h.slotOf_eq ha hfuel
  exact ⟨slot, l.erase a, hfind, his, fun _ => (Chain.nodup h).mem_erase_iff⟩

/-- A new cell in front. -/
theorem Links.Is.push (h : k.Is l) (ha : a ∉ l) :
    ((k.set (some a) k.head).set none (some a)).Is (a :: l) := by
  refine .cons ?_
  change Chain (Function.update k.next a k.head) (Function.update k.next a k.head a) l
  rw [Function.update_self]
  exact h.congr fun b hb => Function.update_of_ne (by rintro rfl; exact ha hb) ..

theorem Links.get_of_slotOf {fuel : ℕ} {slot slot' : Option α}
    (h : k.slotOf a fuel slot = .ok slot') : k.get slot' = some a := by
  induction fuel generalizing slot with
  | zero => cases h
  | succ fuel ih =>
    rw [Links.slotOf] at h
    cases hget : k.get slot with
    | none => simp only [hget, reduceCtorEq] at h
    | some b =>
      simp only [hget] at h
      split_ifs at h with hb
      · rw [← Except.ok.inj h, hget, hb]
      · exact ih h

/-- A cell is taken out from between the others. -/
theorem Links.Is.remove (h : k.Is (l₁ ++ a :: l₂)) {fuel : ℕ}
    (hfuel : (l₁ ++ a :: l₂).length ≤ fuel) :
    ∃ slot, k.slotOf a fuel none = .ok slot ∧ (k.set slot (k.next a)).Is (l₁ ++ l₂) ∧
      (k.set slot (k.next a)).next a = l₂.head? := by
  have hnodup := Chain.nodup h
  obtain ⟨slot, hfind, his⟩ :=
    h.slotOf_eq (List.mem_append_right _ (List.mem_cons_self ..)) hfuel
  have hout : a ∉ l₁ := fun ha =>
    (List.nodup_append.mp hnodup).2.2 a ha a (List.mem_cons_self ..) rfl
  have hne : slot ≠ some a := by
    rintro rfl
    have hself : k.next a = some a := k.get_of_slotOf hfind
    rw [Chain.next_eq h] at hself
    exact (List.nodup_cons.mp (List.nodup_append.mp hnodup).2.1).1 (List.mem_of_head? hself)
  refine ⟨slot, hfind, ?_, ?_⟩
  · rwa [List.erase_append_right _ hout, List.erase_cons_head] at his
  · rw [k.next_set_ne hne, Chain.next_eq h]

theorem Links.From.insert (h : k.From slot (l₁ ++ l₂)) (ha : a ∉ l₁ ++ l₂)
    (hslot : slot ≠ some a) {slot' : Option α} (hlast : slot' = l₁.getLast?.or slot) :
    Chain ((k.set (some a) (k.get slot')).set slot' (some a)).next
      (((k.set (some a) (k.get slot')).set slot' (some a)).get slot) (l₁ ++ a :: l₂) := by
  induction l₁ generalizing slot with
  | nil =>
    obtain rfl : slot' = slot := hlast
    rw [Links.get_set_self]
    refine .cons ?_
    rw [Links.next_set_ne hslot]
    change Chain _ ((k.set (some a) (k.get slot')).get (some a)) l₂
    rw [Links.get_set_self]
    refine h.1.congr fun c hc => ?_
    have hca : some a ≠ some c := by
      rintro ⟨⟩
      exact ha hc
    rw [Links.next_set_ne (h.2 c hc), Links.next_set_ne hca]
  | cons b l₁ ih =>
    obtain ⟨hget, htail⟩ := h.tail
    simp only [List.cons_append, List.mem_cons, not_or] at ha
    have hlast' : slot' = l₁.getLast?.or (some b) := by
      rw [hlast, List.getLast?_cons]
      cases l₁.getLast? <;> rfl
    have hchain := ih htail ha.2 (fun hb => ha.1 (Option.some.inj hb).symm) hlast'
    have hne : slot ≠ slot' := by
      obtain ⟨c, hc, rfl⟩ : ∃ c ∈ b :: l₁, slot' = some c := by
        cases hl : l₁.getLast? with
        | none => exact ⟨b, by simp, by rw [hlast', hl]; rfl⟩
        | some c =>
          exact ⟨c, List.mem_cons_of_mem _ (List.mem_of_getLast? hl), by rw [hlast', hl]; rfl⟩
      exact h.2 c (List.mem_append_left _ hc)
    rw [Links.get_set_ne hne, Links.get_set_ne hslot, hget]
    exact .cons hchain

/-- A new cell between those of `l₁` and `l₂`. -/
theorem Links.Is.insert (h : k.Is (l₁ ++ l₂)) (ha : a ∉ l₁ ++ l₂) :
    ((k.set (some a) (k.get l₁.getLast?)).set l₁.getLast? (some a)).Is (l₁ ++ a :: l₂) :=
  h.from_none.insert ha nofun (Option.or_none ..).symm

end Unitas.LinkedList
