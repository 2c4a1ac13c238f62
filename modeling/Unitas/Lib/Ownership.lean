import Mathlib.Logic.Basic

/-! Exclusion by a file: whoever is in the part of its program that needs the file has
created the file in place. -/
namespace Unitas.Ownership

variable {ι π : Type*} {lock lock' : Option ι} {owner owner' : ι → π} {owning owning' : π → Prop}

def Owned (lock : Option ι) (owner : ι → π) (owning : π → Prop) : Prop :=
  ∀ p, owning p → ∃ i, lock = some i ∧ owner i = p

theorem Owned.unique (h : Owned lock owner owning) {p q : π} (hp : owning p) (hq : owning q) :
    p = q := by
  obtain ⟨i, hi, rfl⟩ := h p hp
  obtain ⟨j, hj, rfl⟩ := h q hq
  rw [hi] at hj
  rw [Option.some.inj hj]

/-- A step that keeps the file and its creator, and takes no one into the owning part. -/
theorem Owned.frame (h : Owned lock owner owning) (howner : ∀ i, lock = some i → owner' i = owner i)
    (howning : ∀ p, owning' p → owning p) : Owned lock owner' owning' := by
  intro p hp
  obtain ⟨i, hi, hpi⟩ := h p (howning p hp)
  exact ⟨i, hi, (howner i hi).trans hpi⟩

/-- While no file is in place, no one is in the owning part. -/
theorem Owned.not_owning (h : Owned none owner owning) (p : π) : ¬ owning p := by
  intro hp
  obtain ⟨i, hi, -⟩ := h p hp
  simp at hi

theorem Owned.take {i : ι} (howning : ∀ p, owning p → p = owner i) :
    Owned (some i) owner owning :=
  fun p hp => ⟨i, rfl, (howning p hp).symm⟩

theorem Owned.release (howning : ∀ p, ¬ owning p) : Owned lock owner owning :=
  fun p hp => absurd hp (howning p)

end Unitas.Ownership
