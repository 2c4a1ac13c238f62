import Mathlib.Logic.Basic

/-! Programs with a state that may stop for several reasons: that they never stop for one of
them. -/
namespace Unitas.Stopping

variable {σ ε α β : Type} {bad : ε}

/-- A sequence that goes well, by its parts. -/
theorem exists_of_bind_ok {x : Except ε α} {f : α → Except ε β} {r : β} (h : x >>= f = .ok r) :
    ∃ v, x = .ok v ∧ f v = .ok r := by
  cases x with
  | error e => exact nomatch h
  | ok v => exact ⟨v, rfl, h⟩

theorem exists_of_map_ok {x : Except ε α} {f : α → β} {r : β} (h : x.map f = .ok r) :
    ∃ v, x = .ok v ∧ f v = r := by
  cases x with
  | error e => exact nomatch h
  | ok v => exact ⟨v, rfl, Except.ok.inj h⟩

theorem or_of_bind_error {x : Except ε α} {f : α → Except ε β} {e : ε} (h : x >>= f = .error e) :
    x = .error e ∨ ∃ v, x = .ok v ∧ f v = .error e := by
  cases x with
  | error e' => exact .inl (congrArg Except.error (Except.error.inj h))
  | ok v => exact .inr ⟨v, rfl, h⟩

/-- No run stops for the reason `bad`, and the result of a run that ends has `Q`. -/
def Avoids (bad : ε) (m : StateT σ (Except ε) α) (Q : α → Prop) : Prop :=
  ∀ s, match m s with
    | .ok r => Q r.1
    | .error e => e ≠ bad

variable {m : StateT σ (Except ε) α} {Q Q' : α → Prop} {R : β → Prop}

theorem bind_ok {s t : σ} {a : α} (h : m s = .ok (a, t)) (f : α → StateT σ (Except ε) β) :
    (m >>= f) s = f a t := by
  change (m s).bind _ = _
  rw [h]
  rfl

theorem bind_error {s : σ} {e : ε} (h : m s = .error e) (f : α → StateT σ (Except ε) β) :
    (m >>= f) s = .error e := by
  change (m s).bind _ = _
  rw [h]
  rfl

theorem Avoids.bind {f : α → StateT σ (Except ε) β} (hm : Avoids bad m Q)
    (hf : ∀ a, Q a → Avoids bad (f a) R) : Avoids bad (m >>= f) R := by
  intro s
  have hs := hm s
  cases h : m s with
  | error e =>
    rw [h] at hs
    rw [bind_error h]
    exact hs
  | ok r =>
    rw [h] at hs
    rw [bind_ok h]
    exact hf r.1 hs r.2

theorem Avoids.pure {a : α} (h : Q a) : Avoids bad (pure a : StateT σ (Except ε) α) Q :=
  fun _ => h

theorem Avoids.mono (hm : Avoids bad m Q) (h : ∀ a, Q a → Q' a) : Avoids bad m Q' := by
  intro s
  have hs := hm s
  cases hr : m s with
  | error e =>
    rw [hr] at hs
    exact hs
  | ok r =>
    rw [hr] at hs
    exact h r.1 hs

theorem Avoids.trivial (hm : Avoids bad m Q) : Avoids bad m fun _ => True :=
  hm.mono fun _ _ => True.intro

theorem Avoids.throw {e : ε} (h : e ≠ bad) :
    Avoids bad (throw e : StateT σ (Except ε) α) Q := fun _ => h

theorem avoids_get : Avoids bad (get : StateT σ (Except ε) σ) fun _ => True := fun _ => True.intro

theorem avoids_modify (f : σ → σ) :
    Avoids bad (modify f : StateT σ (Except ε) PUnit) fun _ => True := fun _ => True.intro

theorem Avoids.ite {c : Prop} [Decidable c] {m' : StateT σ (Except ε) α}
    (hm : c → Avoids bad m Q) (hm' : ¬ c → Avoids bad m' Q) :
    Avoids bad (if c then m else m') Q := by
  by_cases h : c
  · rw [if_pos h]
    exact hm h
  · rw [if_neg h]
    exact hm' h

theorem Avoids.ne (hm : Avoids bad m Q) (s : σ) : m s ≠ .error bad := by
  intro h
  have hs := hm s
  rw [h] at hs
  exact hs rfl

end Unitas.Stopping
