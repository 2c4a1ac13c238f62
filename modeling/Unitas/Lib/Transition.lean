import Mathlib.Logic.Basic

/-! Labelled transition systems given by a partial step function: finite runs, the states
reached by steps that meet a side condition, and the invariant rule. -/
namespace Unitas.Transition

variable {σ α : Type*}

/-- The state after a list of labels, if every one of them can be taken. -/
def run (step : σ → α → Option σ) : List α → σ → Option σ
  | [], s => some s
  | a :: as, s => (step s a).bind (run step as)

/-- States reached from `s₀` when every step meets `ok` in the state it is taken in. -/
inductive Reach (step : σ → α → Option σ) (ok : σ → α → Prop) (s₀ : σ) : σ → Prop
  | start : Reach step ok s₀ s₀
  | next {s s' : σ} {a : α} : Reach step ok s₀ s → ok s a → step s a = some s' →
      Reach step ok s₀ s'

variable {step : σ → α → Option σ} {ok : σ → α → Prop} {s₀ s s' : σ}

theorem Reach.invariant {Inv : σ → Prop} (h : Reach step ok s₀ s) (h0 : Inv s₀)
    (hstep : ∀ s a s', Inv s → ok s a → step s a = some s' → Inv s') : Inv s := by
  induction h with
  | start => exact h0
  | next _ hok hs ih => exact hstep _ _ _ ih hok hs

theorem Reach.mono {ok' : σ → α → Prop} (h : Reach step ok s₀ s) (hle : ∀ s a, ok s a → ok' s a) :
    Reach step ok' s₀ s := by
  induction h with
  | start => exact .start
  | next _ hok hs ih => exact .next ih (hle _ _ hok) hs

theorem Reach.trans {t : σ} (h : Reach step ok s₀ s) (h' : Reach step ok s t) :
    Reach step ok s₀ t := by
  induction h' with
  | start => exact h
  | next _ hok hs ih => exact .next ih hok hs

/-- Whether every step of a run meets `ok`. -/
def RunOk (step : σ → α → Option σ) (ok : σ → α → Prop) : List α → σ → Prop
  | [], _ => True
  | a :: as, s => ok s a ∧ ∀ s', step s a = some s' → RunOk step ok as s'

theorem reach_of_run {as : List α} (h : run step as s₀ = some s) (hok : RunOk step ok as s₀) :
    Reach step ok s₀ s := by
  induction as generalizing s₀ with
  | nil =>
    rw [← Option.some.inj h]
    exact .start
  | cons a as ih =>
    obtain ⟨s₁, h1, hr⟩ := Option.bind_eq_some_iff.mp h
    exact (Reach.next .start hok.1 h1).trans (ih hr (hok.2 s₁ h1))

theorem runOk_of_forall (hok : ∀ s a, ok s a) (as : List α) : RunOk step ok as s₀ := by
  induction as generalizing s₀ with
  | nil => trivial
  | cons a as ih => exact ⟨hok _ _, fun _ _ => ih⟩

theorem exists_of_run_any (step : σ → α → Option σ) (as : List α) (s₀ : σ) (p : σ → Bool)
    (h : (run step as s₀).any p = true) :
    ∃ s, run step as s₀ = some s ∧ p s = true :=
  (Option.any_eq_true _ _).mp h

instance decidableRunOk (step : σ → α → Option σ) (ok : σ → α → Prop)
    [∀ s a, Decidable (ok s a)] : (as : List α) → (s : σ) → Decidable (RunOk step ok as s)
  | [], _ => .isTrue trivial
  | a :: as, s =>
    match h : step s a with
    | none => decidable_of_iff (ok s a) (by simp [RunOk, h])
    | some s' =>
      have := decidableRunOk step ok as s'
      decidable_of_iff (ok s a ∧ RunOk step ok as s') (by simp [RunOk, h])

end Unitas.Transition
