import Mathlib.Order.Filter.AtTopBot.Basic
import Unitas.Lib.Transition

/-! Infinite runs of a transition system, and the rule for what a fair one comes to: a rank
that never falls and is bounded stands still from some time on. -/
namespace Unitas.Transition
open Filter

variable {σ α : Type*}

structure Exec (step : σ → α → Option σ) (s₀ : σ) where
  state : ℕ → σ
  label : ℕ → α
  init : state 0 = s₀
  next : ∀ n, step (state n) (label n) = some (state (n + 1))

variable {step : σ → α → Option σ} {s₀ : σ}

theorem Exec.invariant (r : Exec step s₀) {Inv : σ → Prop} (h0 : Inv s₀)
    (hstep : ∀ s a s', Inv s → step s a = some s' → Inv s') (n : ℕ) : Inv (r.state n) := by
  induction n with
  | zero => rwa [r.init]
  | succ n ih => exact hstep _ _ _ ih (r.next n)

/-- What the steps never lower grows along a run. -/
theorem Exec.monotone (r : Exec step s₀) {Inv : σ → Prop} (hinv : ∀ n, Inv (r.state n))
    {rank : σ → ℕ} (hstep : ∀ s a s', Inv s → step s a = some s' → rank s ≤ rank s') :
    Monotone fun n => rank (r.state n) :=
  monotone_nat_of_le_succ fun n => hstep _ _ _ (hinv n) (r.next n)

theorem eventually_constant {rank : ℕ → ℕ} (bound : ℕ) (hmono : Monotone rank)
    (hbound : ∀ n, rank n ≤ bound) : ∃ N, ∀ n, N ≤ n → rank n = rank N := by
  by_contra! h
  have hgrow : ∀ k, ∃ n, k ≤ rank n := by
    intro k
    induction k with
    | zero => exact ⟨0, Nat.zero_le _⟩
    | succ k ih =>
      obtain ⟨n, hn⟩ := ih
      obtain ⟨m, hm, hne⟩ := h n
      have hle : rank n ≤ rank m := hmono hm
      exact ⟨m, by omega⟩
  obtain ⟨n, hn⟩ := hgrow (bound + 1)
  have hle := hbound n
  omega

/-- What never falls, and rises only below a bound, does not rise again and again. -/
theorem not_frequently_of_rises {f : ℕ → ℕ} {rises : ℕ → Prop} {N bound : ℕ}
    (hmono : ∀ n, N ≤ n → f n ≤ f (n + 1))
    (hrise : ∀ n, N ≤ n → rises n → f n < f (n + 1) ∧ f n < bound) : ¬ ∃ᶠ n in atTop, rises n := by
  intro h
  have hgrow : ∀ k, ∃ n, N ≤ n ∧ k ≤ f n := by
    intro k
    induction k with
    | zero => exact ⟨N, le_rfl, Nat.zero_le _⟩
    | succ k ih =>
      obtain ⟨n, hn, hk⟩ := ih
      obtain ⟨m, hm, hrises⟩ := frequently_atTop.mp h n
      have hle : f n ≤ f m := Nat.le_induction le_rfl
        (fun m hm ih => ih.trans (hmono m (hn.trans hm))) m hm
      have hlt := (hrise m (hn.trans hm) hrises).1
      exact ⟨m + 1, (hn.trans hm).trans (Nat.le_succ m), by omega⟩
  obtain ⟨n, hn, hbound⟩ := hgrow bound
  obtain ⟨m, hm, hrises⟩ := frequently_atTop.mp h n
  have hle : f n ≤ f m := Nat.le_induction le_rfl
    (fun m hm ih => ih.trans (hmono m (hn.trans hm))) m hm
  have hlt := (hrise m (hn.trans hm) hrises).2
  omega

/-- Some step of a run is the first after which `p` holds. -/
theorem Exec.exists_step (r : Exec step s₀) {p : σ → Prop} (h0 : ¬ p s₀) {n : ℕ}
    (hn : p (r.state n)) : ∃ m, ¬ p (r.state m) ∧ p (r.state (m + 1)) := by
  by_contra! h
  have hnot : ∀ n, ¬ p (r.state n) := by
    intro n
    induction n with
    | zero => rwa [r.init]
    | succ n ih => exact h n ih
  exact hnot n hn

/-- The run of a schedule that always names a step that can be taken. -/
def Exec.ofSchedule (pick : ℕ → σ → α) (h : ∀ n s, (step s (pick n s)).isSome)
    (s₀ : σ) : Exec step s₀ where
  state n := Nat.rec s₀ (fun n s => (step s (pick n s)).get (h n s)) n
  label n := pick n (Nat.rec s₀ (fun n s => (step s (pick n s)).get (h n s)) n)
  init := rfl
  next _ := (Option.some_get _).symm

/-- What holds in one residue class from some time on holds again and again. -/
theorem frequently_mod {p : ℕ → Prop} {k i N : ℕ} (hi : i < k)
    (h : ∀ n, N ≤ n → n % k = i → p n) : ∃ᶠ n in atTop, p n := by
  rw [frequently_atTop]
  intro m
  have hk : 1 ≤ k := by omega
  have hge : max m N ≤ k * max m N := Nat.le_mul_of_pos_left _ hk
  refine ⟨k * max m N + i, by omega, h _ (by omega) ?_⟩
  rw [Nat.mul_add_mod, Nat.mod_eq_of_lt hi]

end Unitas.Transition
