import Mathlib.Logic.Basic

/-! Programs with state and exceptions that behave alike from related states. One of them may
know less: where it ends in the exception `bad`, nothing is said of the other. -/
namespace Unitas.Simulation

variable {ε σ α β : Type}

/-- The two outcomes agree, and the states are related. -/
inductive Agree (R : σ → σ → Prop) (bad : ε) :
    EStateM.Result ε σ α → EStateM.Result ε σ α → Prop
  | ok {a s s'} (h : R s s') : Agree R bad (.ok a s) (.ok a s')
  | error {e s s'} (h : R s s') : Agree R bad (.error e s) (.error e s')
  | unknown {s r} : Agree R bad (.error bad s) r

/-- The two programs agree from two given states. -/
def SimAt (R : σ → σ → Prop) (bad : ε) (m m' : EStateM ε σ α) (s s' : σ) : Prop :=
  Agree R bad (m s) (m' s')

/-- The two programs agree from all related states. -/
def Sim (R : σ → σ → Prop) (bad : ε) (m m' : EStateM ε σ α) : Prop :=
  ∀ s s', R s s' → SimAt R bad m m' s s'

variable {R : σ → σ → Prop} {bad : ε} {s s' : σ}

theorem simAt_pure {a : α} (h : R s s') : SimAt R bad (pure a) (pure a) s s' := .ok h

theorem simAt_throw {e : ε} (h : R s s') :
    SimAt R bad (throw e : EStateM ε σ α) (throw e) s s' := .error h

theorem simAt_set {t t' : σ} (h : R t t') : SimAt R bad (set t) (set t') s s' := .ok h

theorem simAt_throw_bind {e : ε} {k k' : α → EStateM ε σ β} (h : R s s') :
    SimAt R bad (throw e >>= k) (throw e >>= k') s s' := .error h

theorem simAt_modify_bind {f f' : σ → σ} {k k' : PUnit → EStateM ε σ β}
    (h : SimAt R bad (k ⟨⟩) (k' ⟨⟩) (f s) (f' s')) :
    SimAt R bad (modify f >>= k) (modify f' >>= k') s s' := h

theorem simAt_set_bind {t t' : σ} {k k' : PUnit → EStateM ε σ β}
    (h : SimAt R bad (k ⟨⟩) (k' ⟨⟩) t t') :
    SimAt R bad (set t >>= k) (set t' >>= k') s s' := h

/-- What is read from the state may differ. -/
theorem simAt_get_bind {k k' : σ → EStateM ε σ β} (h : SimAt R bad (k s) (k' s') s s') :
    SimAt R bad (get >>= k) (get >>= k') s s' := h

theorem simAt_mono {R' : σ → σ → Prop} {m m' : EStateM ε σ α} (hR : ∀ t t', R t t' → R' t t')
    (h : SimAt R bad m m' s s') : SimAt R' bad m m' s s' := by
  unfold SimAt at h ⊢
  generalize m s = r, m' s' = r' at h ⊢
  cases h with
  | ok h => exact .ok (hR _ _ h)
  | error h => exact .error (hR _ _ h)
  | unknown => exact .unknown

theorem simAt_bind {m m' : EStateM ε σ α} {k k' : α → EStateM ε σ β}
    (h : SimAt R bad m m' s s') (hk : ∀ a, Sim R bad (k a) (k' a)) :
    SimAt R bad (m >>= k) (m' >>= k') s s' := by
  unfold SimAt at h ⊢
  change Agree R bad (EStateM.bind m k s) (EStateM.bind m' k' s')
  unfold EStateM.bind
  cases hm : m s with
  | ok a t =>
    rw [hm] at h
    cases hm' : m' s' with
    | ok a' t' =>
      rw [hm'] at h
      cases h with
      | ok hR => exact hk a _ _ hR
    | error e' t' =>
      rw [hm'] at h
      cases h
  | error e t =>
    rw [hm] at h
    cases hm' : m' s' with
    | ok a' t' =>
      rw [hm'] at h
      cases h
      exact .unknown
    | error e' t' =>
      rw [hm'] at h
      cases h with
      | error hR => exact .error hR
      | unknown => exact .unknown

theorem simAt_ite {c c' : Prop} [Decidable c] [Decidable c'] {m m' k k' : EStateM ε σ α}
    (hc : c' ↔ c) (h : c → SimAt R bad m m' s s') (h' : ¬ c → SimAt R bad k k' s s') :
    SimAt R bad (if c then m else k) (if c' then m' else k') s s' := by
  by_cases hcase : c
  · rw [if_pos hcase, if_pos (hc.mpr hcase)]
    exact h hcase
  · rw [if_neg hcase, if_neg (fun h => hcase (hc.mp h))]
    exact h' hcase

/-- How a program ends from a given state, with a value or an exception. -/
def Ends (Q : α → σ → Prop) (E : ε → σ → Prop) (m : EStateM ε σ α) (s : σ) : Prop :=
  match m s with
  | .ok a t => Q a t
  | .error e t => E e t

variable {Q : α → σ → Prop} {Q' : β → σ → Prop} {E : ε → σ → Prop}

theorem ends_pure {a : α} (h : Q a s) : Ends Q E (pure a) s := h

theorem ends_throw {e : ε} (h : E e s) : Ends Q E (throw e : EStateM ε σ α) s := h

theorem ends_throw_bind {e : ε} {k : α → EStateM ε σ β} (h : E e s) :
    Ends Q' E (throw e >>= k) s := h

theorem ends_modify_bind {f : σ → σ} {k : PUnit → EStateM ε σ β} (h : Ends Q' E (k ⟨⟩) (f s)) :
    Ends Q' E (modify f >>= k) s := h

theorem ends_set_bind {t : σ} {k : PUnit → EStateM ε σ β} (h : Ends Q' E (k ⟨⟩) t) :
    Ends Q' E (set t >>= k) s := h

theorem ends_get_bind {k : σ → EStateM ε σ β} (h : Ends Q' E (k s) s) :
    Ends Q' E (get >>= k) s := h

theorem ends_bind {m : EStateM ε σ α} {k : α → EStateM ε σ β} (h : Ends Q E m s)
    (hk : ∀ a t, Q a t → Ends Q' E (k a) t) : Ends Q' E (m >>= k) s := by
  change match EStateM.bind m k s with
    | .ok a t => Q' a t
    | .error e t => E e t
  unfold Ends at h
  unfold EStateM.bind
  cases hm : m s with
  | ok a t =>
    rw [hm] at h
    exact hk a t h
  | error e t =>
    rw [hm] at h
    exact h

end Unitas.Simulation
