import Mathlib.Logic.Basic

/-! Programs with a state that may stop: what holds after every run that does not. -/
namespace Unitas.Hoare

variable {σ α β : Type}

/-- A run from a state with `P` that ends, ends with `Q`. -/
def Triple (P : σ → Prop) (m : StateT σ Option α) (Q : α → σ → Prop) : Prop :=
  ∀ s a s', P s → m s = some (a, s') → Q a s'

/-- What holds before every run holds after it. -/
def Keeps (I : σ → Prop) (m : StateT σ Option α) : Prop := Triple I m fun _ => I

variable {P P' : σ → Prop} {Q Q' : α → σ → Prop} {R : β → σ → Prop} {m m' : StateT σ Option α}

theorem bind_some {k : α → StateT σ Option β} {s s' : σ} {b : β} :
    (m >>= k) s = some (b, s') ↔ ∃ a t, m s = some (a, t) ∧ k a t = some (b, s') := by
  change ((m s).bind fun p => k p.1 p.2) = some (b, s') ↔ _
  rw [Option.bind_eq_some_iff]
  constructor
  · rintro ⟨⟨a, t⟩, h, hk⟩
    exact ⟨a, t, h, hk⟩
  · rintro ⟨a, t, h, hk⟩
    exact ⟨(a, t), h, hk⟩

/-- The rest of a program after a first part that ends. -/
theorem bind_of_some {s t : σ} {a : α} (h : m s = some (a, t)) (k : α → StateT σ Option β) :
    (m >>= k) s = k a t := by
  change (m s).bind _ = _
  rw [h]
  rfl

theorem bind_of_none {s : σ} (h : m s = none) (k : α → StateT σ Option β) : (m >>= k) s = none := by
  change (m s).bind _ = _
  rw [h]
  rfl

theorem pure_some {a b : α} {s s' : σ} :
    (pure a : StateT σ Option α) s = some (b, s') ↔ b = a ∧ s' = s := by
  change some (a, s) = some (b, s') ↔ _
  rw [Option.some.injEq, Prod.mk.injEq, eq_comm, eq_comm (a := s)]

theorem modify_some {f : σ → σ} {s s' : σ} :
    (modify f : StateT σ Option PUnit) s = some (⟨⟩, s') ↔ s' = f s := by
  change some (PUnit.unit, f s) = some (⟨⟩, s') ↔ _
  rw [Option.some.injEq, Prod.mk.injEq, eq_comm (a := f s)]
  exact and_iff_right rfl

theorem set_some {t s s' : σ} :
    (set t : StateT σ Option PUnit) s = some (⟨⟩, s') ↔ s' = t := by
  change some (PUnit.unit, t) = some (⟨⟩, s') ↔ _
  rw [Option.some.injEq, Prod.mk.injEq, eq_comm (a := t)]
  exact and_iff_right rfl

theorem get_some {s s' t : σ} :
    (get : StateT σ Option σ) s = some (t, s') ↔ t = s ∧ s' = s := pure_some

theorem lift_none_some {a : α} {s s' : σ} :
    (StateT.lift none : StateT σ Option α) s = some (a, s') ↔ False := by
  change none = some (a, s') ↔ False
  simp

theorem triple_mono (h : Triple P m Q) (hP : ∀ s, P' s → P s) (hQ : ∀ a s, Q a s → Q' a s) :
    Triple P' m Q' := fun s a s' hs hm => hQ a s' (h s a s' (hP s hs) hm)

theorem triple_pure {a : α} (h : ∀ s, P s → Q a s) : Triple P (pure a) Q := by
  rintro s b s' hs hm
  obtain ⟨rfl, rfl⟩ := Prod.mk.inj (Option.some.inj hm)
  exact h s hs

theorem triple_fatal : Triple P (StateT.lift none : StateT σ Option α) Q :=
  fun _ _ _ _ hm => nomatch hm

theorem triple_bind {k : α → StateT σ Option β} (h : Triple P m Q)
    (hk : ∀ a, Triple (Q a) (k a) R) : Triple P (m >>= k) R := by
  intro s b s' hs hm
  obtain ⟨a, t, hma, hka⟩ := bind_some.mp hm
  exact hk a t b s' (h s a t hs hma) hka

theorem triple_modify {f : σ → σ} {Q : PUnit → σ → Prop} (h : ∀ s, P s → Q ⟨⟩ (f s)) :
    Triple P (modify f) Q := by
  rintro s a s' hs hm
  obtain ⟨rfl, rfl⟩ := Prod.mk.inj (Option.some.inj hm)
  exact h s hs

/-- What has been read is the state. -/
theorem triple_get_bind {k : σ → StateT σ Option β}
    (hk : ∀ s₀, Triple (fun s => s = s₀ ∧ P s) (k s₀) R) : Triple P (get >>= k) R := by
  intro s b s' hs hm
  obtain ⟨a, t, hma, hka⟩ := bind_some.mp hm
  obtain ⟨rfl, rfl⟩ := Prod.mk.inj (Option.some.inj hma)
  exact hk _ _ _ _ ⟨rfl, hs⟩ hka

theorem triple_ite {c : Prop} [Decidable c] (h : c → Triple P m Q) (h' : ¬ c → Triple P m' Q) :
    Triple P (if c then m else m') Q := by
  by_cases hc : c
  · rw [if_pos hc]
    exact h hc
  · rw [if_neg hc]
    exact h' hc

variable {I : σ → Prop}

theorem keeps_pure (a : α) : Keeps I (pure a) := triple_pure fun _ h => h

theorem keeps_fatal : Keeps I (StateT.lift none : StateT σ Option α) := triple_fatal

theorem keeps_bind {k : α → StateT σ Option β} (h : Keeps I m) (hk : ∀ a, Keeps I (k a)) :
    Keeps I (m >>= k) := triple_bind h hk

theorem keeps_modify {f : σ → σ} (h : ∀ s, I s → I (f s)) : Keeps I (modify f) := triple_modify h

/-- The state is looked at. -/
theorem keeps_get_bind {k : σ → StateT σ Option β} (hk : ∀ s, Keeps I (k s)) :
    Keeps I (get >>= k) :=
  triple_get_bind fun s₀ => triple_mono (hk s₀) (fun _ h => h.2) fun _ _ h => h

theorem keeps_ite {c : Prop} [Decidable c] (h : Keeps I m) (h' : Keeps I m') :
    Keeps I (if c then m else m') := triple_ite (fun _ => h) fun _ => h'

/-- A run from a state with `P` ends with `Q`, or it stops, which is only said to be possible where
`may` holds. -/
def Run (may : Prop) (P : σ → Prop) (m : StateT σ Option α) (Q : α → σ → Prop) : Prop :=
  ∀ s, P s → may ∧ m s = none ∨ ∃ a s', m s = some (a, s') ∧ Q a s'

variable {may : Prop}

theorem run_mono (h : Run may P m Q) (hP : ∀ s, P' s → P s) (hQ : ∀ a s, Q a s → Q' a s) :
    Run may P' m Q' := by
  intro s hs
  rcases h s (hP s hs) with hnone | ⟨a, s', hm, hQa⟩
  · exact Or.inl hnone
  · exact Or.inr ⟨a, s', hm, hQ a s' hQa⟩

theorem run_pure {a : α} (h : ∀ s, P s → Q a s) : Run may P (pure a) Q :=
  fun s hs => Or.inr ⟨a, s, rfl, h s hs⟩

theorem run_fatal (h : may) : Run may P (StateT.lift none : StateT σ Option α) Q :=
  fun _ _ => Or.inl ⟨h, rfl⟩

theorem run_bind {k : α → StateT σ Option β} (h : Run may P m Q)
    (hk : ∀ a, Run may (Q a) (k a) R) : Run may P (m >>= k) R := by
  intro s hs
  rcases h s hs with ⟨hmay, hm⟩ | ⟨a, t, hm, hQ⟩
  · refine Or.inl ⟨hmay, ?_⟩
    change (m s).bind _ = none
    rw [hm]
    rfl
  · rcases hk a t hQ with ⟨hmay, hka⟩ | ⟨b, s', hka, hR⟩
    · refine Or.inl ⟨hmay, ?_⟩
      change (m s).bind _ = none
      rw [hm]
      exact hka
    · exact Or.inr ⟨b, s', bind_some.mpr ⟨a, t, hm, hka⟩, hR⟩

theorem run_modify {f : σ → σ} {Q : PUnit → σ → Prop} (h : ∀ s, P s → Q ⟨⟩ (f s)) :
    Run may P (modify f) Q := fun s hs => Or.inr ⟨⟨⟩, f s, rfl, h s hs⟩

theorem run_get_bind {k : σ → StateT σ Option β}
    (hk : ∀ s₀, P s₀ → Run may (fun s => s = s₀) (k s₀) R) : Run may P (get >>= k) R :=
  fun s hs => hk s hs s rfl

theorem run_ite {c : Prop} [Decidable c] (h : c → Run may P m Q) (h' : ¬ c → Run may P m' Q) :
    Run may P (if c then m else m') Q := by
  by_cases hc : c
  · rw [if_pos hc]
    exact h hc
  · rw [if_neg hc]
    exact h' hc

/-- A fact that has nothing to do with the state. -/
theorem run_and {φ : Prop} (h : φ → Run may P m Q) : Run may (fun s => φ ∧ P s) m Q :=
  fun s hs => h hs.1 s hs.2

/-- What a run that has ended ended with. -/
theorem Run.of_some {a : α} {s s' : σ} (h : Run may P m Q) (hs : P s) (hm : m s = some (a, s')) :
    Q a s' := by
  rcases h s hs with ⟨-, hnone⟩ | ⟨b, t, hm', hQ⟩
  · rw [hm] at hnone
    cases hnone
  · obtain ⟨rfl, rfl⟩ := Prod.mk.inj (Option.some.inj (hm.symm.trans hm'))
    exact hQ

/-- A run that may not stop. -/
theorem Run.exists {s : σ} (h : Run False P m Q) (hs : P s) :
    ∃ a s', m s = some (a, s') ∧ Q a s' := (h s hs).resolve_left fun h => h.1

end Unitas.Hoare
