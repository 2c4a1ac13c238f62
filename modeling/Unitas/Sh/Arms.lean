import Mathlib.Data.List.Infix
import Unitas.Lib.Stopping
import Unitas.Sh.Macro

/-! The two ways to read the word of `${name op word}`: `copyto`, which expands it, and `skipto`, which
passes over it. -/
namespace Unitas.Sh.Arms
open Macro Stopping

/-- What `skipto(e)` passes over. A backslash is a character like others, and a dollar sign
takes the character after it along. -/
inductive Skips : UInt8 → Str → Prop
  | nil (e : UInt8) : Skips e []
  | char {e c : UInt8} {s : Str} : c ≠ e → c ≠ 96 → c ≠ 34 → c ≠ 36 → Skips e s → Skips e (c :: s)
  | quote {e q : UInt8} {b s : Str} : q = 96 ∨ q = 34 → q ≠ e → Skips q b → Skips e s →
    Skips e (q :: (b ++ q :: s))
  | dollar {e d : UInt8} {s : Str} : e ≠ 36 → d ≠ 123 → Skips e s → Skips e (36 :: d :: s)
  | brace {e : UInt8} {b s : Str} : e ≠ 36 → Skips 125 b → Skips e s →
    Skips e (36 :: 123 :: (b ++ 125 :: s))

/-! ### Skipping -/

theorem skipto_cons (fuel : ℕ) (e c : UInt8) (s : Str) :
    skipto (fuel + 1) e (c :: s) =
      if c = e then .ok s
      else if c = 96 then skipto fuel 96 s >>= skipto fuel e
      else if c = 34 then skipto fuel 34 s >>= skipto fuel e
      else if c = 36 then
        match s with
        | [] => .error .badsub
        | d :: s => if d = 123 then skipto fuel 125 s >>= skipto fuel e else skipto fuel e s
      else skipto fuel e s := rfl

theorem skipto_of_skips {e : UInt8} {b : Str} (h : Skips e b) (fuel : ℕ) (rest : Str)
    (hfuel : (b ++ e :: rest).length < fuel) : skipto fuel e (b ++ e :: rest) = .ok rest := by
  induction h generalizing fuel rest with
  | nil e =>
    obtain ⟨f, rfl⟩ := Nat.exists_eq_succ_of_ne_zero (Nat.ne_of_gt (Nat.zero_lt_of_lt hfuel))
    rw [List.nil_append, skipto_cons, if_pos rfl]
  | @char e c s he h96 h34 h36 _ ih =>
    obtain ⟨f, rfl⟩ := Nat.exists_eq_succ_of_ne_zero (Nat.ne_of_gt (Nat.zero_lt_of_lt hfuel))
    rw [List.cons_append, List.length_cons] at hfuel
    rw [List.cons_append, skipto_cons, if_neg he, if_neg h96, if_neg h34, if_neg h36]
    exact ih f rest (by omega)
  | @quote e q b s hq he _ _ ihb ihs =>
    obtain ⟨f, rfl⟩ := Nat.exists_eq_succ_of_ne_zero (Nat.ne_of_gt (Nat.zero_lt_of_lt hfuel))
    have hassoc : b ++ q :: s ++ e :: rest = b ++ q :: (s ++ e :: rest) := by simp
    rw [List.cons_append, hassoc] at hfuel ⊢
    rw [List.length_cons, List.length_append, List.length_cons] at hfuel
    have hb := ihb f (s ++ e :: rest) (by rw [List.length_append, List.length_cons]; omega)
    have hs := ihs f rest (by omega)
    rw [skipto_cons, if_neg he]
    rcases hq with rfl | rfl
    · rw [if_pos rfl, hb]
      exact hs
    · rw [if_neg (by decide), if_pos rfl, hb]
      exact hs
  | @dollar e d s he hd _ ih =>
    obtain ⟨f, rfl⟩ := Nat.exists_eq_succ_of_ne_zero (Nat.ne_of_gt (Nat.zero_lt_of_lt hfuel))
    rw [List.cons_append, List.cons_append] at hfuel ⊢
    rw [List.length_cons, List.length_cons] at hfuel
    rw [skipto_cons, if_neg (Ne.symm he), if_neg (by decide), if_neg (by decide), if_pos rfl]
    dsimp only
    rw [if_neg hd]
    exact ih f rest (by omega)
  | @brace e b s he _ _ ihb ihs =>
    obtain ⟨f, rfl⟩ := Nat.exists_eq_succ_of_ne_zero (Nat.ne_of_gt (Nat.zero_lt_of_lt hfuel))
    have hassoc : b ++ 125 :: s ++ e :: rest = b ++ 125 :: (s ++ e :: rest) := by simp
    rw [List.cons_append, List.cons_append, hassoc] at hfuel ⊢
    rw [List.length_cons, List.length_cons, List.length_append, List.length_cons] at hfuel
    have hb := ihb f (s ++ e :: rest) (by rw [List.length_append, List.length_cons]; omega)
    have hs := ihs f rest (by omega)
    rw [skipto_cons, if_neg (Ne.symm he), if_neg (by decide), if_neg (by decide), if_pos rfl]
    dsimp only
    rw [if_pos rfl, hb]
    exact hs

/-- What has been skipped is of the form above. -/
theorem skips_of_skipto (fuel : ℕ) {e : UInt8} (he : e ≠ 36) {t rest : Str}
    (h : skipto fuel e t = .ok rest) : ∃ b, t = b ++ e :: rest ∧ Skips e b := by
  induction fuel generalizing e t rest with
  | zero => cases h
  | succ fuel ih =>
    cases t with
    | nil => cases h
    | cons c s =>
      have hquote (q : UInt8) (hq : q = 96 ∨ q = 34) (hqe : q ≠ e)
          (h : skipto fuel q s >>= skipto fuel e = .ok rest) :
          ∃ b, q :: s = b ++ e :: rest ∧ Skips e b := by
        obtain ⟨s', hs', hrest⟩ := exists_of_bind_ok h
        have hq36 : q ≠ 36 := by
          rcases hq with rfl | rfl <;> decide
        obtain ⟨b, rfl, hb⟩ := ih hq36 hs'
        obtain ⟨b', rfl, hb'⟩ := ih he hrest
        exact ⟨q :: (b ++ q :: b'), by simp, .quote hq hqe hb hb'⟩
      rw [skipto_cons] at h
      split_ifs at h with hce h96 h34 h36
      · obtain rfl := Except.ok.inj h
        exact ⟨[], by rw [hce]; rfl, .nil e⟩
      · subst h96
        exact hquote 96 (.inl rfl) hce h
      · subst h34
        exact hquote 34 (.inr rfl) hce h
      · subst h36
        cases s with
        | nil => cases h
        | cons d s =>
          dsimp only at h
          split_ifs at h with hd
          · subst hd
            obtain ⟨s', hs', hrest⟩ := exists_of_bind_ok h
            obtain ⟨b, rfl, hb⟩ := ih (by decide) hs'
            obtain ⟨b', rfl, hb'⟩ := ih he hrest
            exact ⟨36 :: 123 :: (b ++ 125 :: b'), by simp, .brace he hb hb'⟩
          · obtain ⟨b, rfl, hb⟩ := ih he h
            exact ⟨36 :: d :: b, rfl, .dollar he hd hb⟩
      · obtain ⟨b, rfl, hb⟩ := ih he h
        exact ⟨c :: b, rfl, .char hce h96 h34 h36 hb⟩

theorem skipto_iff {e : UInt8} (he : e ≠ 36) (b rest : Str) :
    skipto ((b ++ e :: rest).length + 1) e (b ++ e :: rest) = .ok rest ↔ Skips e b := by
  constructor
  · intro h
    obtain ⟨b', hb', hskips⟩ := skips_of_skipto _ he h
    rwa [List.append_cancel_right hb']
  · exact fun h => skipto_of_skips h _ rest (Nat.lt_succ_self _)

/-! ### Copying -/

variable {Body : Type} {e : Env} {trimflag atflag : Bool} {s s' : State Body}
  {word : State Body → Except Stop (State Body)}

@[simp] theorem push_input (cs : Str) (s : State Body) : (s.push cs).input = s.input := rfl

theorem readwc_suffix (s : State Body) : s.readwc.2.input <:+ s.input := by
  unfold State.readwc
  split <;> simp [*]

theorem readwc_peek_suffix (s : State Body) : (s.readwc.2.peek s.readwc.1).input <:+ s.input := by
  unfold State.readwc State.peek
  split
  · simp
  · split <;> simp [*]

theorem readwc_cons (s : State Body) (h : s.readwc.1 ≠ 0) :
    s.readwc.1 :: s.readwc.2.input = s.input := by
  unfold State.readwc at h ⊢
  split at h <;> simp_all

@[simp] theorem pushValue_input (v : Str) (s : State Body) :
    (pushValue trimflag v s).input = s.input := by
  unfold pushValue
  split <;> rfl

@[simp] theorem pushRest_input (id : UInt8) (vs : List Str) (s : State Body) :
    (pushRest trimflag id vs s).input = s.input := by
  induction vs generalizing s with
  | nil => rfl
  | cons v vs ih =>
    unfold pushRest
    rw [ih, pushValue_input, push_input]

theorem copyChar_suffix (c : UInt8) (s : State Body) : (copyChar c s).input <:+ s.input := by
  unfold copyChar
  split_ifs
  · have h := readwc_suffix s
    dsimp only
    split_ifs <;> exact h
  · exact List.suffix_rfl
  · exact readwc_suffix s
  · exact List.suffix_rfl

theorem commandText_suffix (quote : Bool) (s : Str) : (commandText quote s).2 <:+ s := by
  fun_induction commandText quote s with
  | case1 => exact List.suffix_rfl
  | case2 => exact List.nil_suffix
  | case3 d s text s' hrest ih =>
    rw [hrest] at ih
    exact ih.trans (List.suffix_append [92, d] s)
  | case4 => exact List.suffix_cons _ _
  | case5 c s _ _ _ text s' hrest ih =>
    rw [hrest] at ih
    exact ih.trans (List.suffix_cons c s)

theorem comsubst_suffix (h : comsubst e trimflag s = .ok s') : s'.input <:+ s.input := by
  unfold comsubst at h
  have hsuffix := commandText_suffix s.quote s.input
  dsimp only at h
  split at h
  · cases h
  · obtain rfl := Except.ok.inj h
    exact hsuffix

theorem substitute_input {p : Param} {nulflg : Bool} {c : UInt8} {argp : Option Str}
    (h : substitute e trimflag p nulflg c argp s = .ok s') : s'.input = s.input := by
  have hunset (h : substitute.unsetCase e trimflag p c argp s = .ok s') : s'.input = s.input := by
    unfold substitute.unsetCase at h
    repeat' split at h
    all_goals first | cases h; rfl | cases h
  unfold substitute at h
  split at h
  · split_ifs at h
    · exact hunset h
    · obtain rfl := Except.ok.inj h
      rfl
    · obtain rfl := Except.ok.inj h
      rw [pushRest_input, pushValue_input]
  · exact hunset h

theorem param_suffix {bra at' : Bool} {c : UInt8} {p : Param}
    (h : param e bra atflag c s = .ok (some (p, at', s'))) : s'.input <:+ s.input := by
  unfold param at h
  dsimp only at h
  split_ifs at h
  · split at h
    · cases h
    · split_ifs at h
      cases h
      exact List.dropWhile_suffix _
  all_goals cases h
  all_goals exact List.suffix_rfl

theorem skipto_suffix {fuel : ℕ} {t rest : Str} (h : skipto fuel 125 t = .ok rest) :
    rest <:+ t := by
  obtain ⟨b, rfl, -⟩ := skips_of_skipto fuel (by decide) h
  exact (List.suffix_cons 125 rest).trans (List.suffix_append b _)

/-- The word within braces is read by `word` or skipped. -/
theorem dollar_suffix (hword : ∀ s s', word s = .ok s' → s'.input <:+ s.input) {c : UInt8}
    {at' : Bool} (h : dollar e trimflag word atflag c s = .ok (at', s')) :
    s'.input <:+ s.input := by
  unfold dollar at h
  by_cases hbra : c = 123
  · simp only [hbra, decide_true, Bool.and_true, if_true, and_true] at h
    obtain ⟨found, hparam, h⟩ := exists_of_bind_ok h
    have hs₁ := readwc_suffix s
    rcases found with _ | ⟨p, at₂, s₂⟩
    · cases h
      exact hs₁
    have hs₂ : s₂.input <:+ s.input := (param_suffix hparam).trans hs₁
    dsimp only at h
    have hread : (if decide (s₂.readwc.1 = 58) = true then s₂.readwc.2.readwc
        else (s₂.readwc.1, s₂.readwc.2)).2.input <:+ s.input := by
      split_ifs
      · exact ((readwc_suffix _).trans (readwc_suffix s₂)).trans hs₂
      · exact (readwc_suffix s₂).trans hs₂
    generalize (if decide (s₂.readwc.1 = 58) = true then s₂.readwc.2.readwc
      else (s₂.readwc.1, s₂.readwc.2)) = r at h hread
    split_ifs at h
    · obtain ⟨s₃, hs₃, h⟩ := exists_of_bind_ok h
      obtain ⟨s₄, hs₄, h⟩ := exists_of_bind_ok h
      cases h
      rw [substitute_input hs₄]
      exact (hword r.2 s₃ hs₃).trans hread
    · obtain ⟨input, hskip, h⟩ := exists_of_bind_ok h
      obtain ⟨s₃, hs₃, h⟩ := exists_of_bind_ok h
      obtain ⟨s₄, hs₄, h⟩ := exists_of_bind_ok h
      cases h
      cases hs₃
      rw [substitute_input hs₄]
      exact (skipto_suffix hskip).trans hread
    · obtain ⟨s₄, hs₄, h⟩ := exists_of_bind_ok h
      cases h
      rw [substitute_input hs₄]
      exact hread
  · simp only [hbra, decide_false, Bool.and_false, Bool.false_eq_true, if_false, and_false] at h
    obtain ⟨found, hparam, h⟩ := exists_of_bind_ok h
    rcases found with _ | ⟨p, at₂, s₂⟩
    · cases h
      exact List.suffix_rfl
    have hs₂ : s₂.input <:+ s.input := param_suffix hparam
    obtain ⟨s₃, hs₃, h⟩ := exists_of_bind_ok h
    cases h
    rw [substitute_input hs₃]
    exact (readwc_peek_suffix s₂).trans hs₂

theorem getch_suffix (hword : ∀ s s', word s = .ok s' → s'.input <:+ s.input) {endch d : UInt8}
    (fuel : ℕ) {atflag : Bool} {s s' : State Body}
    (h : getch e trimflag word endch fuel atflag s = .ok (d, s')) :
    s'.input <:+ s.input ∧ (d = 125 → 125 :: s'.input <:+ s.input) := by
  induction fuel generalizing atflag s with
  | zero => cases h
  | succ fuel ih =>
    have hread := readwc_suffix s
    have hagain {at' : Bool} {s₁ : State Body} (hs₁ : s₁.input <:+ s.input)
        (h : getch e trimflag word endch fuel at' s₁ = .ok (d, s')) :
        s'.input <:+ s.input ∧ (d = 125 → 125 :: s'.input <:+ s.input) :=
      ⟨(ih h).1.trans hs₁, fun hd => ((ih h).2 hd).trans hs₁⟩
    have hother {s₀ : State Body} (hd : s.readwc.1 ≠ 125)
        (h : (.ok (s.readwc.1, s₀) : Except Stop (UInt8 × State Body)) = .ok (d, s'))
        (hs₀ : s₀.input <:+ s.input) :
        s'.input <:+ s.input ∧ (d = 125 → 125 :: s'.input <:+ s.input) := by
      cases h
      exact ⟨hs₀, fun h => absurd h hd⟩
    rw [getch] at h
    dsimp only at h
    by_cases hsub : subchar s.readwc.1 = true
    · have hd : s.readwc.1 ≠ 125 := fun h => absurd (h ▸ hsub) (by decide)
      rw [if_neg (not_not.mpr hsub)] at h
      by_cases h36 : s.readwc.1 = 36
      · rw [if_pos h36] at h
        split at h
        · obtain ⟨⟨at', s₁⟩, hs₁, h⟩ := exists_of_bind_ok h
          exact hagain ((dollar_suffix hword hs₁).trans ((readwc_suffix _).trans hread)) h
        · exact hother hd h ((readwc_peek_suffix _).trans hread)
      · rw [if_neg h36] at h
        split at h
        · exact hother hd h hread
        split at h
        · obtain ⟨s₁, hs₁, h⟩ := exists_of_bind_ok h
          exact hagain ((comsubst_suffix hs₁).trans hread) h
        split at h
        · refine hagain ?_ h
          exact hread
        · exact hother hd h hread
    · rw [if_pos hsub] at h
      cases h
      refine ⟨hread, fun hd => ?_⟩
      rw [← readwc_cons s (by rw [hd]; decide), hd]

theorem copyto_suffix (fuel : ℕ) {endch : UInt8} {s s' : State Body}
    (h : copyto e fuel endch trimflag s = .ok s') :
    s'.input <:+ s.input ∧ (endch = 125 → 125 :: s'.input <:+ s.input) := by
  induction fuel generalizing endch s s' with
  | zero => cases h
  | succ fuel ih =>
    rw [copyto] at h
    obtain ⟨⟨c, s₁⟩, hs₁, h⟩ := exists_of_bind_ok h
    obtain ⟨hsuffix, hend⟩ := getch_suffix (fun s s' h => (ih h).1) fuel hs₁
    dsimp only at h
    split_ifs at h with hc hne
    · have hrest : (copyChar c s₁).input <:+ s.input := (copyChar_suffix c s₁).trans hsuffix
      exact ⟨(ih h).1.trans hrest, fun h125 => ((ih h).2 h125).trans hrest⟩
    · cases h
      exact ⟨hsuffix, fun h125 => hend ((not_not.mp hne).trans h125)⟩

/-- Where `copyto` has read a word up to its brace, `skipto` reads the same if and only if the
quotes, backquotes and braces of the word are closed for it. -/
theorem skipto_iff_of_copyto (e : Env) (fuel : ℕ) (s s' : State Body)
    (h : copyto e fuel 125 true s = .ok s') :
    ∃ b, s.input = b ++ 125 :: s'.input ∧
      (skipto (s.input.length + 1) 125 s.input = .ok s'.input ↔ Skips 125 b) := by
  obtain ⟨b, hb⟩ := (copyto_suffix fuel h).2 rfl
  refine ⟨b, hb.symm, ?_⟩
  rw [← hb]
  exact skipto_iff (by decide) b s'.input

/-- No parameters, and commands that write nothing. -/
def noEnv : Env := ⟨[], [], [], none, [], 0, false, fun _ => some []⟩

/-- Before the word, with nothing on the stack. -/
def before (input : Str) : State Unit := ⟨input, [], false, 0, ⟨.nil, false⟩⟩

/-- The word `a`. -/
theorem skipto_iff_of_copyto_a :
    ∃ b, (before [97, 125]).input = b ++ 125 :: [] ∧
      (skipto 3 125 [97, 125] = .ok [] ↔ Skips 125 b) :=
  skipto_iff_of_copyto noEnv 5 (before [97, 125])
    ⟨[], [97], false, 0, ⟨.nil, false⟩⟩ rfl

/-- A brace with a backslash before it: `skipto` stops there. -/
theorem not_skipto_of_copyto :
    ¬ ∀ (e : Env) (fuel : ℕ) (s s' : State Unit), (∀ c ∈ s.input, subchar c = false) →
      copyto e fuel 125 true s = .ok s' →
        skipto (s.input.length + 1) 125 s.input = .ok s'.input := by
  intro h
  have hquiet : ∀ c ∈ ([92, 125, 125] : List UInt8), subchar c = false := by
    simp only [List.mem_cons, List.not_mem_nil, or_false, forall_eq_or_imp, forall_eq]
    exact ⟨rfl, rfl, rfl⟩
  have hskip := h noEnv 5 (before [92, 125, 125]) ⟨[], [92, 125], false, 0, ⟨.nil, false⟩⟩
    hquiet rfl
  exact absurd (Except.ok.inj hskip) (by decide)

end Unitas.Sh.Arms
