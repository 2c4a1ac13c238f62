import Unitas.Printf.Bbuf

/-! When `printf` comes to an end: where the machine goes does not depend on what is in the
buffers. -/
namespace Unitas.Printf
open Unitas.Stopping

/-- The state without the buffers. -/
structure Control where
  state : Mode
  o : ℕ
  got : Bool
  t : ℕ

def State.control (s : State) : Control := ⟨s.state, s.o, s.got, s.t⟩

/-- Whether the loop over the argument of `%b` meets `\c`. -/
def stopsB : List UInt8 → Bool
  | [] => false
  | [_] => false
  | c :: d :: j => if c = 92 then d = 99 || stopsB j else stopsB (d :: j)

def isNumber (c : UInt8) : Bool :=
  c = 100 || c = 105 || c = 111 || c = 112 || c = 117 || c = 120 || c = 88

def isText (c : UInt8) : Bool := c = 67 || c = 99 || c = 83 || c = 115

/-- The conversions that take an argument. -/
def takesArg (c : UInt8) : Bool := c = 98 || isNumber c || isText c

/-- The letters that end a conversion. -/
def isConversion (c : UInt8) : Bool := takesArg c || c = 37 || c = 110

def Control.stepNormal (s : Control) (c : UInt8) : Control :=
  if c = 37 then { s with got := true, state := .percent }
  else if c = 92 then { s with state := .backslash }
  else s

/-- Modifiers and unknown letters change nothing. -/
def Control.stepPercent (args : List (List UInt8)) (s : Control) (c : UInt8) : Option Control :=
  let next := if s.t < argc args then s.t + 1 else s.t
  if c = 98 then
    if s.t ≤ argc args then
      if stopsB ((argv args s.t).getD []) then none
      else some { s with state := .normal, t := next }
    else some { s with state := .normal }
  else if isText c then some { s with state := .normal, t := next }
  else if isNumber c then some { s with state := .normal, t := s.t + 1 }
  else if c = 37 ∨ c = 110 then some { s with state := .normal }
  else some s

/-- What a character of the format does, unless the program exits at it. -/
def Control.step (args : List (List UInt8)) (s : Control) (c : UInt8) : Option Control :=
  match s.state with
  | .normal => some (s.stepNormal c)
  | .backslash =>
    if isOctal c then some { s with o := c.toNat - 48, state := .octal }
    else some { s with state := .normal }
  | .octal =>
    if isOctal c ∧ (s.o <<< 3 ||| (c.toNat - 48)) ≤ 255 then
      some { s with o := s.o <<< 3 ||| (c.toNat - 48) }
    else some ({ s with state := .normal }.stepNormal c)
  | .percent => s.stepPercent args c

def Control.pass (args : List (List UInt8)) : Control → List UInt8 → Option Control
  | s, [] => some s
  | s, c :: i => (s.step args c).bind fun s => s.pass args i

/-- The exit status, if the program has ended after so many passes. -/
def Control.passes (format : List UInt8) (args : List (List UInt8)) : ℕ → Control → Option ℕ
  | 0, _ => none
  | fuel + 1, s =>
    match s.pass args format with
    | none => some 0
    | some s =>
      if s.state = .octal ∨ s.state = .normal then
        if s.t < argc args ∧ s.got then s.passes format args fuel else some 0
      else some 1

def Stops (format : List UInt8) (args : List (List UInt8)) : Prop :=
  ∃ fuel, (start.control.passes format args fuel).isSome

/-! It is the control of the machine. -/

theorem stopsB_cons {c : UInt8} (hc : c ≠ 92) (j : List UInt8) : stopsB (c :: j) = stopsB j := by
  cases j with
  | nil => rfl
  | cons d j => exact if_neg hc

theorem loopB_stopsB (n : ℕ) : ∀ {buf bbuf j : List UInt8} {octal : Option ℕ}
    {r : List UInt8 × Bool}, j.length ≤ n → loopB buf octal bbuf j = .ok r → r.2 = stopsB j := by
  induction n with
  | zero =>
    intro buf bbuf j octal r hlen h
    obtain rfl := List.length_eq_zero_iff.mp (Nat.le_zero.mp hlen)
    obtain rfl := Except.ok.inj h
    rfl
  | succ n ih =>
    intro buf bbuf j octal r hlen h
    cases j with
    | nil =>
      obtain rfl := Except.ok.inj h
      rfl
    | cons c j =>
      have hj : j.length ≤ n := Nat.le_of_succ_le_succ hlen
      by_cases hgo : GoesOn octal c
      · obtain ⟨o, rfl, hc, hfit⟩ := hgo
        have h92 : c ≠ 92 := by rintro rfl; exact absurd hc (by decide)
        rw [loopB_digit hc hfit] at h
        rw [stopsB_cons h92]
        exact ih hj h
      · rw [loopB_flush hgo] at h
        by_cases h92 : c = 92
        · subst h92
          cases j with
          | nil =>
            rw [loopB_last] at h
            obtain ⟨b, -, h⟩ := exists_of_map_ok h
            rw [← h]
            rfl
          | cons d j =>
            have hj' : j.length ≤ n := Nat.le_of_succ_le hj
            by_cases h99 : d = 99
            · subst h99
              obtain rfl := Except.ok.inj h
              rfl
            · have hstop : stopsB (92 :: d :: j) = stopsB j := by simp [stopsB, h99]
              rw [hstop]
              by_cases ho : isOctal d = true
              · rw [loopB_octal ho] at h
                exact ih hj' h
              · cases hd : escape d with
                | some e =>
                  rw [loopB_escape hd ho h99] at h
                  obtain ⟨b, -, h⟩ := exists_of_bind_ok h
                  exact ih hj' h
                | none =>
                  rw [loopB_other hd ho h99] at h
                  obtain ⟨b, -, h⟩ := exists_of_bind_ok h
                  obtain ⟨b', -, h⟩ := exists_of_bind_ok h
                  exact ih hj' h
        · rw [loopB_plain h92] at h
          rw [stopsB_cons h92]
          obtain ⟨b, -, h⟩ := exists_of_bind_ok h
          exact ih hj h

theorem stepNormal_control {s s' : State} {c : UInt8} (h : stepNormal s c = .ok s') :
    s'.control = s.control.stepNormal c := by
  rw [stepNormal] at h
  rw [Control.stepNormal]
  split_ifs at h ⊢
  · obtain rfl := Except.ok.inj h
    rfl
  · obtain rfl := Except.ok.inj h
    rfl
  · obtain ⟨buf, -, h⟩ := exists_of_bind_ok h
    obtain rfl := Except.ok.inj h
    rfl

theorem convert_control {lib : Libc} {s s' : State} {arg : Arg} (h : convert lib s arg = .ok s') :
    s'.control = { s.control with state := .normal } := by
  obtain ⟨buf, -, h⟩ := exists_of_bind_ok h
  obtain rfl := Except.ok.inj h
  rfl

theorem isModifier_not {c : UInt8} (h : isModifier c = true) :
    c ≠ 98 ∧ isText c = false ∧ isNumber c = false ∧ ¬ (c = 37 ∨ c = 110) := by
  refine ⟨?_, ?_, ?_, ?_⟩
  · rintro rfl
    exact absurd h (by decide)
  · by_contra hne
    rw [Bool.not_eq_false] at hne
    simp only [isText, Bool.or_eq_true, decide_eq_true_eq] at hne
    rcases hne with ((rfl | rfl) | rfl) | rfl <;> exact absurd h (by decide)
  · by_contra hne
    rw [Bool.not_eq_false] at hne
    simp only [isNumber, Bool.or_eq_true, decide_eq_true_eq] at hne
    rcases hne with (((((rfl | rfl) | rfl) | rfl) | rfl) | rfl) | rfl <;> exact absurd h (by decide)
  · rintro (rfl | rfl) <;> exact absurd h (by decide)

theorem stepPercent_control {lib : Libc} {args : List (List UInt8)} {s s' : State} {c : UInt8}
    (h : stepPercent lib args s c = .ok s') :
    s.control.stepPercent args c = some s'.control := by
  rw [stepPercent] at h
  by_cases h37 : c = 37
  · subst h37
    rw [if_pos rfl] at h
    obtain ⟨buf, -, h⟩ := exists_of_bind_ok h
    obtain ⟨fbuf, -, h⟩ := exists_of_bind_ok h
    have hok := @Except.ok.inj Stop State _ s' h
    subst hok
    rfl
  · rw [if_neg h37] at h
    obtain ⟨buf, -, h⟩ := exists_of_bind_ok h
    obtain ⟨fbuf, -, h⟩ := exists_of_bind_ok h
    rw [if_neg h37] at h
    dsimp only at h
    rw [Control.stepPercent]
    by_cases hmod : isModifier c = true
    · obtain ⟨h98, htext, hnum, hlast⟩ := isModifier_not hmod
      rw [if_pos hmod] at h
      obtain rfl := Except.ok.inj h
      rw [if_neg h98, htext, hnum, if_neg hlast]
      rfl
    · rw [if_neg hmod] at h
      by_cases h98 : c = 98
      · rw [if_pos h98] at h ⊢
        by_cases ht : s.t ≤ argc args
        · rw [if_pos ht] at h
          obtain ⟨⟨bbuf, stop⟩, hloop, h⟩ := exists_of_bind_ok h
          obtain ⟨s1, hconv, h⟩ := exists_of_bind_ok h
          have hstop : stop = stopsB ((argv args s.t).getD []) := loopB_stopsB _ le_rfl hloop
          cases stop with
          | true => exact nomatch h
          | false =>
            obtain rfl := Except.ok.inj h
            rw [if_pos (show s.control.t ≤ argc args from ht), convert_control hconv]
            exact if_neg fun hb => Bool.false_ne_true (hstop.trans hb)
        · rw [if_neg ht] at h
          obtain rfl := Except.ok.inj h
          exact if_neg ht
      · rw [if_neg h98] at h ⊢
        by_cases hc : c = 67 ∨ c = 99
        · have htext : isText c = true := by rcases hc with rfl | rfl <;> rfl
          rw [if_pos hc] at h
          rw [htext, if_pos rfl, convert_control h]
          rfl
        · rw [if_neg hc] at h
          by_cases h110 : c = 110
          · subst h110
            rw [if_pos rfl] at h
            rw [convert_control h]
            rfl
          · rw [if_neg h110] at h
            by_cases hd : c = 100 ∨ c = 105 ∨ c = 111 ∨ c = 112 ∨ c = 117 ∨ c = 120 ∨ c = 88
            · have hnum : isText c = false ∧ isNumber c = true := by
                rcases hd with rfl | rfl | rfl | rfl | rfl | rfl | rfl <;> exact ⟨rfl, rfl⟩
              rw [if_pos hd] at h
              rw [hnum.1, hnum.2, convert_control h]
              rfl
            · rw [if_neg hd] at h
              have hnum : isNumber c = false := by simpa [isNumber, and_assoc] using hd
              by_cases hc' : c = 83 ∨ c = 115
              · have htext : isText c = true := by rcases hc' with rfl | rfl <;> rfl
                rw [if_pos hc'] at h
                rw [htext, if_pos rfl, convert_control h]
                rfl
              · have htext : isText c = false := by
                  rw [not_or] at hc hc'
                  simp [isText, hc, hc']
                rw [if_neg hc'] at h
                obtain rfl := Except.ok.inj h
                rw [htext, hnum, if_neg (not_or.mpr ⟨h37, h110⟩)]
                rfl

/-- A step of the machine is one of its control. -/
theorem step_control {lib : Libc} {args : List (List UInt8)} {s s' : State} {c : UInt8}
    (h : step lib args s c = .ok s') : s.control.step args c = some s'.control := by
  rw [Printf.step] at h
  cases hs : s.state with
  | normal =>
    rw [hs] at h
    have hc : s.control.state = .normal := hs
    rw [Control.step, hc, stepNormal_control h]
  | backslash =>
    rw [hs] at h
    have hc : s.control.state = .backslash := hs
    dsimp only at h
    rw [stepBackslash] at h
    rw [Control.step, hc]
    dsimp only
    by_cases ho : isOctal c = true
    · rw [if_pos ho] at h ⊢
      obtain rfl := Except.ok.inj h
      rfl
    · rw [if_neg ho] at h ⊢
      cases he : escape c with
      | some e =>
        rw [he] at h
        obtain ⟨buf, -, h⟩ := exists_of_bind_ok h
        obtain rfl := Except.ok.inj h
        rfl
      | none =>
        rw [he] at h
        obtain ⟨buf, -, h⟩ := exists_of_bind_ok h
        obtain ⟨buf', -, h⟩ := exists_of_bind_ok h
        obtain rfl := Except.ok.inj h
        rfl
  | octal =>
    rw [hs] at h
    have hc : s.control.state = .octal := hs
    dsimp only at h
    rw [stepOctal] at h
    rw [Control.step, hc]
    dsimp only
    by_cases ho : isOctal c ∧ (s.o <<< 3 ||| (c.toNat - 48)) ≤ 255
    · rw [if_pos ho] at h
      obtain rfl := Except.ok.inj h
      simp only [State.control, hs]
      exact if_pos ho
    · rw [if_neg ho] at h
      obtain ⟨buf, -, h⟩ := exists_of_bind_ok h
      rw [stepNormal_control h]
      exact if_neg ho
  | percent =>
    rw [hs] at h
    have hc : s.control.state = .percent := hs
    rw [Control.step, hc]
    exact stepPercent_control h

theorem loop_control {lib : Libc} {args : List (List UInt8)} (i : List UInt8) : ∀ {s s' : State},
    loop lib args s i = .ok s' → s.control.pass args i = some s'.control := by
  induction i with
  | nil =>
    intro s s' h
    obtain rfl := Except.ok.inj h
    rfl
  | cons c i ih =>
    intro s s' h
    obtain ⟨t, hstep, h⟩ := exists_of_bind_ok h
    rw [Control.pass, step_control hstep]
    exact ih h

/-- What the machine writes in the end comes from passes that end. -/
theorem passes_control {lib : Libc} {format : List UInt8} {args : List (List UInt8)} (fuel : ℕ) :
    ∀ {s : State} {out : List UInt8}, passes lib format args fuel s = .ok out →
    s.control.passes format args fuel = some 0 := by
  induction fuel with
  | zero => exact fun h => nomatch h
  | succ fuel ih =>
    intro s out h
    obtain ⟨s2, hpass, h⟩ := exists_of_bind_ok h
    obtain ⟨s1, hloop, hend⟩ := exists_of_bind_ok hpass
    obtain ⟨hopen, hcontrol⟩ : (s1.state = .octal ∨ s1.state = .normal) ∧
        s2.control = s1.control := by
      rw [passEnd] at hend
      cases hs : s1.state with
      | octal =>
        rw [hs] at hend
        obtain ⟨buf, -, hend⟩ := exists_of_bind_ok hend
        obtain rfl := Except.ok.inj hend
        exact ⟨.inl rfl, by simp only [State.control, hs]⟩
      | normal =>
        rw [hs] at hend
        obtain rfl := Except.ok.inj hend
        exact ⟨.inr rfl, rfl⟩
      | backslash => rw [hs] at hend; exact nomatch hend
      | percent => rw [hs] at hend; exact nomatch hend
    have hstate : s1.control.state = .octal ∨ s1.control.state = .normal := hopen
    rw [Control.passes, loop_control format hloop]
    dsimp only
    rw [if_pos hstate, ← hcontrol]
    by_cases hagain : s2.t < argc args ∧ s2.got = true
    · rw [if_pos hagain] at h
      exact (if_pos hagain).trans (ih h)
    · exact if_neg hagain

/-! The conversions of a format. -/

/-- The letters of the conversions, unless the format ends inside one or behind a backslash. -/
def letters : Mode → List UInt8 → Option (List UInt8)
  | .backslash, [] => none
  | .backslash, _ :: i => letters .normal i
  | .percent, [] => none
  | .percent, c :: i =>
    if isConversion c then (letters .normal i).map (c :: ·) else letters .percent i
  | _, [] => some []
  | _, c :: i =>
    if c = 37 then letters .percent i else if c = 92 then letters .backslash i
    else letters .normal i

theorem letters_normal (c : UInt8) (i : List UInt8) : letters .normal (c :: i) =
    if c = 37 then letters .percent i else if c = 92 then letters .backslash i
    else letters .normal i := rfl

theorem letters_octal (i : List UInt8) : letters .octal i = letters .normal i := by
  cases i with
  | nil => rfl
  | cons c i => rfl

/-- Between two items of the format. -/
def Mode.Open (m : Mode) : Prop := m = .octal ∨ m = .normal

instance (m : Mode) : Decidable m.Open := inferInstanceAs (Decidable (_ ∨ _))

theorem Mode.Open.letters_eq {m : Mode} (h : m.Open) (i : List UInt8) :
    letters m i = letters .normal i := by
  rcases h with rfl | rfl
  · exact letters_octal i
  · rfl

variable {args : List (List UInt8)}

/-- What a letter does to a conversion. -/
theorem stepPercent_spec {s : Control} (c : UInt8) :
    if isConversion c then
      (s.stepPercent args c = none ∧ takesArg c = true) ∨
      ∃ t, s.stepPercent args c = some { s with state := .normal, t } ∧ s.t ≤ t ∧
        (takesArg c = true → s.t < argc args → s.t < t) ∧ (takesArg c = false → t = s.t)
    else s.stepPercent args c = some s := by
  by_cases htakes : takesArg c = true
  · have hconv : isConversion c = true := by simp [isConversion, htakes]
    rw [if_pos hconv, htakes, Control.stepPercent]
    have hnext : s.t ≤ (if s.t < argc args then s.t + 1 else s.t) ∧
        (s.t < argc args → s.t < if s.t < argc args then s.t + 1 else s.t) := by
      split_ifs <;> omega
    by_cases h98 : c = 98
    · rw [if_pos h98]
      by_cases ht : s.t ≤ argc args
      · rw [if_pos ht]
        by_cases hstop : stopsB ((argv args s.t).getD []) = true
        · exact .inl ⟨if_pos hstop, rfl⟩
        · exact .inr ⟨_, if_neg hstop, hnext.1, fun _ => hnext.2, nofun⟩
      · exact .inr ⟨s.t, if_neg ht, le_rfl, by omega, nofun⟩
    · rw [if_neg h98]
      by_cases htext : isText c = true
      · exact .inr ⟨_, if_pos htext, hnext.1, fun _ => hnext.2, nofun⟩
      · have hnum : isNumber c = true := by
          simpa [takesArg, h98, htext] using htakes
        rw [if_neg htext, if_pos hnum]
        exact .inr ⟨_, rfl, Nat.le_succ _, fun _ _ => Nat.lt_succ_self _, nofun⟩
  · rw [Bool.not_eq_true] at htakes
    have hparts := htakes
    simp only [takesArg, Bool.or_eq_false_iff, decide_eq_false_iff_not] at hparts
    obtain ⟨⟨h98, hnum⟩, htext⟩ := hparts
    rw [Control.stepPercent, if_neg h98, htext, hnum, htakes]
    by_cases hlast : c = 37 ∨ c = 110
    · have hconv : isConversion c = true := by
        rcases hlast with rfl | rfl <;> rfl
      rw [if_pos hconv]
      exact .inr ⟨s.t, if_pos hlast, le_rfl, nofun, fun _ => rfl⟩
    · have hconv : ¬ isConversion c = true := by
        simpa [isConversion, htakes] using hlast
      rw [if_neg hconv]
      exact if_neg hlast

/-- What a pass over the rest of a format does that has these conversions. -/
structure Passed (ls : List UInt8) (args : List (List UInt8)) (s s' : Control) : Prop where
  isOpen : s'.state.Open
  got : s'.got = (s.got || !ls.isEmpty)
  le : s.t ≤ s'.t
  lt : (∃ c ∈ ls, takesArg c = true) → s.t < argc args → s.t < s'.t
  eq : (∀ c ∈ ls, takesArg c = false) → s'.t = s.t

theorem Passed.cons {ls : List UInt8} {s s' : Control} {c : UInt8} {t : ℕ}
    (h : Passed ls args { s with state := .normal, t } s') (hgot : s.got = true) (hle : s.t ≤ t)
    (hlt : takesArg c = true → s.t < argc args → s.t < t) (heq : takesArg c = false → t = s.t) :
    Passed (c :: ls) args s s' where
  isOpen := h.isOpen
  got := by
    rw [h.got, hgot]
    rfl
  le := hle.trans h.le
  lt := by
    rintro ⟨d, hd, htakes⟩ hargs
    rcases List.mem_cons.mp hd with rfl | hd
    · exact (hlt htakes hargs).trans_le h.le
    · rcases hle.lt_or_eq with hlt' | rfl
      · exact hlt'.trans_le h.le
      · exact h.lt ⟨d, hd, htakes⟩ hargs
  eq := by
    intro hall
    obtain ⟨hc, hls⟩ := List.forall_mem_cons.mp hall
    exact (h.eq hls).trans (heq hc)

theorem Passed.nil {s : Control} (h : s.state.Open) : Passed [] args s s where
  isOpen := h
  got := (Bool.or_false _).symm
  le := le_rfl
  lt := by
    rintro ⟨c, hc, -⟩
    exact absurd hc List.not_mem_nil
  eq := fun _ => rfl

theorem Passed.of_eq {ls : List UInt8} {s t s' : Control} (h : Passed ls args t s') (ht : t.t = s.t)
    (hgot : (t.got || !ls.isEmpty) = (s.got || !ls.isEmpty)) : Passed ls args s s' where
  isOpen := h.isOpen
  got := h.got.trans hgot
  le := ht ▸ h.le
  lt := ht ▸ h.lt
  eq := ht ▸ h.eq

/-- How a pass ends, by the conversions left in the format. -/
def Ends (args : List (List UInt8)) (ls : Option (List UInt8)) (s : Control) :
    Option Control → Prop
  | none => ∀ l ∈ ls, ∃ c ∈ l, takesArg c = true
  | some s' => (ls = none → ¬ s'.state.Open) ∧ ∀ l ∈ ls, Passed l args s s'

theorem Ends.of_eq {ls : Option (List UInt8)} {s t : Control} {r : Option Control}
    (h : Ends args ls t r) (ht : t.t = s.t)
    (hgot : ∀ l ∈ ls, (t.got || !l.isEmpty) = (s.got || !l.isEmpty)) : Ends args ls s r := by
  cases r with
  | none => exact h
  | some s' => exact ⟨h.1, fun l hl => (h.2 l hl).of_eq ht (hgot l hl)⟩

theorem letters_percent_ne_nil (i : List UInt8) : ∀ l ∈ letters .percent i, l ≠ [] := by
  induction i with
  | nil => exact fun l h => nomatch h
  | cons c i ih =>
    intro l hl
    rw [letters] at hl
    split_ifs at hl
    · obtain ⟨l', -, rfl⟩ := Option.map_eq_some_iff.mp hl
      exact List.cons_ne_nil _ _
    · exact ih l hl

theorem pass_fits (i : List UInt8) : ∀ {s : Control}, (s.state = .percent → s.got = true) →
    Ends args (letters s.state i) s (s.pass args i) := by
  induction i with
  | nil =>
    intro s hgot
    rw [Control.pass]
    cases hs : s.state with
    | normal =>
      refine ⟨nofun, ?_⟩
      rintro l ⟨⟩
      exact Passed.nil (.inr hs)
    | octal =>
      refine ⟨nofun, ?_⟩
      rintro l ⟨⟩
      exact Passed.nil (.inl hs)
    | backslash => exact ⟨fun _ => by rw [hs]; decide, nofun⟩
    | percent => exact ⟨fun _ => by rw [hs]; decide, nofun⟩
  | cons c i ih =>
    have hnormal {s : Control} (hs : s.state = .normal) :
        Ends args (letters .normal (c :: i)) s ((s.stepNormal c).pass args i) := by
      rw [letters_normal, Control.stepNormal]
      split_ifs
      · refine (@ih { s with got := true, state := .percent } fun _ => rfl).of_eq rfl fun l hl => ?_
        simp [letters_percent_ne_nil i l hl]
      · exact (@ih { s with state := .backslash } nofun).of_eq rfl fun _ _ => rfl
      · have h := @ih s (by rw [hs]; nofun)
        rwa [hs] at h
    intro s hgot
    rw [Control.pass]
    cases hs : s.state with
    | normal =>
      rw [Control.step, hs]
      exact hnormal hs
    | backslash =>
      rw [Control.step, hs]
      dsimp only
      rw [letters]
      split_ifs
      · have h := @ih { s with o := c.toNat - 48, state := .octal } nofun
        rw [letters_octal] at h
        exact h.of_eq rfl fun _ _ => rfl
      · exact (@ih { s with state := .normal } nofun).of_eq rfl fun _ _ => rfl
    | octal =>
      rw [Control.step, hs]
      dsimp only
      rw [letters_octal]
      split_ifs with hc
      · have h37 : c ≠ 37 := by rintro rfl; exact absurd hc.1 (by decide)
        have h92 : c ≠ 92 := by rintro rfl; exact absurd hc.1 (by decide)
        have h := @ih { s with o := s.o <<< 3 ||| (c.toNat - 48) } (by simp [hs])
        rw [letters_normal, if_neg h37, if_neg h92]
        simp only [hs, letters_octal] at h
        exact h.of_eq rfl fun _ _ => rfl
      · exact (@hnormal { s with state := .normal } rfl).of_eq rfl fun _ _ => rfl
    | percent =>
      rw [Control.step, hs]
      dsimp only
      have hspec := @stepPercent_spec args s c
      rw [letters]
      by_cases hconv : isConversion c = true
      · rw [if_pos hconv] at hspec ⊢
        rcases hspec with ⟨hexit, htakes⟩ | ⟨t, hstep, hle, hlt, heq⟩
        · rw [hexit]
          intro l hl
          obtain ⟨l', -, rfl⟩ := Option.map_eq_some_iff.mp hl
          exact ⟨c, List.mem_cons_self, htakes⟩
        · rw [hstep, Option.bind_some]
          have h := @ih { s with state := .normal, t } nofun
          cases hr : Control.pass args { s with state := .normal, t } i with
          | none =>
            rw [hr] at h
            intro l hl
            obtain ⟨l', hl', rfl⟩ := Option.map_eq_some_iff.mp hl
            obtain ⟨d, hd, htakes⟩ := h l' hl'
            exact ⟨d, List.mem_cons_of_mem c hd, htakes⟩
          | some s' =>
            rw [hr] at h
            refine ⟨fun hnone => h.1 (Option.map_eq_none_iff.mp hnone), fun l hl => ?_⟩
            obtain ⟨l', hl', rfl⟩ := Option.map_eq_some_iff.mp hl
            exact (h.2 l' hl').cons (hgot hs) hle hlt heq
      · rw [if_neg hconv] at hspec ⊢
        rw [hspec, Option.bind_some]
        have h := @ih s hgot
        rwa [hs] at h

/-! The passes. -/

/-- When `printf` comes to an end. -/
def Ending (format : List UInt8) (args : List (List UInt8)) : Prop :=
  args = [] ∨ ∀ l ∈ letters .normal format, l = [] ∨ ∃ c ∈ l, takesArg c = true

theorem passes_isSome {format l : List UInt8} (hl : letters .normal format = some l)
    (htakes : ∃ c ∈ l, takesArg c = true) (fuel : ℕ) : ∀ {s : Control}, s.state.Open →
    argc args - s.t < fuel → (s.passes format args fuel).isSome := by
  induction fuel with
  | zero => exact fun _ h => absurd h (Nat.not_lt_zero _)
  | succ fuel ih =>
    intro s hopen hfuel
    have hpercent : s.state = .percent → s.got = true := by
      intro hs
      rw [hs] at hopen
      exact absurd hopen (by decide)
    have hfits := @pass_fits args format s hpercent
    rw [hopen.letters_eq, hl] at hfits
    rw [Control.passes]
    cases hpass : s.pass args format with
    | none => rfl
    | some s' =>
      rw [hpass] at hfits
      have hafter := hfits.2 l rfl
      dsimp only
      split_ifs with hend hagain
      · have hlt := hafter.lt htakes
        have hle := hafter.le
        exact ih hafter.isOpen (by omega)
      · rfl
      · rfl

theorem passes_none {format l : List UInt8} (hl : letters .normal format = some l) (hne : l ≠ [])
    (htakes : ∀ c ∈ l, takesArg c = false) (fuel : ℕ) : ∀ {s : Control}, s.state.Open →
    s.t < argc args → s.passes format args fuel = none := by
  induction fuel with
  | zero => exact fun _ _ => rfl
  | succ fuel ih =>
    intro s hopen hargs
    have hpercent : s.state = .percent → s.got = true := by
      intro hs
      rw [hs] at hopen
      exact absurd hopen (by decide)
    have hfits := @pass_fits args format s hpercent
    rw [hopen.letters_eq, hl] at hfits
    rw [Control.passes]
    cases hpass : s.pass args format with
    | none =>
      rw [hpass] at hfits
      obtain ⟨c, hc, htrue⟩ := hfits l rfl
      exact absurd (htakes c hc) (by rw [htrue]; decide)
    | some s' =>
      rw [hpass] at hfits
      have hafter := hfits.2 l rfl
      have ht := hafter.eq htakes
      have hgot : s'.got = true := by
        rw [hafter.got]
        simp [hne]
      dsimp only
      have hopen' : s'.state = .octal ∨ s'.state = .normal := hafter.isOpen
      rw [if_pos hopen', if_pos ⟨by omega, hgot⟩]
      exact ih hafter.isOpen (by omega)

theorem passes_one {format : List UInt8} {s : Control}
    (h : ∀ s', s.pass args format = some s' → s'.state.Open → ¬ (s'.t < argc args ∧ s'.got)) :
    (s.passes format args 1).isSome := by
  rw [Control.passes]
  cases hpass : s.pass args format with
  | none => rfl
  | some s' =>
    dsimp only
    split_ifs with hopen hagain
    · exact absurd hagain (h s' hpass hopen)
    · rfl
    · rfl

theorem stops_of_ending {format : List UInt8} {args : List (List UInt8)} (h : Ending format args) :
    Stops format args := by
  have hfits := @pass_fits args format start.control nofun
  by_cases htakes : ∃ l ∈ letters .normal format, ∃ c ∈ l, takesArg c = true
  · obtain ⟨l, hl, htakes⟩ := htakes
    exact ⟨_, passes_isSome hl htakes _ (.inr rfl) (Nat.lt_succ_self _)⟩
  · refine ⟨1, passes_one fun s' hpass hopen hagain => ?_⟩
    rw [hpass] at hfits
    cases hl : letters .normal format with
    | none => exact hfits.1 hl hopen
    | some l =>
      have hafter := hfits.2 l hl
      rcases h with rfl | h
      · have heq := hafter.eq fun c hc => by
          by_contra hne
          exact htakes ⟨l, hl, c, hc, Bool.not_eq_false _ ▸ hne⟩
        have hlt := hagain.1
        rw [heq] at hlt
        exact absurd hlt (by decide)
      · rcases h l hl with rfl | hc
        · have hgot := hafter.got
          rw [hagain.2] at hgot
          exact absurd hgot (by decide)
        · exact htakes ⟨l, hl, hc⟩

/-- `printf` comes to an end exactly if it has no arguments, or its format ends too early, has no
conversion, or has one that takes an argument. -/
theorem printf_stops_iff (format : List UInt8) (args : List (List UInt8)) :
    Stops format args ↔ Ending format args := by
  constructor
  · intro h
    by_contra hending
    rw [Ending] at hending
    push Not at hending
    obtain ⟨hargs, l, hl, hne, htakes⟩ := hending
    obtain ⟨fuel, hfuel⟩ := h
    have hcount : start.control.t < argc args := by
      have hpos := List.length_pos_iff.mpr hargs
      show 2 < args.length + 2
      omega
    rw [passes_none hl hne (fun c hc => Bool.not_eq_true _ ▸ htakes c hc) fuel (.inr rfl)
      hcount] at hfuel
    exact absurd hfuel (by decide)
  · exact stops_of_ending

/-- `%%` -/
theorem not_stops : ¬ ∀ format args, Stops format args := by
  intro h
  obtain ⟨fuel, hfuel⟩ := h [37, 37] [[97]]
  have htakes : ∀ c ∈ ([37] : List UInt8), takesArg c = false := by
    intro c hc
    obtain rfl := List.mem_singleton.mp hc
    rfl
  have hcount : start.control.t < argc [[97]] := Nat.lt_succ_self 2
  rw [@passes_none [[97]] [37, 37] [37] rfl (List.cons_ne_nil _ _) htakes fuel start.control
    (.inr rfl) hcount] at hfuel
  exact absurd hfuel (by decide)

end Unitas.Printf
