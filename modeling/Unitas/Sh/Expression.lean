import Mathlib.Data.List.TakeWhile
import Mathlib.Tactic.Ring
import Unitas.Sh.Test

/-! The expressions of `test`: what they mean, and that the parser finds it out. -/
namespace Unitas.Sh.Test
open CInt Decimal
open Macro (space)

/-! ### Integers -/

/-- A word that is an integer of 64 bits. -/
structure Numeral where
  blanks : Str
  /-- A sign, which is a minus if it is `true`. -/
  sign : Option Bool
  digits : Str
  blanks_space : ∀ c ∈ blanks, space c = true
  digits_ne : digits ≠ []
  digits_digit : ∀ c ∈ digits, isDigit c = true
  fits : -2 ^ 63 ≤ (if sign = some true then -1 else 1) * (decValue digits : ℤ) ∧
    (if sign = some true then -1 else 1) * (decValue digits : ℤ) < 2 ^ 63

def Numeral.value (n : Numeral) : ℤ :=
  (if n.sign = some true then -1 else 1) * (decValue n.digits : ℤ)

def Numeral.word (n : Numeral) : Str :=
  n.blanks ++ (match n.sign with | none => [] | some true => [45] | some false => [43]) ++ n.digits

theorem foldl_wrap (ds : Str) (h : ∀ c ∈ ds, isDigit c = true) (v : ℕ) (r : ℤ)
    (hr : r = wrap 64 v) :
    ds.foldl (fun r c => wrap 64 (r * 10 + c.toNat - 48)) r =
      wrap 64 (ds.foldl (fun v c => 10 * v + (c.toNat - 48)) v : ℕ) := by
  induction ds generalizing v r with
  | nil => exact hr
  | cons c ds ih =>
    obtain ⟨hc, hds⟩ := List.forall_mem_cons.mp h
    refine ih hds _ _ ?_
    have hc48 : 48 ≤ c.toNat := by
      simp only [isDigit, Bool.and_eq_true, decide_eq_true_eq, UInt8.le_iff_toNat_le] at hc
      exact hc.1
    have hcast : ((10 * v + (c.toNat - 48) : ℕ) : ℤ) = (v : ℤ) * 10 + (c.toNat - 48) := by omega
    rw [hr, hcast]
    unfold wrap
    dsimp only
    rw [add_sub_assoc, ← Int.bmod_add_bmod, Int.bmod_mul_bmod, Int.bmod_add_bmod]

theorem stoifll_word (n : Numeral) : stoifll n.word = n.value := by
  obtain ⟨blanks, sign, ds, hblanks, hne, hds, hfits⟩ := n
  have htake : ds.takeWhile isDigit = ds := List.takeWhile_eq_self_iff.mpr hds
  have hdrop (cp : Str) (hcp : ∀ c ∈ cp.head?, space c = false) :
      (blanks ++ cp).dropWhile space = cp := by
    rw [List.dropWhile_append_of_pos hblanks]
    cases cp with
    | nil => rfl
    | cons c cp =>
      have hc := hcp c rfl
      rw [List.dropWhile_cons_of_neg (by rw [hc]; decide)]
  have hfold := foldl_wrap ds hds 0 0 (by decide)
  have hvalue (sgn : ℤ) (h : -2 ^ 63 ≤ sgn * (decValue ds : ℤ) ∧
      sgn * (decValue ds : ℤ) < 2 ^ 63) :
      wrap 64 ((ds.takeWhile isDigit).foldl (fun r c => wrap 64 (r * 10 + c.toNat - 48)) 0 *
        sgn) = sgn * decValue ds := by
    rw [htake, hfold]
    unfold wrap
    rw [Int.bmod_mul_bmod, mul_comm]
    exact Int.bmod_eq_of_le h.1 h.2
  cases ds with
  | nil => exact absurd rfl hne
  | cons c ds =>
    have hc := hds c List.mem_cons_self
    have hspace : space c = false := by
      rw [Bool.eq_false_iff]
      intro h
      simp only [space, Bool.or_eq_true, decide_eq_true_eq] at h
      rcases h with rfl | rfl <;> cases hc
    rcases sign with _ | (_ | _)
    · have hword : Numeral.word ⟨blanks, none, c :: ds, hblanks, hne, hds, hfits⟩ =
          blanks ++ (c :: ds) := by
        simp [Numeral.word]
      rw [hword, stoifll, hdrop (c :: ds) (by simpa using hspace)]
      dsimp only
      split
      · next heq =>
        cases heq
        cases hc
      · next heq =>
        cases heq
        cases hc
      · exact hvalue 1 hfits
    · have hword : Numeral.word ⟨blanks, some false, c :: ds, hblanks, hne, hds, hfits⟩ =
          blanks ++ (43 :: c :: ds) := by
        simp [Numeral.word]
      rw [hword, stoifll, hdrop (43 :: c :: ds) (by simp [space])]
      exact hvalue 1 hfits
    · have hword : Numeral.word ⟨blanks, some true, c :: ds, hblanks, hne, hds, hfits⟩ =
          blanks ++ (45 :: c :: ds) := by
        simp [Numeral.word]
      rw [hword, stoifll, hdrop (45 :: c :: ds) (by simp [space])]
      exact hvalue (-1) hfits

/-! ### Trees -/

def isOperator (w : Str) : Bool :=
  (filop w).isSome || (intop w).isSome || w ∈ [wAnd, wOr, wNot, wOpen, wClose, wEq, wNe, wTty,
    wLen, wZero]

/-- A word that is neither an operator nor a parenthesis. -/
abbrev Operand := { w : Str // isOperator w = false }

inductive Prim
  | file (op : { a : Str // (filop a).isSome }) (f : Operand)
  | tty (f : Option Operand)
  | nonempty (w : Operand)
  | len (w : Operand)
  | zero (w : Operand)
  | eq (a b : Operand)
  | ne (a b : Operand)
  | int (op : { p2 : Str // (intop p2).isSome }) (a b : Numeral)
    (ha : isOperator a.word = false)

def Prim.words : Prim → List Str
  | .file op f => [op, f]
  | .tty none => [wTty]
  | .tty (some f) => [wTty, f]
  | .nonempty w => [w]
  | .len w => [wLen, w]
  | .zero w => [wZero, w]
  | .eq a b => [a, wEq, b]
  | .ne a b => [a, wNe, b]
  | .int op a b _ => [a.word, op, b.word]

def Prim.value (env : Env) : Prim → Bool
  | .file op f => env.file ((filop op).get op.2) f
  | .tty f => env.isatty (f.map Subtype.val)
  | .nonempty w => decide (w.1 ≠ [])
  | .len w => decide (w.1 ≠ [])
  | .zero w => decide (w.1 = [])
  | .eq a b => decide (a = b)
  | .ne a b => decide (a ≠ b)
  | .int op a b _ => ((intop op).get op.2).eval a.value b.value

/-- A primary of one word. -/
def Prim.bare : Prim → Bool
  | .tty none => true
  | .nonempty _ => true
  | _ => false

inductive Level
  | sexp | e1 | e2 | e3

/-- Expressions: `!` before a primary or a parenthesis, then `-a`, then `-o`. -/
inductive Tree : Level → Type
  | prim (p : Prim) : Tree .e3
  | paren (t : Tree .sexp) : Tree .e3
  | pos (t : Tree .e3) : Tree .e2
  | not (t : Tree .e3) : Tree .e2
  | last (t : Tree .e2) : Tree .e1
  | and (t : Tree .e2) (u : Tree .e1) : Tree .e1
  | one (t : Tree .e1) : Tree .sexp
  | or (t : Tree .e1) (u : Tree .sexp) : Tree .sexp

namespace Tree

def words : {l : Level} → Tree l → List Str
  | _, prim p => p.words
  | _, paren t => wOpen :: (t.words ++ [wClose])
  | _, pos t => t.words
  | _, not t => wNot :: t.words
  | _, last t => t.words
  | _, and t u => t.words ++ wAnd :: u.words
  | _, one t => t.words
  | _, or t u => t.words ++ wOr :: u.words

def value (env : Env) : {l : Level} → Tree l → Bool
  | _, prim p => p.value env
  | _, paren t => t.value env
  | _, pos t => t.value env
  | _, not t => !t.value env
  | _, last t => t.value env
  | _, and t u => t.value env && u.value env
  | _, one t => t.value env
  | _, or t u => t.value env || u.value env

/-- The last primary has one word, and is not in parentheses. -/
def bare : {l : Level} → Tree l → Bool
  | _, prim p => p.bare
  | _, paren _ => false
  | _, pos t => t.bare
  | _, not t => t.bare
  | _, last t => t.bare
  | _, and _ u => u.bare
  | _, one t => t.bare
  | _, or _ u => u.bare

/-- No parenthesis is closed right after a primary of one word. -/
def Closed : {l : Level} → Tree l → Prop
  | _, prim _ => True
  | _, paren t => t.bare = false ∧ t.Closed
  | _, pos t => t.Closed
  | _, not t => t.Closed
  | _, last t => t.Closed
  | _, and t u => t.Closed ∧ u.Closed
  | _, one t => t.Closed
  | _, or t u => t.Closed ∧ u.Closed

end Tree

/-! ### Primaries -/

variable {env : Env} {av : List Str} {ap : ℕ} {rest : List Str}

/-- The parser has found the value `v`, and `rest` is left. -/
def Finds (av : List Str) (v : Bool) (rest : List Str) (x : Except Stop (Bool × ℕ)) : Prop :=
  ∃ ap, x = .ok (v, ap) ∧ av.drop ap = rest

/-- What may follow a primary of one word. -/
def Stops (rest : List Str) : Prop := ∀ w ∈ rest.head?, w = wAnd ∨ w = wOr

theorem not_operator {w : Str} (h : isOperator w = false) :
    filop w = none ∧ intop w = none ∧ w ≠ wAnd ∧ w ≠ wOr ∧ w ≠ wNot ∧ w ≠ wOpen ∧ w ≠ wClose ∧
      w ≠ wEq ∧ w ≠ wNe ∧ w ≠ wTty ∧ w ≠ wLen ∧ w ≠ wZero := by
  simpa [isOperator, and_assoc] using h

theorem unary_operand {a : Str} (h : isOperator a = false) : unary env av a ap = none := by
  obtain ⟨hfil, -, -, -, -, -, -, -, -, htty, hlen, hzero⟩ := not_operator h
  unfold unary
  rw [hfil]
  dsimp only
  rw [if_neg htty, if_neg hlen, if_neg hzero]

theorem ne_open_of_filop {a : Str} (h : (filop a).isSome) : a ≠ wOpen ∧ a ≠ wNot := by
  constructor <;> rintro rfl <;> cases h

/-- A primary of two words, the first of which is an operator. -/
theorem finds_unary {a w : Str} (ha : a ≠ wOpen) (hw : w ≠ wEq ∧ w ≠ wNe) {f : Str → Bool}
    (hunary : ∀ ap, unary env av a ap =
      some (nxtarg0 av ap >>= fun r => .ok (f r.1, r.2)))
    (h : av.drop ap = a :: w :: rest) (fuel : ℕ) :
    Finds av (f w) rest (e3 env av (fuel + 1) ap) := by
  have h₁ := drop_succ h
  have h₂ := drop_succ h₁
  refine ⟨ap + 1 + 1, ?_, h₂⟩
  rw [e3, nxtarg0_cons h]
  simp only [bind, Except.bind]
  rw [if_neg ha, primary, nxtarg1_eq h₁]
  have hne : ¬ (some w = some wEq ∨ some w = some wNe) := by simpa using hw
  dsimp only [List.head?_cons]
  simp only [hne, if_false, hunary, nxtarg0_cons h₁]
  rfl

/-- A primary of three words. -/
theorem finds_binary {a p2 b : Str} {v : Bool} (ha : isOperator a = false)
    (hp2 : p2 ≠ wAnd ∧ p2 ≠ wOr) (hv : binary a p2 b = .ok v)
    (h : av.drop ap = a :: p2 :: b :: rest) (fuel : ℕ) :
    Finds av v rest (e3 env av (fuel + 1) ap) := by
  have h₁ := drop_succ h
  have h₂ := drop_succ h₁
  have h₃ := drop_succ h₂
  refine ⟨ap + 1 + 1 + 1, ?_, h₃⟩
  obtain ⟨-, -, -, -, -, hopen, -⟩ := not_operator ha
  rw [e3, nxtarg0_cons h]
  simp only [bind, Except.bind]
  rw [if_neg hopen, primary, nxtarg1_eq h₁, unary_operand ha, ite_self]
  dsimp only [List.head?_cons]
  rw [if_neg (not_or.mpr hp2), nxtarg0_cons h₂]
  simp only [bind, Except.bind]
  rw [hv]

theorem finds_nonempty {w : Str} (hw : isOperator w = false) (h : av.drop ap = w :: rest)
    (hrest : Stops rest) (fuel : ℕ) :
    Finds av (decide (w ≠ [])) rest (e3 env av (fuel + 1) ap) := by
  have h₁ := drop_succ h
  obtain ⟨-, -, -, -, -, hopen, -⟩ := not_operator hw
  rw [e3, nxtarg0_cons h]
  simp only [bind, Except.bind]
  rw [if_neg hopen, primary, nxtarg1_eq h₁, unary_operand hw, ite_self]
  dsimp only
  cases rest with
  | nil =>
    refine ⟨ap + 1 + 1, rfl, ?_⟩
    rw [← List.drop_drop, h₁]
    rfl
  | cons p2 rest =>
    have hp2 := hrest p2 rfl
    dsimp only [List.head?_cons]
    rw [if_pos hp2]
    exact ⟨ap + 1, rfl, h₁⟩

theorem finds_tty (f : Option Operand) (h : av.drop ap = (Prim.tty f).words ++ rest)
    (hrest : f = none → Stops rest) (fuel : ℕ) :
    Finds av (env.isatty (f.map Subtype.val)) rest (e3 env av (fuel + 1) ap) := by
  have hunary (ap : ℕ) : unary env av wTty ap = some (.ok (tty env av ap)) := rfl
  have htty (hdrop : av.drop ap = wTty :: av.drop (ap + 1))
      (hne : (av.drop (ap + 1)).head? ≠ some wEq ∧ (av.drop (ap + 1)).head? ≠ some wNe) :
      e3 env av (fuel + 1) ap = .ok (tty env av (ap + 1)) := by
    rw [e3, nxtarg0_cons hdrop]
    simp only [bind, Except.bind]
    rw [if_neg (by decide), primary, nxtarg1_eq rfl]
    dsimp only
    rw [if_neg (not_or.mpr hne), hunary]
  rcases f with _ | f
  · have h : av.drop ap = wTty :: rest := h
    have h₁ := drop_succ h
    have hhead : av[ap + 1]? = rest.head? := by rw [← List.head?_drop, h₁]
    rw [htty (by rw [h₁]; exact h)]
    · refine ⟨ap + 1, ?_, h₁⟩
      unfold tty
      rw [hhead]
      cases rest with
      | nil => rfl
      | cons w rest =>
        have hw := hrest rfl w rfl
        dsimp only [List.head?_cons]
        rw [if_pos hw]
        rfl
    · rw [h₁]
      cases rest with
      | nil => constructor <;> intro hnil <;> cases hnil
      | cons w rest =>
        have hw := hrest rfl w rfl
        constructor <;> intro hsome <;> cases hsome <;> exact absurd hw (by decide)
  · have h : av.drop ap = wTty :: f.1 :: rest := h
    have h₁ := drop_succ h
    have h₂ := drop_succ h₁
    obtain ⟨-, -, hand, hor, -, -, -, heq, hne, -⟩ := not_operator f.2
    have hhead : av[ap + 1]? = some f.1 := by rw [← List.head?_drop, h₁]; rfl
    rw [htty (by rw [h₁]; exact h)]
    · refine ⟨ap + 1 + 1, ?_, h₂⟩
      unfold tty
      rw [hhead]
      dsimp only
      rw [if_neg (not_or.mpr ⟨hand, hor⟩)]
      rfl
    · rw [h₁]
      exact ⟨fun h => heq (Option.some.inj h), fun h => hne (Option.some.inj h)⟩

theorem finds_prim (p : Prim) (h : av.drop ap = p.words ++ rest)
    (hrest : p.bare = true → Stops rest) (fuel : ℕ) :
    Finds av (p.value env) rest (e3 env av (fuel + 1) ap) := by
  have hopd (w : Operand) : w.1 ≠ wEq ∧ w.1 ≠ wNe := by
    obtain ⟨-, -, -, -, -, -, -, heq, hne, -⟩ := not_operator w.2
    exact ⟨heq, hne⟩
  have hequal (a b : Operand) : binary a wEq b = .ok (decide (a = b)) := by
    unfold binary
    rw [if_pos rfl]
    simp only [Subtype.ext_iff, eq_comm]
  have hdiffer (a b : Operand) : binary a wNe b = .ok (decide (a ≠ b)) := by
    unfold binary
    rw [if_neg (by decide), if_pos rfl]
    simp only [ne_eq, Subtype.ext_iff, eq_comm]
  cases p with
  | file op f =>
    have hunary (ap : ℕ) : unary env av op.1 ap = some (nxtarg0 av ap >>= fun r =>
        .ok (env.file ((filop op.1).get op.2) r.1, r.2)) := by
      obtain ⟨o, ho⟩ := Option.isSome_iff_exists.mp op.2
      unfold unary
      simp only [ho, Option.get_some]
    exact finds_unary (ne_open_of_filop op.2).1 (hopd f) hunary h fuel
  | tty f => exact finds_tty f h (by rintro rfl; exact hrest rfl) fuel
  | nonempty w => exact finds_nonempty w.2 h (hrest rfl) fuel
  | len w =>
    have hunary (ap : ℕ) : unary env av wLen ap =
        some (nxtarg0 av ap >>= fun r => .ok (decide (r.1 ≠ []), r.2)) := rfl
    exact finds_unary (f := fun w => decide (w ≠ [])) (by decide) (hopd w) hunary h fuel
  | zero w =>
    have hunary (ap : ℕ) : unary env av wZero ap =
        some (nxtarg0 av ap >>= fun r => .ok (decide (r.1 = []), r.2)) := rfl
    exact finds_unary (f := fun w => decide (w = [])) (by decide) (hopd w) hunary h fuel
  | eq a b => exact finds_binary a.2 ⟨by decide, by decide⟩ (hequal a b) h fuel
  | ne a b => exact finds_binary a.2 ⟨by decide, by decide⟩ (hdiffer a b) h fuel
  | int op a b ha =>
    obtain ⟨p2, hp2⟩ := op
    obtain ⟨o, ho⟩ := Option.isSome_iff_exists.mp hp2
    have hne (w : Str) (hw : intop w = none) : p2 ≠ w := by
      rintro rfl
      rw [hw] at ho
      cases ho
    have hbinary : binary a.word p2 b.word = .ok (((intop p2).get hp2).eval a.value b.value) := by
      unfold binary
      rw [if_neg (hne wEq rfl), if_neg (hne wNe rfl)]
      simp only [ho, Option.get_some, stoifll_word]
    exact finds_binary ha ⟨hne wAnd rfl, hne wOr rfl⟩ hbinary h fuel

/-! ### Trees of words -/

def Level.rank : Level → ℕ
  | .sexp => 4
  | .e1 => 3
  | .e2 => 2
  | .e3 => 1

/-- The function of the parser for a level. -/
def Level.parse (env : Env) (av : List Str) : Level → ℕ → ℕ → Except Stop (Bool × ℕ)
  | .sexp => Test.sexp env av
  | .e1 => Test.e1 env av
  | .e2 => Test.e2 env av
  | .e3 => Test.e3 env av

/-- What may not come next, for the parser to stop. -/
def Level.Ends : Level → List Str → Prop
  | .sexp, rest => rest.head? ≠ some wAnd ∧ rest.head? ≠ some wOr
  | .e1, rest => rest.head? ≠ some wAnd
  | _, _ => True

theorem Prim.words_head (p : Prim) : ∃ w ws, p.words = w :: ws ∧ w ≠ wNot ∧ w ≠ wOpen := by
  have hopd (w : Operand) : w.1 ≠ wNot ∧ w.1 ≠ wOpen := by
    obtain ⟨-, -, -, -, hnot, hopen, -⟩ := not_operator w.2
    exact ⟨hnot, hopen⟩
  cases p with
  | file op f => exact ⟨_, _, rfl, (ne_open_of_filop op.2).symm⟩
  | tty f => cases f <;> exact ⟨_, _, rfl, by decide, by decide⟩
  | nonempty w => exact ⟨_, _, rfl, hopd w⟩
  | len w => exact ⟨_, _, rfl, by decide, by decide⟩
  | zero w => exact ⟨_, _, rfl, by decide, by decide⟩
  | eq a b => exact ⟨_, _, rfl, hopd a⟩
  | ne a b => exact ⟨_, _, rfl, hopd a⟩
  | int op a b ha => exact ⟨_, _, rfl, hopd ⟨a.word, ha⟩⟩

theorem Tree.words_head (t : Tree .e3) : ∃ w ws, t.words = w :: ws ∧ w ≠ wNot := by
  cases t with
  | prim p =>
    obtain ⟨w, ws, h, hnot, -⟩ := p.words_head
    exact ⟨w, ws, h, hnot⟩
  | paren t => exact ⟨_, _, rfl, by decide⟩

theorem finds_paren {t : Tree .sexp} {fuel : ℕ}
    (h : av.drop ap = wOpen :: (t.words ++ wClose :: rest))
    (ht : Finds av (t.value env) (wClose :: rest) (sexp env av fuel (ap + 1))) :
    Finds av (t.value env) rest (e3 env av (fuel + 1) ap) := by
  obtain ⟨ap', hrun, hdrop⟩ := ht
  refine ⟨ap' + 1, ?_, drop_succ hdrop⟩
  rw [e3, nxtarg0_cons h]
  simp only [bind, Except.bind]
  rw [if_pos trivial, hrun]
  dsimp only
  rw [nxtarg0_cons hdrop]
  rfl

theorem finds_pos {t : Tree .e3} {fuel : ℕ} {v : Bool} (h : av.drop ap = t.words ++ rest)
    (ht : Finds av v rest (e3 env av fuel ap)) : Finds av v rest (e2 env av (fuel + 1) ap) := by
  obtain ⟨w, ws, hwords, hnot⟩ := t.words_head
  rw [hwords, List.cons_append] at h
  rw [e2, nxtarg0_cons h]
  simp only [bind, Except.bind]
  rw [if_neg hnot, Nat.add_sub_cancel]
  exact ht

theorem finds_not {ws : List Str} {fuel : ℕ} {v : Bool} (h : av.drop ap = wNot :: ws)
    (ht : Finds av v rest (e3 env av fuel (ap + 1))) :
    Finds av (!v) rest (e2 env av (fuel + 1) ap) := by
  obtain ⟨ap', hrun, hdrop⟩ := ht
  refine ⟨ap', ?_, hdrop⟩
  rw [e2, nxtarg0_cons h]
  simp only [bind, Except.bind]
  rw [if_pos trivial, hrun]

theorem finds_last {fuel : ℕ} {v : Bool} (hends : Level.e1.Ends rest)
    (ht : Finds av v rest (e2 env av fuel ap)) : Finds av v rest (e1 env av (fuel + 1) ap) := by
  obtain ⟨ap', hrun, hdrop⟩ := ht
  refine ⟨ap', ?_, hdrop⟩
  rw [e1, hrun]
  simp only [bind, Except.bind]
  rw [nxtarg1_eq hdrop]
  exact if_neg hends

theorem finds_and {ws : List Str} {fuel : ℕ} {v u : Bool}
    (ht : Finds av v (wAnd :: ws) (e2 env av fuel ap))
    (hu : ∀ ap, av.drop ap = ws → Finds av u rest (e1 env av fuel ap)) :
    Finds av (v && u) rest (e1 env av (fuel + 1) ap) := by
  obtain ⟨ap', hrun, hdrop⟩ := ht
  obtain ⟨ap'', hrun', hdrop'⟩ := hu (ap' + 1) (drop_succ hdrop)
  refine ⟨ap'', ?_, hdrop'⟩
  rw [e1, hrun]
  simp only [bind, Except.bind]
  rw [nxtarg1_eq hdrop]
  refine (if_pos rfl).trans ?_
  dsimp only
  rw [hrun']

theorem finds_one {fuel : ℕ} {v : Bool} (hends : Level.sexp.Ends rest)
    (ht : Finds av v rest (e1 env av fuel ap)) : Finds av v rest (sexp env av (fuel + 1) ap) := by
  obtain ⟨ap', hrun, hdrop⟩ := ht
  refine ⟨ap', ?_, hdrop⟩
  rw [sexp, hrun]
  simp only [bind, Except.bind]
  rw [nxtarg1_eq hdrop]
  exact if_neg hends.2

theorem finds_or {ws : List Str} {fuel : ℕ} {v u : Bool}
    (ht : Finds av v (wOr :: ws) (e1 env av fuel ap))
    (hu : ∀ ap, av.drop ap = ws → Finds av u rest (sexp env av fuel ap)) :
    Finds av (v || u) rest (sexp env av (fuel + 1) ap) := by
  obtain ⟨ap', hrun, hdrop⟩ := ht
  obtain ⟨ap'', hrun', hdrop'⟩ := hu (ap' + 1) (drop_succ hdrop)
  refine ⟨ap'', ?_, hdrop'⟩
  rw [sexp, hrun]
  simp only [bind, Except.bind]
  rw [nxtarg1_eq hdrop]
  refine (if_pos rfl).trans ?_
  dsimp only
  rw [hrun']

theorem stops_of_mem {w : Str} (hw : w = wAnd ∨ w = wOr) (ws : List Str) : Stops (w :: ws) := by
  rintro w' ⟨⟩
  exact hw

theorem finds_tree {l : Level} (t : Tree l) (hclosed : t.Closed) (fuel ap : ℕ) (rest : List Str)
    (h : av.drop ap = t.words ++ rest) (hfuel : 4 * (t.words ++ rest).length + l.rank ≤ fuel)
    (hbare : t.bare = true → Stops rest) (hends : l.Ends rest) :
    Finds av (t.value env) rest (l.parse env av fuel ap) := by
  obtain ⟨fuel, rfl⟩ : ∃ f, fuel = f + 1 := by
    refine ⟨fuel - 1, ?_⟩
    cases l <;> simp only [Level.rank] at hfuel <;> omega
  induction t generalizing fuel ap rest with
  | prim p => exact finds_prim p h hbare fuel
  | paren t ih =>
    have hwords : (Tree.paren t).words ++ rest = wOpen :: (t.words ++ wClose :: rest) := by
      simp [Tree.words]
    rw [hwords] at h hfuel
    rw [List.length_cons] at hfuel
    obtain ⟨f, rfl⟩ : ∃ f, fuel = f + 1 := ⟨fuel - 1, by simp only [Level.rank] at hfuel; omega⟩
    have hnotbare (h : t.bare = true) : Stops (wClose :: rest) := by
      rw [hclosed.1] at h
      cases h
    have hclose : Level.sexp.Ends (wClose :: rest) :=
      ⟨fun h => absurd (Option.some.inj h) (by decide),
        fun h => absurd (Option.some.inj h) (by decide)⟩
    refine finds_paren h (ih hclosed.2 _ _ (drop_succ h) hnotbare hclose f ?_)
    simp only [Level.rank] at hfuel ⊢
    omega
  | pos t ih =>
    obtain ⟨f, rfl⟩ : ∃ f, fuel = f + 1 := ⟨fuel - 1, by simp only [Level.rank] at hfuel; omega⟩
    refine finds_pos h (ih hclosed _ _ h hbare trivial f ?_)
    simp only [Level.rank, Tree.words] at hfuel ⊢
    omega
  | not t ih =>
    have h : av.drop ap = wNot :: (t.words ++ rest) := h
    obtain ⟨f, rfl⟩ : ∃ f, fuel = f + 1 := ⟨fuel - 1, by simp only [Level.rank] at hfuel; omega⟩
    refine finds_not h (ih hclosed _ _ (drop_succ h) hbare trivial f ?_)
    simp only [Level.rank, Tree.words, List.cons_append, List.length_cons] at hfuel ⊢
    omega
  | last t ih =>
    obtain ⟨f, rfl⟩ : ∃ f, fuel = f + 1 := ⟨fuel - 1, by simp only [Level.rank] at hfuel; omega⟩
    refine finds_last hends (ih hclosed _ _ h hbare trivial f ?_)
    simp only [Level.rank, Tree.words] at hfuel ⊢
    omega
  | and t u iht ihu =>
    have hwords : (Tree.and t u).words ++ rest = t.words ++ wAnd :: (u.words ++ rest) := by
      simp [Tree.words]
    rw [hwords] at h hfuel
    rw [List.length_append, List.length_cons] at hfuel
    simp only [Level.rank] at hfuel
    obtain ⟨f, rfl⟩ : ∃ f, fuel = f + 1 := ⟨fuel - 1, by omega⟩
    refine finds_and (iht hclosed.1 _ _ h (fun _ => stops_of_mem (.inl rfl) _) trivial f ?_)
      fun ap hdrop => ihu hclosed.2 _ _ hdrop hbare hends f ?_
    · rw [List.length_append, List.length_cons]
      simp only [Level.rank]
      omega
    · simp only [Level.rank]
      omega
  | one t ih =>
    obtain ⟨f, rfl⟩ : ∃ f, fuel = f + 1 := ⟨fuel - 1, by simp only [Level.rank] at hfuel; omega⟩
    refine finds_one hends (ih hclosed _ _ h hbare hends.1 f ?_)
    simp only [Level.rank, Tree.words] at hfuel ⊢
    omega
  | or t u iht ihu =>
    have hwords : (Tree.or t u).words ++ rest = t.words ++ wOr :: (u.words ++ rest) := by
      simp [Tree.words]
    rw [hwords] at h hfuel
    rw [List.length_append, List.length_cons] at hfuel
    simp only [Level.rank] at hfuel
    obtain ⟨f, rfl⟩ : ∃ f, fuel = f + 1 := ⟨fuel - 1, by omega⟩
    have hor : Level.e1.Ends (wOr :: (u.words ++ rest)) :=
      fun h => absurd (Option.some.inj h) (by decide)
    refine finds_or (iht hclosed.1 _ _ h (fun _ => stops_of_mem (.inr rfl) _) hor f ?_)
      fun ap hdrop => ihu hclosed.2 _ _ hdrop hbare hends f ?_
    · rw [List.length_append, List.length_cons]
      simp only [Level.rank]
      omega
    · simp only [Level.rank]
      omega

theorem Tree.words_ne_nil {l : Level} (t : Tree l) : t.words ≠ [] := by
  induction t with
  | prim p =>
    obtain ⟨w, ws, h, -⟩ := p.words_head
    rw [Tree.words, h]
    exact List.cons_ne_nil w ws
  | paren t ih => exact List.cons_ne_nil _ _
  | pos t ih => exact ih
  | not t ih => exact List.cons_ne_nil _ _
  | last t ih => exact ih
  | and t u iht ihu => exact List.append_ne_nil_of_left_ne_nil iht _
  | one t ih => exact ih
  | or t u iht ihu => exact List.append_ne_nil_of_left_ne_nil iht _

/-! ### The command -/

/-- `test` finds out what an expression is, and reads it all. -/
def Evaluates (env : Env) (t : Tree .sexp) (com : List Str) : Prop :=
  ∃ ap, test env com = .ok (if t.value env then 0 else 1, ap) ∧ t.words.length < ap

theorem evaluates {t : Tree .sexp} (ht : t.Closed) {com : List Str} {name : Str}
    (hargs : args com = .ok (name :: t.words)) : Evaluates env t com := by
  have hlen : 0 < t.words.length := List.length_pos_iff.mpr t.words_ne_nil
  have hfuel : 4 * (t.words ++ []).length + Level.sexp.rank ≤
      4 * (name :: t.words).length + 4 := by
    simp only [List.append_nil, List.length_cons, Level.rank]
    omega
  obtain ⟨ap, hrun, hdrop⟩ : Finds (name :: t.words) (t.value env) []
      (Level.sexp.parse env (name :: t.words) (4 * (name :: t.words).length + 4) 1) :=
    finds_tree t ht _ 1 [] (by simp) hfuel (fun _ => nofun) ⟨nofun, nofun⟩
  have hrun : sexp env (name :: t.words) (4 * (name :: t.words).length + 4) 1 =
    .ok (t.value env, ap) := hrun
  refine ⟨ap, ?_, List.drop_eq_nil_iff.mp hdrop⟩
  unfold test
  rw [hargs]
  simp only [bind, Except.bind]
  rw [if_neg (by simp only [List.length_cons]; omega), hrun]

/-- An expression in which no parenthesis is closed right after a primary of one word has its value.
Any arguments are read up to the end, or to one that is neither `-a` nor `-o`, or `test` fails. -/
theorem test_eq (env : Env) :
    (∀ t : Tree .sexp, t.Closed →
      (∀ name, name ≠ wBracket → Evaluates env t (name :: t.words)) ∧
        Evaluates env t (wBracket :: (t.words ++ [wBracketEnd]))) ∧
      ∀ com, (∃ e, test env com = .error e ∧ e ≠ .unfinished) ∨
        ∃ av status ap, args com = .ok av ∧ test env com = .ok (status, ap) ∧
          av[ap]? ≠ some wAnd ∧ av[ap]? ≠ some wOr := by
  refine ⟨fun t ht => ⟨fun name hname => ?_, ?_⟩, fun com => ?_⟩
  · have hargs : args (name :: t.words) = .ok (name :: t.words) :=
      if_neg fun h => hname (Option.some.inj h)
    exact evaluates ht hargs
  · have hargs : args (wBracket :: (t.words ++ [wBracketEnd])) = .ok (wBracket :: t.words) := by
      unfold args
      rw [List.head?_cons, if_pos rfl, ← List.cons_append, List.getLast?_concat, if_pos rfl,
        List.dropLast_concat]
    exact evaluates ht hargs
  · unfold test
    cases hargs : args com with
    | error e =>
      refine .inl ⟨e, rfl, ?_⟩
      rintro rfl
      unfold args at hargs
      split_ifs at hargs
      all_goals cases hargs
    | ok av =>
      simp only [bind, Except.bind]
      by_cases hlen : av.length ≤ 1
      · rw [if_pos hlen]
        have hnone : av[1]? = none := List.getElem?_eq_none hlen
        exact .inr ⟨av, 1, 1, rfl, rfl, by rw [hnone]; nofun, by rw [hnone]; nofun⟩
      · rw [if_neg hlen]
        have hmoves := (@moves env av (4 * av.length + 4)).1 1 (by omega)
        cases hrun : sexp env av (4 * av.length + 4) 1 with
        | error e =>
          rw [hrun] at hmoves
          exact .inl ⟨e, rfl, fun h => hmoves.1 (congrArg _ h)⟩
        | ok r => exact .inr ⟨av, _, r.2, rfl, rfl, sexp_stop _ hrun⟩

/-- No file is there, and no terminal. -/
def noFiles : Env := ⟨fun _ _ => false, fun _ => false⟩

/-- `! ( a = b )`. -/
def notEqual : Tree .sexp :=
  .one (.last (.not (.paren (.one (.last (.pos (.prim (.eq ⟨[97], rfl⟩ ⟨[98], rfl⟩))))))))

theorem test_eq_notEqual :
    Evaluates noFiles notEqual (wBracket :: (notEqual.words ++ [wBracketEnd])) :=
  ((test_eq noFiles).1 notEqual ⟨rfl, trivial⟩).2

/-- `test a = a b` does not look at its last argument. -/
theorem not_test_reads_all :
    ¬ ∀ (env : Env) (com : List Str), (∃ e, test env com = .error e ∧ e ≠ .unfinished) ∨
      ∃ av status ap, args com = .ok av ∧ test env com = .ok (status, ap) ∧ av.length ≤ ap := by
  intro h
  have hrun : test noFiles [[116], [97], wEq, [97], [98]] = .ok (0, 4) := rfl
  rcases h noFiles [[116], [97], wEq, [97], [98]] with ⟨e, he, -⟩ | ⟨av, status, ap, hav, hap, hle⟩
  · rw [hrun] at he
    cases he
  · rw [hrun] at hap
    cases hav
    cases hap
    exact absurd hle (by decide)

end Unitas.Sh.Test
