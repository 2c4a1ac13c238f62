import Unitas.Bc.Code

/-! The text of an expression leaves its value on the stack of `dc`. -/
namespace Unitas.Bc

open Dc.Compare (Rel)

variable {Num : Type} (A : Arith Num)

/-! ### The machine that holds a store -/

def varOf (c : UInt8) : Option Letter := (List.finRange 26).find? fun x => letr x == c

def arrayOf (c : UInt8) : Option Letter := (List.finRange 26).find? fun x => geta x == c

/-- The registers of a store; `env` has those that no letter names. -/
def table (σ : Store Num) (env : UInt8 → Val Num) (c : UInt8) : Val Num :=
  match varOf c with
  | some x => .num (σ.vars x)
  | none => if c = 46 then .num σ.last else env c

def arrays (σ : Store Num) (c : UInt8) (n : ℕ) : Val Num :=
  match arrayOf c with
  | some x => .num (σ.elems x n)
  | none => .num A.zero

def machine (σ : Store Num) (env : UInt8 → Val Num) (stack : List (Val Num))
    (input : List UInt8) : Machine Num :=
  ⟨input, stack, table σ env, arrays A σ, σ.regs, σ.out⟩

variable {A} {σ τ υ : Store Num} {env : UInt8 → Val Num} {stack : List (Val Num)}
  {rest : List UInt8} {m : Machine Num} {v : Num} {x : Letter} {n : ℕ}

theorem varOf_letr : ∀ x, varOf (letr x) = some x := by decide

theorem arrayOf_geta : ∀ x, arrayOf (geta x) = some x := by decide

theorem letr_of_varOf {c : UInt8} (h : varOf c = some x) : letr x = c := by
  simpa using List.find?_some h

theorem geta_of_arrayOf {c : UInt8} (h : arrayOf c = some x) : geta x = c := by
  simpa using List.find?_some h

theorem table_letr : table σ env (letr x) = .num (σ.vars x) := by rw [table, varOf_letr]

theorem table_last : table σ env 46 = .num σ.last := rfl

theorem arrays_geta : arrays A σ (geta x) n = .num (σ.elems x n) := by rw [arrays, arrayOf_geta]

theorem table_setVar : Function.update (table σ env) (letr x) (.num v) =
    table { σ with vars := Function.update σ.vars x v } env := by
  funext c
  by_cases hc : c = letr x
  · subst hc
    simp only [Function.update_self, table_letr]
  · rw [Function.update_of_ne hc, table, table]
    cases h : varOf c with
    | none => rfl
    | some y =>
      have hy : y ≠ x := fun hyx => hc (by rw [← hyx, letr_of_varOf h])
      simp only [Function.update_of_ne hy]

theorem table_setLast : Function.update (table σ env) 46 (.num v) =
    table { σ with last := v } env := by
  funext c
  by_cases hc : c = 46
  · subst hc
    rw [Function.update_self, table_last]
  · rw [Function.update_of_ne hc, table, table, if_neg hc, if_neg hc]

theorem arrays_setElem : Function.update (arrays A σ) (geta x)
    (Function.update (arrays A σ (geta x)) n (.num v)) =
    arrays A { σ with elems := Function.update σ.elems x (Function.update (σ.elems x) n v) } := by
  funext c k
  by_cases hc : c = geta x
  · subst hc
    rw [Function.update_self, arrays_geta]
    by_cases hk : k = n
    · subst hk
      simp only [Function.update_self]
    · simp only [Function.update_self, Function.update_of_ne hk, arrays_geta]
  · rw [Function.update_of_ne hc, arrays, arrays]
    cases h : arrayOf c with
    | none => rfl
    | some y =>
      have hy : y ≠ x := fun hyx => hc (by rw [← hyx, geta_of_arrayOf h])
      simp only [Function.update_of_ne hy]

theorem pushp_machine {w : Val Num} (h : stack.length + 1 < STKSZ) :
    (machine A σ env stack rest).pushp w = some (machine A σ env (w :: stack) rest) := if_pos h

/-- One command that is no number. -/
theorem reaches_cmd {c : UInt8} {cmd : Cmd} (hc : (digit c || c == 46) = false)
    (hcmd : commands.lookup c = some cmd)
    (h : cmd.execute A (machine A σ env stack rest) = some m) :
    Reaches A (machine A σ env stack (c :: rest)) m := by
  refine .single ?_
  rw [step]
  simp only [machine, hc, hcmd, Bool.false_eq_true, if_false, Option.bind_some]
  exact h

theorem reaches_blank : Reaches A (machine A σ env stack (32 :: rest))
    (machine A σ env stack rest) := reaches_cmd rfl rfl rfl

theorem reaches_newline : Reaches A (machine A σ env stack (10 :: rest))
    (machine A σ env stack rest) := reaches_cmd rfl rfl rfl

theorem reaches_bin {op : BinOp} {a b : Num} (h : A.bin op σ.regs a b = some v) :
    Reaches A (machine A σ env (.num b :: .num a :: stack) (op.char :: rest))
      (machine A σ env (.num v :: stack) rest) := by
  have hop : (Cmd.bin op).execute A (machine A σ env (.num b :: .num a :: stack) rest) =
      some (machine A σ env (.num v :: stack) rest) := by
    simp only [Cmd.execute, machine, h, Option.map_some]
  cases op <;> exact reaches_cmd rfl rfl hop

theorem reaches_fn {f : Fn} {a : Num} (h : A.fn f σ.regs a = some v) :
    Reaches A (machine A σ env (.num a :: stack) (f.char :: rest))
      (machine A σ env (.num v :: stack) rest) := by
  have hf : (Cmd.fn f).execute A (machine A σ env (.num a :: stack) rest) =
      some (machine A σ env (.num v :: stack) rest) := by
    simp only [Cmd.execute, machine, h, Option.map_some]
  cases f <;> exact reaches_cmd rfl rfl hf

theorem reaches_dup {w : Val Num} (h : (w :: stack).length + 1 < STKSZ) :
    Reaches A (machine A σ env (w :: stack) (100 :: rest))
      (machine A σ env (w :: w :: stack) rest) := reaches_cmd rfl rfl (pushp_machine h)

theorem reaches_load {c : UInt8} (h : stack.length + 1 < STKSZ) :
    Reaches A (machine A σ env stack (108 :: c :: rest))
      (machine A σ env (table σ env c :: stack) rest) := reaches_cmd rfl rfl (pushp_machine h)

theorem reaches_setVar : Reaches A (machine A σ env (.num v :: stack) (115 :: letr x :: rest))
    (machine A { σ with vars := Function.update σ.vars x v } env stack rest) := by
  refine reaches_cmd rfl rfl ?_
  simp only [Cmd.execute, machine, table_setVar]
  rfl

/-- `s.` -/
theorem reaches_setLast : Reaches A (machine A σ env (.num v :: stack) (115 :: 46 :: rest))
    (machine A { σ with last := v } env stack rest) := by
  refine reaches_cmd rfl rfl ?_
  simp only [Cmd.execute, machine, table_setLast]
  rfl

theorem reaches_get {r : Setting} (h : stack.length + 1 < STKSZ) :
    Reaches A (machine A σ env stack (r.getChar :: rest))
      (machine A σ env (.num (σ.regs r) :: stack) rest) := by
  cases r <;> exact reaches_cmd rfl rfl (pushp_machine h)

theorem reaches_set {r : Setting} {w : Num} (h : A.set r v = some w) :
    Reaches A (machine A σ env (.num v :: stack) (r.setChar :: rest))
      (machine A { σ with regs := Function.update σ.regs r w } env stack rest) := by
  have hr : (Cmd.set r).execute A (machine A σ env (.num v :: stack) rest) =
      some (machine A { σ with regs := Function.update σ.regs r w } env stack rest) := by
    simp only [Cmd.execute, machine, h, Option.map_some]
    rfl
  cases r <;> exact reaches_cmd rfl rfl hr

theorem reaches_index {k : Num} (h : A.index k = some n) :
    Reaches A (machine A σ env (.num k :: stack) (59 :: geta x :: rest))
      (machine A σ env (.num (σ.elems x n) :: stack) rest) := by
  refine reaches_cmd rfl rfl ?_
  simp only [Cmd.execute, machine, h, Option.map_some, arrays_geta]

theorem reaches_store {k : Num} (h : A.index k = some n) :
    Reaches A (machine A σ env (.num k :: .num v :: stack) (58 :: geta x :: rest))
      (machine A { σ with elems := Function.update σ.elems x (Function.update (σ.elems x) n v) }
        env stack rest) := by
  refine reaches_cmd rfl rfl ?_
  simp only [Cmd.execute, machine, h, Option.map_some, arrays_setElem]
  rfl

theorem reaches_print : Reaches A (machine A σ env (.num v :: stack) (112 :: rest))
    (machine A { σ with out := σ.out ++ A.print σ.regs v } env (.num v :: stack) rest) :=
  reaches_cmd rfl rfl rfl

/-! ### Numbers -/

theorem readin_chars (c : Const) (h : stops rest) :
    readin false false (c.chars ++ rest) = some (c.chars, rest) := by
  rw [Const.chars, List.append_assoc, readin_digits]
  cases hf : c.frac with
  | none => simp [readin_stop h]
  | some ds =>
    have hds : readin true false (ds.map Subtype.val ++ rest) =
        some (ds.map Subtype.val, rest) := by
      simp only [readin_digits, readin_stop h, Option.map_some, List.append_nil]
    simp only [List.cons_append, readin, Bool.false_eq_true, if_false, if_true, hds,
      Option.map_some]

theorem reaches_number {c : UInt8} {s : List UInt8} (hroom : stack.length + 1 < STKSZ)
    (hc : (digit c || c == 46) = true)
    (h : readin false false (c :: s ++ rest) = some (c :: s, rest)) :
    Reaches A (machine A σ env stack (c :: s ++ rest))
      (machine A σ env (.num (A.num σ.regs (c :: s)) :: stack) rest) := by
  refine .single ?_
  rw [step]
  simp only [machine, List.cons_append, hc, if_true]
  rw [← List.cons_append, h]
  exact pushp_machine hroom

/-- `0` and `1`. -/
theorem reaches_digit {c : UInt8} (hroom : stack.length + 1 < STKSZ) (hc : digit c = true)
    (h : stops rest) :
    Reaches A (machine A σ env stack (c :: rest))
      (machine A σ env (.num (A.num σ.regs [c]) :: stack) rest) := by
  refine reaches_number (s := []) hroom (by rw [hc, Bool.true_or]) ?_
  simpa [readin_stop h] using @readin_digits false rest [⟨c, hc⟩]

theorem Const.first (c : Const) (h : c.neg = false) :
    ∃ d s, c.chars = d :: s ∧ (digit d || d == 46) = true := by
  cases hi : c.int with
  | cons d ds => exact ⟨d, _, by rw [Const.chars, hi]; rfl, by rw [d.2, Bool.true_or]⟩
  | nil =>
    cases hf : c.frac with
    | some ds => exact ⟨46, _, by rw [Const.chars, hi, hf]; rfl, rfl⟩
    | none =>
      rcases c.nonempty with hn | hn | hn
      · exact absurd (h.symm.trans hn) (by decide)
      · exact absurd hi hn
      · exact absurd hf hn

/-! ### Expressions -/

variable (A) in
/-- The text of an expression leaves its value on the stack. -/
def Expr.Runs (e : Expr) : Prop :=
  ∀ {σ τ : Store Num} {v : Num} {env : UInt8 → Val Num} {stack : List (Val Num)}
    {rest : List UInt8}, e.eval A σ = some (v, τ) → stack.length + e.depth < STKSZ → stops rest →
    Reaches A (machine A σ env stack (e.text ++ rest)) (machine A τ env (.num v :: stack) rest)

variable (A) in
structure Place.Runs (p : Place) : Prop where
  fetch : ∀ {σ τ : Store Num} {v : Num} {env : UInt8 → Val Num} {stack : List (Val Num)}
    {rest : List UInt8}, p.fetch A σ = some (v, τ) → stack.length + p.readDepth < STKSZ →
    Reaches A (machine A σ env stack (p.read ++ rest)) (machine A τ env (.num v :: stack) rest)
  put : ∀ {σ τ : Store Num} {v : Num} {env : UInt8 → Val Num} {stack : List (Val Num)}
    {rest : List UInt8}, p.put A v σ = some τ → stack.length + p.writeDepth < STKSZ →
    Reaches A (machine A σ env (.num v :: stack) (p.write ++ rest)) (machine A τ env stack rest)

theorem stops_bin (op : BinOp) : stops (op.char :: rest) := by cases op <;> rfl

theorem stops_fn (f : Fn) : stops (f.char :: rest) := by cases f <;> rfl

theorem stops_append {s t : List UInt8} (h : ∀ rest, stops (s ++ rest)) :
    ∀ rest, stops (s ++ t ++ rest) := fun rest => by
  rw [List.append_assoc]
  exact h _

/-- No text begins with a character of a number. -/
theorem Expr.stops (e : Expr) : ∀ rest, stops (e.text ++ rest) := by
  refine @Expr.rec (fun e => ∀ rest, Bc.stops (e.text ++ rest))
    (fun p => ∀ rest, Bc.stops (p.read ++ rest)) ?_ ?_ ?_ ?_ ?_ ?_ ?_ ?_ ?_ ?_ ?_ ?_ ?_ e
  · exact fun c rest => rfl
  · exact fun rest => rfl
  · exact fun v hv rest => by rw [Expr.text]; exact hv rest
  · exact fun e _ rest => by rw [Expr.text]; rfl
  · exact fun op a b ha _ => by rw [Expr.text]; exact stops_append ha
  · exact fun f e he => by rw [Expr.text]; exact stops_append he
  · exact fun s v hv => by rw [Expr.text]; exact stops_append hv
  · exact fun s v hv => by rw [Expr.text]; exact stops_append hv
  · exact fun v e _ he => by rw [Expr.text]; exact stops_append he
  · exact fun v op e hv _ => by rw [Expr.text]; exact stops_append hv
  · exact fun x rest => by rw [Place.read]; rfl
  · exact fun x i hi => by rw [Place.read]; exact stops_append hi
  · exact fun r rest => by rw [Place.read]; cases r <;> rfl

theorem Place.stops_write (p : Place) : ∀ rest, Bc.stops (p.write ++ rest) := by
  cases p with
  | var x => exact fun rest => by rw [Place.write]; rfl
  | elem x i => exact fun rest => by rw [Place.write]; exact stops_append i.stops rest
  | setting r => exact fun rest => by rw [Place.write]; cases r <;> rfl

theorem runs_const (c : Const) : (Expr.const c).Runs A := by
  intro σ τ v env stack rest h hd hs
  rw [Expr.eval, Option.some_inj, Prod.mk.injEq] at h
  rw [Expr.depth] at hd
  obtain ⟨rfl, rfl⟩ := h
  rw [Expr.text, Const.text, Const.value]
  refine .trans reaches_blank ?_
  cases hn : c.neg with
  | true =>
    refine reaches_cmd rfl rfl ?_
    change Option.bind (readin false false (c.chars ++ rest)) _ = _
    rw [readin_chars c hs]
    exact pushp_machine hd
  | false =>
    obtain ⟨d, s, hds, hfirst⟩ := c.first hn
    have hread := readin_chars c hs
    rw [hds] at hread ⊢
    exact reaches_number hd hfirst hread

theorem runs_last : Expr.last.Runs A := by
  intro σ τ v env stack rest h hd hs
  rw [Expr.eval, Option.some_inj, Prod.mk.injEq] at h
  rw [Expr.depth] at hd
  obtain ⟨rfl, rfl⟩ := h
  rw [Expr.text]
  exact reaches_load hd

theorem runs_get {p : Place} (hp : p.Runs A) : (Expr.get p).Runs A := by
  intro σ τ v env stack rest h hd hs
  rw [Expr.eval] at h
  rw [Expr.depth] at hd
  rw [Expr.text]
  exact hp.fetch h hd

theorem runs_neg {e : Expr} (he : e.Runs A) : (Expr.neg e).Runs A := by
  intro σ τ v env stack rest h hd hs
  simp only [Expr.eval, Option.bind_eq_bind, Option.bind_eq_some_iff] at h
  rw [Expr.depth] at hd
  obtain ⟨p, hp, r, hr, h⟩ := h
  cases h
  rw [Expr.text, List.cons_append, List.cons_append, List.append_assoc]
  refine .trans reaches_blank (.trans (reaches_digit (by omega) rfl (e.stops _)) ?_)
  refine .trans (he hp ?_ (stops_bin .sub)) (reaches_bin hr)
  rw [List.length_cons]
  omega

theorem runs_bin {op : BinOp} {a b : Expr} (ha : a.Runs A) (hb : b.Runs A) :
    (Expr.bin op a b).Runs A := by
  intro σ τ v env stack rest h hd hs
  simp only [Expr.eval, Option.bind_eq_bind, Option.bind_eq_some_iff] at h
  rw [Expr.depth] at hd
  obtain ⟨p, hp, q, hq, r, hr, h⟩ := h
  cases h
  rw [Expr.text, List.append_assoc, List.append_assoc]
  refine .trans (ha hp (by omega) (b.stops _)) (.trans (hb hq ?_ (stops_bin op)) (reaches_bin hr))
  rw [List.length_cons]
  omega

theorem runs_fn {f : Fn} {e : Expr} (he : e.Runs A) : (Expr.fn f e).Runs A := by
  intro σ τ v env stack rest h hd hs
  simp only [Expr.eval, Option.bind_eq_bind, Option.bind_eq_some_iff] at h
  rw [Expr.depth] at hd
  obtain ⟨p, hp, r, hr, h⟩ := h
  cases h
  rw [Expr.text, List.append_assoc]
  exact .trans (he hp hd (stops_fn f)) (reaches_fn hr)

theorem runs_post {s : Incr} {p : Place} (hp : p.Runs A) : (Expr.post s p).Runs A := by
  intro σ τ v env stack rest h hd hs
  simp only [Expr.eval, Option.bind_eq_bind, Option.bind_eq_some_iff] at h
  rw [Expr.depth] at hd
  obtain ⟨q, hq, r, hr, υ, hput, h⟩ := h
  cases h
  rw [Expr.text, List.append_assoc]
  refine .trans (hp.fetch hq (by omega)) (.trans (reaches_dup ?_) ?_)
  · rw [List.length_cons]
    omega
  refine .trans (reaches_digit ?_ rfl (stops_bin s.op)) (.trans (reaches_bin hr) (hp.put hput ?_))
  · rw [List.length_cons, List.length_cons]
    omega
  · rw [List.length_cons]
    omega

theorem runs_pre {s : Incr} {p : Place} (hp : p.Runs A) : (Expr.pre s p).Runs A := by
  intro σ τ v env stack rest h hd hs
  simp only [Expr.eval, Option.bind_eq_bind, Option.bind_eq_some_iff] at h
  rw [Expr.depth] at hd
  obtain ⟨q, hq, r, hr, υ, hput, h⟩ := h
  cases h
  rw [Expr.text, List.append_assoc]
  have hroom : ∀ w : Val Num, (w :: stack).length + 1 < STKSZ := fun w => by
    rw [List.length_cons]
    omega
  refine .trans (hp.fetch hq (by omega)) (.trans (reaches_digit (hroom _) rfl (stops_bin s.op)) ?_)
  refine .trans (reaches_bin hr) (.trans (reaches_dup (hroom _)) (hp.put hput ?_))
  rw [List.length_cons]
  omega

theorem runs_assign {p : Place} {e : Expr} (hp : p.Runs A) (he : e.Runs A) :
    (Expr.assign p e).Runs A := by
  intro σ τ v env stack rest h hd hs
  simp only [Expr.eval, Option.bind_eq_bind, Option.bind_eq_some_iff] at h
  rw [Expr.depth] at hd
  obtain ⟨q, hq, υ, hput, h⟩ := h
  cases h
  rw [Expr.text, List.append_assoc]
  refine .trans (he hq (by omega) rfl) (.trans (reaches_dup ?_) (hp.put hput ?_)) <;>
    rw [List.length_cons] <;> omega

theorem runs_modify {p : Place} {op : BinOp} {e : Expr} (hp : p.Runs A) (he : e.Runs A) :
    (Expr.modify p op e).Runs A := by
  intro σ τ v env stack rest h hd hs
  simp only [Expr.eval, Option.bind_eq_bind, Option.bind_eq_some_iff] at h
  rw [Expr.depth] at hd
  obtain ⟨q, hq, q', hq', r, hr, υ, hput, h⟩ := h
  cases h
  rw [Expr.text, List.append_assoc, List.append_assoc]
  refine .trans (hp.fetch hq (by omega)) (.trans (he hq' ?_ (stops_bin op)) ?_)
  · rw [List.length_cons]
    omega
  refine .trans (reaches_bin hr) (.trans (reaches_dup ?_) (hp.put hput ?_)) <;>
    rw [List.length_cons] <;> omega

theorem runs_var : (Place.var x).Runs A where
  fetch {σ τ v env stack rest} h hd := by
    rw [Place.fetch, Option.some_inj, Prod.mk.injEq] at h
    rw [Place.readDepth] at hd
    obtain ⟨rfl, rfl⟩ := h
    have hvar : table σ env (letr x) = .num (σ.vars x) := table_letr
    rw [Place.read, ← hvar]
    exact reaches_load hd
  put {σ τ v env stack rest} h _ := by
    rw [Place.put, Option.some_inj] at h
    subst h
    rw [Place.write]
    exact reaches_setVar

theorem runs_elem {i : Expr} (hi : i.Runs A) : (Place.elem x i).Runs A where
  fetch {σ τ v env stack rest} h hd := by
    simp only [Place.fetch, Option.bind_eq_bind, Option.bind_eq_some_iff] at h
    rw [Place.readDepth] at hd
    obtain ⟨p, hp, n, hn, h⟩ := h
    cases h
    rw [Place.read, List.append_assoc]
    exact .trans (hi hp hd rfl) (reaches_index hn)
  put {σ τ v env stack rest} h hd := by
    simp only [Place.put, Option.bind_eq_bind, Option.bind_eq_some_iff] at h
    rw [Place.writeDepth] at hd
    obtain ⟨p, hp, n, hn, h⟩ := h
    cases h
    rw [Place.write, List.append_assoc]
    refine .trans (hi hp ?_ rfl) (reaches_store hn)
    rw [List.length_cons]
    omega

theorem runs_setting {r : Setting} : (Place.setting r).Runs A where
  fetch {σ τ v env stack rest} h hd := by
    rw [Place.fetch, Option.some_inj, Prod.mk.injEq] at h
    rw [Place.readDepth] at hd
    obtain ⟨rfl, rfl⟩ := h
    rw [Place.read]
    exact reaches_get hd
  put {σ τ v env stack rest} h _ := by
    simp only [Place.put, Option.bind_eq_bind, Option.bind_eq_some_iff] at h
    obtain ⟨w, hw, h⟩ := h
    cases h
    rw [Place.write]
    exact reaches_set hw

/-- The text of an expression computes it. -/
theorem Expr.runs (e : Expr) : e.Runs A :=
  @Expr.rec (fun e => e.Runs A) (fun p => p.Runs A) runs_const runs_last (fun _ => runs_get)
    (fun _ => runs_neg) (fun _ _ _ => runs_bin) (fun _ _ => runs_fn) (fun _ _ => runs_post)
    (fun _ _ => runs_pre) (fun _ _ => runs_assign) (fun _ _ _ => runs_modify) (fun _ => runs_var)
    (fun _ _ => runs_elem) (fun _ => runs_setting) e

theorem Place.runs (p : Place) : p.Runs A := by
  cases p with
  | var x => exact runs_var
  | elem x i => exact runs_elem i.runs
  | setting r => exact runs_setting

end Unitas.Bc
