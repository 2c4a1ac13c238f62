import Unitas.Bc.Expressions

/-! `dc` does with the text that `bc` has written for a program what the program does. -/
namespace Unitas.Bc

open Dc.Compare (Rel)

variable {Num : Type} {A : Arith Num} {σ τ υ : Store Num} {env : UInt8 → Val Num}
  {stack : List (Val Num)} {rest : List UInt8} {m : Machine Num}

/-! ### Statements -/

/-- A register that neither a letter nor the last value has. -/
def Free (c : UInt8) : Prop := varOf c = none ∧ c ≠ 46

def Named (env : UInt8 → Val Num) (m : UInt8 × List UInt8) : Prop :=
  Free m.1 ∧ env m.1 = .text m.2

theorem table_named {m : UInt8 × List UInt8} (h : Named env m) : table σ env m.1 = .text m.2 := by
  rw [table, h.1.1]
  simp only [if_neg h.1.2, h.2]

theorem runs_rel (r : RelOp) (o : Ordering) : runs r.rel o = r.holds o := by
  cases r <;> cases o <;> rfl

theorem stops_rel (r : Rel) : stops (r.text ++ rest) := by cases r <;> rfl

theorem reaches_test {r : Rel} {a b : Num} {c : UInt8}
    (h : cond A r (machine A σ env (.num b :: .num a :: stack) (c :: rest)) = some m) :
    Reaches A (machine A σ env (.num b :: .num a :: stack) (r.text ++ c :: rest)) m := by
  cases r <;> exact reaches_cmd rfl rfl h

/-- Both sides of a condition, as far as its relation. -/
theorem Cond.reaches_rel {c : Cond} {b : Bool} {t : List UInt8} (h : c.eval A σ = some (b, τ))
    (hd : stack.length + c.depth < STKSZ) : ∃ v w : Num, c.rel.holds (A.order v w) = b ∧
      Reaches A (machine A σ env stack (c.text ++ t))
        (machine A τ env (.num w :: .num v :: stack) (c.rel.rel.text ++ t)) := by
  simp only [Cond.eval, Option.bind_eq_bind, Option.bind_eq_some_iff] at h
  rw [Cond.depth] at hd
  obtain ⟨p, hp, q, hq, h⟩ := h
  rw [Option.some_inj, Prod.mk.injEq] at h
  obtain ⟨hb, rfl⟩ := h
  refine ⟨p.1, q.1, hb, ?_⟩
  rw [Cond.text, List.append_assoc, List.append_assoc]
  refine .trans (c.left.runs hp (by omega) (c.right.stops _)) (c.right.runs hq ?_ (stops_rel _))
  rw [List.length_cons]
  omega

/-- A condition that holds has the text of its register read next. -/
theorem Cond.reaches_true {c : Cond} {n : UInt8 × List UInt8} (h : c.eval A σ = some (true, τ))
    (hd : stack.length + c.depth < STKSZ) (hn : Named env n) :
    Reaches A (machine A σ env stack (c.text ++ n.1 :: rest))
      (machine A τ env stack (n.2 ++ rest)) := by
  obtain ⟨v, w, hb, hreach⟩ := Cond.reaches_rel h hd
  refine .trans hreach (reaches_test ?_)
  rw [cond]
  simp only [machine, runs_rel, hb, if_true, table_named hn]

theorem Cond.reaches_false {c : Cond} {n : UInt8} (h : c.eval A σ = some (false, τ))
    (hd : stack.length + c.depth < STKSZ) :
    Reaches A (machine A σ env stack (c.text ++ n :: rest)) (machine A τ env stack rest) := by
  obtain ⟨v, w, hb, hreach⟩ := Cond.reaches_rel h hd
  refine .trans hreach (reaches_test ?_)
  rw [cond]
  simp only [machine, runs_rel, hb, Bool.false_eq_true, if_false]

/-- The text of a statement does what the statement does, where the registers have the texts that
`conout` has written. -/
theorem Exec.reaches {s : Stmt} (h : Exec A s σ τ) :
    ∀ {crs : ℕ} {k : Code} {stack : List (Val Num)} {rest : List UInt8}, s.code crs = some k →
      stack.length + s.depth < STKSZ → (∀ m ∈ k.macros, Named env m) →
      Reaches A (machine A σ env stack (k.text ++ rest)) (machine A τ env stack rest) := by
  induction h with
  | empty =>
    intro crs k stack rest hk _ _
    cases hk
    exact .refl
  | @print e v σ τ he =>
    intro crs k stack rest hk hd _
    cases hk
    rw [List.append_assoc]
    exact .trans (e.runs he hd rfl) (.trans reaches_print reaches_setLast)
  | @discard e v σ τ he =>
    intro crs k stack rest hk hd _
    cases hk
    rw [List.append_assoc]
    exact .trans (e.runs he hd rfl) reaches_setLast
  | @store p e v σ τ υ he hp =>
    intro crs k stack rest hk hd _
    rw [Stmt.depth] at hd
    cases hk
    rw [List.append_assoc]
    exact .trans (e.runs he (by omega) (p.stops_write _)) (p.runs.put hp (by omega))
  | @update p op e v w r σ τ υ χ hf he hr hp =>
    intro crs k stack rest hk hd _
    rw [Stmt.depth] at hd
    cases hk
    rw [List.append_assoc, List.append_assoc]
    refine .trans (p.runs.fetch hf (by omega)) (.trans (e.runs he ?_ (stops_bin op)) ?_)
    · rw [List.length_cons]
      omega
    exact .trans (reaches_bin hr) (p.runs.put hp (by omega))
  | seq hs ht ihs iht =>
    intro crs k stack rest hk hd hm
    rw [Stmt.depth] at hd
    simp only [Stmt.code, Option.bind_eq_bind, Option.bind_eq_some_iff] at hk
    obtain ⟨a, ha, b, hb, hk⟩ := hk
    cases hk
    rw [List.forall_mem_append] at hm
    rw [List.append_assoc]
    exact .trans (ihs ha (by omega) hm.1) (iht hb (by omega) hm.2)
  | ifTrue hc hs ih =>
    intro crs k stack rest hk hd hm
    rw [Stmt.depth] at hd
    simp only [Stmt.code, Option.bind_eq_bind, Option.bind_eq_some_iff] at hk
    obtain ⟨next, -, a, ha, hk⟩ := hk
    cases hk
    rw [List.forall_mem_append, List.forall_mem_singleton] at hm
    rw [List.append_assoc]
    refine .trans (Cond.reaches_true hc (by omega) hm.2) (.trans (ih ha (by omega) hm.1) ?_)
    exact reaches_blank
  | ifFalse hc =>
    intro crs k stack rest hk hd hm
    rw [Stmt.depth] at hd
    simp only [Stmt.code, Option.bind_eq_bind, Option.bind_eq_some_iff] at hk
    obtain ⟨next, -, a, -, hk⟩ := hk
    cases hk
    rw [List.append_assoc]
    exact .trans (Cond.reaches_false hc (by omega)) reaches_blank
  | whileTrue hc hs hw ihs ihw =>
    intro crs k stack rest hk hd hm
    have hloop : Reaches A (machine A _ env stack (k.text ++ rest)) (machine A _ env stack rest) :=
      ihw hk hd hm
    rw [Stmt.depth] at hd
    simp only [Stmt.code, Option.bind_eq_bind, Option.bind_eq_some_iff] at hk
    obtain ⟨next, -, a, ha, hk⟩ := hk
    cases hk
    rw [List.forall_mem_append, List.forall_mem_singleton] at hm
    rw [List.append_assoc] at hloop ⊢
    -- the text of the register ends as that of the statement begins
    refine .trans (Cond.reaches_true hc (by omega) hm.2) ?_
    rw [List.append_assoc, List.append_assoc]
    exact .trans (ihs ha (by omega) hm.1) hloop
  | whileFalse hc =>
    intro crs k stack rest hk hd hm
    rw [Stmt.depth] at hd
    simp only [Stmt.code, Option.bind_eq_bind, Option.bind_eq_some_iff] at hk
    obtain ⟨next, -, a, -, hk⟩ := hk
    cases hk
    rw [List.append_assoc]
    exact .trans (Cond.reaches_false hc (by omega)) reaches_blank

/-! ### The names of the registers -/

/-- What `crs` can be: no bracket, no backslash and no small letter. -/
def Valid (crs : ℕ) : Prop :=
  48 ≤ crs ∧ crs < 161 ∧ ¬(91 ≤ crs ∧ crs ≤ 93) ∧ ¬(97 ≤ crs ∧ crs ≤ 122)

instance (crs : ℕ) : Decidable (Valid crs) := inferInstanceAs (Decidable (_ ∧ _))

/-- A text without brackets, which `[` reads whole. -/
def Plain (t : List UInt8) : Prop := ∀ c ∈ t, c ≠ 91 ∧ c ≠ 93

theorem plain_append {s t : List UInt8} : Plain (s ++ t) ↔ Plain s ∧ Plain t :=
  List.forall_mem_append

theorem plain_cons {c : UInt8} {s : List UInt8} :
    Plain (c :: s) ↔ (c ≠ 91 ∧ c ≠ 93) ∧ Plain s := List.forall_mem_cons

theorem plain_of_all {t : List UInt8} (h : t.all fun c => c != 91 && c != 93) : Plain t := by
  simpa [Plain] using h

theorem plain_nil : Plain [] := fun _ h => absurd h List.not_mem_nil

theorem crsNext_valid {crs next : ℕ} (hv : Valid crs) (h : crsNext crs = some next) :
    Valid next ∧ crs < next := by
  unfold Valid at hv ⊢
  simp only [crsNext] at h
  split_ifs at h <;> simp only [Option.some_inj] at h <;> omega

theorem valid_ofNat : ∀ crs < 161, Valid crs →
    Free (UInt8.ofNat crs) ∧ UInt8.ofNat crs ≠ 91 ∧ UInt8.ofNat crs ≠ 93 := by
  unfold Free
  decide +kernel

theorem ofNat_injective {i j : ℕ} (hi : Valid i) (hj : Valid j)
    (h : UInt8.ofNat i = UInt8.ofNat j) : i = j := by
  have h := congrArg UInt8.toNat h
  have := hi.2.1
  have := hj.2.1
  simp only [UInt8.toNat_ofNat'] at h
  omega

theorem letr_plain : ∀ x, letr x ≠ 91 ∧ letr x ≠ 93 := by decide

theorem geta_plain : ∀ x, geta x ≠ 91 ∧ geta x ≠ 93 := by decide

theorem bin_plain (op : BinOp) : op.char ≠ 91 ∧ op.char ≠ 93 := by cases op <;> decide

theorem digits_plain (ds : List { c : UInt8 // digit c }) : Plain (ds.map Subtype.val) := by
  intro c hc
  obtain ⟨d, -, rfl⟩ := List.mem_map.mp hc
  constructor <;> intro h <;> have := d.2 <;> rw [h] at this <;> exact absurd this (by decide)

theorem Const.text_plain (c : Const) : Plain c.text := by
  rw [Const.text, Const.chars, plain_cons, plain_append, plain_append]
  refine ⟨by decide, ?_, digits_plain _, ?_⟩
  · cases c.neg
    · exact plain_nil
    · exact plain_cons.mpr ⟨by decide, plain_nil⟩
  · cases c.frac with
    | none => exact plain_nil
    | some ds => exact plain_cons.mpr ⟨by decide, digits_plain ds⟩

theorem var_plain (x : Letter) : Plain (Place.var x).read ∧ Plain (Place.var x).write := by
  simp only [Place.read, Place.write, plain_cons]
  exact ⟨⟨by decide, letr_plain x, plain_nil⟩, by decide, letr_plain x, plain_nil⟩

theorem elem_plain {x : Letter} {i : Expr} (hi : Plain i.text) :
    Plain (Place.elem x i).read ∧ Plain (Place.elem x i).write := by
  simp only [Place.read, Place.write, plain_cons, plain_append]
  exact ⟨⟨hi, by decide, geta_plain x, plain_nil⟩, hi, by decide, geta_plain x, plain_nil⟩

theorem setting_plain (r : Setting) :
    Plain (Place.setting r).read ∧ Plain (Place.setting r).write := by
  simp only [Place.read, Place.write, plain_cons]
  cases r <;> exact ⟨⟨by decide, plain_nil⟩, by decide, plain_nil⟩

theorem Expr.text_plain (e : Expr) : Plain e.text := by
  refine @Expr.rec (fun e => Plain e.text) (fun p => Plain p.read ∧ Plain p.write)
    ?_ ?_ ?_ ?_ ?_ ?_ ?_ ?_ ?_ ?_ ?_ ?_ ?_ e
  · exact fun c => c.text_plain
  · exact by rw [Expr.text]; exact plain_of_all rfl
  · exact fun v hv => by rw [Expr.text]; exact hv.1
  · intro e he
    simp only [Expr.text, plain_cons, plain_append]
    exact ⟨by decide, by decide, he, bin_plain .sub, plain_nil⟩
  · intro op a b ha hb
    simp only [Expr.text, plain_cons, plain_append]
    exact ⟨ha, hb, bin_plain op, plain_nil⟩
  · intro f e he
    simp only [Expr.text, plain_cons, plain_append]
    exact ⟨he, by cases f <;> decide, plain_nil⟩
  · intro s v hv
    simp only [Expr.text, plain_cons, plain_append]
    exact ⟨hv.1, by decide, by decide, bin_plain s.op, hv.2⟩
  · intro s v hv
    simp only [Expr.text, plain_cons, plain_append]
    exact ⟨hv.1, by decide, bin_plain s.op, by decide, hv.2⟩
  · intro v e hv he
    simp only [Expr.text, plain_cons, plain_append]
    exact ⟨he, by decide, hv.2⟩
  · intro v op e hv he
    simp only [Expr.text, plain_cons, plain_append]
    exact ⟨hv.1, he, bin_plain op, by decide, hv.2⟩
  · exact var_plain
  · exact fun x i hi => elem_plain hi
  · exact setting_plain

theorem Place.plain (p : Place) : Plain p.read ∧ Plain p.write := by
  cases p with
  | var x => exact var_plain x
  | elem x i => exact elem_plain i.text_plain
  | setting r => exact setting_plain r

theorem Cond.text_plain (c : Cond) : Plain c.text := by
  rw [Cond.text, plain_append, plain_append]
  refine ⟨c.left.text_plain, c.right.text_plain, ?_⟩
  cases c.rel <;> exact plain_of_all rfl

/-- The code of a statement from `crs` on: its registers are its own. -/
structure Code.Proper (crs : ℕ) (k : Code) : Prop where
  valid : Valid k.crs
  le : crs ≤ k.crs
  names : ∀ m ∈ k.macros, ∃ i, crs ≤ i ∧ i < k.crs ∧ Valid i ∧ m.1 = UInt8.ofNat i
  nodup : (k.macros.map Prod.fst).Nodup
  plain : Plain k.text
  bodies : ∀ m ∈ k.macros, Plain m.2

/-- A statement without a register of its own. -/
theorem Code.proper_text {crs : ℕ} {t : List UInt8} (hv : Valid crs) (ht : Plain t) :
    Code.Proper crs ⟨t, [], crs⟩ where
  valid := hv
  le := le_rfl
  names := fun _ h => absurd h List.not_mem_nil
  nodup := List.nodup_nil
  plain := ht
  bodies := fun _ h => absurd h List.not_mem_nil

theorem Code.Proper.seq {crs : ℕ} {a b : Code} (ha : a.Proper crs) (hb : b.Proper a.crs) :
    Code.Proper crs ⟨a.text ++ b.text, a.macros ++ b.macros, b.crs⟩ where
  valid := hb.valid
  le := ha.le.trans hb.le
  names := List.forall_mem_append.mpr
    ⟨fun m hm => by
      obtain ⟨i, hle, hlt, hi⟩ := ha.names m hm
      exact ⟨i, hle, hlt.trans_le hb.le, hi⟩,
    fun m hm => by
      obtain ⟨i, hle, hlt, hi⟩ := hb.names m hm
      exact ⟨i, ha.le.trans hle, hlt, hi⟩⟩
  nodup := by
    rw [List.map_append, List.nodup_append]
    refine ⟨ha.nodup, hb.nodup, fun c hc d hd hcd => ?_⟩
    obtain ⟨m, hm, rfl⟩ := List.mem_map.mp hc
    obtain ⟨m', hm', rfl⟩ := List.mem_map.mp hd
    obtain ⟨i, -, hlt, hi, hmi⟩ := ha.names m hm
    obtain ⟨j, hle, -, hj, hmj⟩ := hb.names m' hm'
    have := ofNat_injective hi hj (by rw [← hmi, hcd, hmj])
    omega
  plain := plain_append.mpr ⟨ha.plain, hb.plain⟩
  bodies := List.forall_mem_append.mpr ⟨ha.bodies, hb.bodies⟩

/-- The register of a statement comes after those inside it. -/
theorem Code.Proper.conout {crs next : ℕ} {a : Code} {t body : List UInt8} (hv : Valid crs)
    (hnext : crsNext crs = some next) (ha : a.Proper next) (ht : Plain t) (hb : Plain body) :
    Code.Proper crs ⟨t, a.macros ++ [(UInt8.ofNat crs, body)], a.crs⟩ := by
  obtain ⟨-, hlt⟩ := crsNext_valid hv hnext
  have hle := ha.le
  refine ⟨ha.valid, by simp only; omega, List.forall_mem_append.mpr ⟨fun m hm => ?_, ?_⟩, ?_, ht,
    List.forall_mem_append.mpr ⟨ha.bodies, List.forall_mem_singleton.mpr hb⟩⟩
  · obtain ⟨i, hi, h⟩ := ha.names m hm
    exact ⟨i, by omega, h⟩
  · exact List.forall_mem_singleton.mpr ⟨crs, le_rfl, by simp only; omega, hv, rfl⟩
  · rw [List.map_append, List.nodup_append]
    refine ⟨ha.nodup, List.nodup_singleton _, fun c hc d hd hcd => ?_⟩
    obtain ⟨m, hm, rfl⟩ := List.mem_map.mp hc
    obtain ⟨i, hi, -, hvi, hmi⟩ := ha.names m hm
    rw [List.map_singleton, List.mem_singleton] at hd
    have := ofNat_injective hvi hv (by rw [← hmi, hcd, hd])
    omega

theorem Stmt.code_proper (s : Stmt) :
    ∀ {crs : ℕ} {k : Code}, Valid crs → s.code crs = some k → k.Proper crs := by
  induction s with
  | empty =>
    intro crs k hv hk
    cases hk
    exact Code.proper_text hv plain_nil
  | print e =>
    intro crs k hv hk
    cases hk
    exact Code.proper_text hv (plain_append.mpr ⟨e.text_plain, plain_of_all rfl⟩)
  | discard e =>
    intro crs k hv hk
    cases hk
    exact Code.proper_text hv (plain_append.mpr ⟨e.text_plain, plain_of_all rfl⟩)
  | store p e =>
    intro crs k hv hk
    cases hk
    exact Code.proper_text hv (plain_append.mpr ⟨e.text_plain, p.plain.2⟩)
  | update p op e =>
    intro crs k hv hk
    cases hk
    refine Code.proper_text hv (plain_append.mpr ⟨p.plain.1, plain_append.mpr ⟨e.text_plain, ?_⟩⟩)
    exact plain_cons.mpr ⟨bin_plain op, p.plain.2⟩
  | seq s t ihs iht =>
    intro crs k hv hk
    simp only [Stmt.code, Option.bind_eq_bind, Option.bind_eq_some_iff] at hk
    obtain ⟨a, ha, b, hb, hk⟩ := hk
    cases hk
    have hpa := ihs hv ha
    exact hpa.seq (iht hpa.valid hb)
  | ifs c s ih =>
    intro crs k hv hk
    simp only [Stmt.code, Option.bind_eq_bind, Option.bind_eq_some_iff] at hk
    obtain ⟨next, hnext, a, ha, hk⟩ := hk
    cases hk
    have hpa := ih (crsNext_valid hv hnext).1 ha
    refine hpa.conout hv hnext (plain_append.mpr ⟨c.text_plain, ?_⟩) hpa.plain
    exact plain_cons.mpr ⟨(valid_ofNat crs hv.2.1 hv).2, plain_cons.mpr ⟨by decide, plain_nil⟩⟩
  | whiles c s ih =>
    intro crs k hv hk
    simp only [Stmt.code, Option.bind_eq_bind, Option.bind_eq_some_iff] at hk
    obtain ⟨next, hnext, a, ha, hk⟩ := hk
    cases hk
    have hpa := ih (crsNext_valid hv hnext).1 ha
    have hname := (valid_ofNat crs hv.2.1 hv).2
    refine hpa.conout hv hnext (plain_append.mpr ⟨c.text_plain, ?_⟩)
      (plain_append.mpr ⟨hpa.plain, plain_append.mpr ⟨c.text_plain, ?_⟩⟩)
    · exact plain_cons.mpr ⟨hname, plain_cons.mpr ⟨by decide, plain_nil⟩⟩
    · exact plain_cons.mpr ⟨hname, plain_nil⟩

/-! ### Programs -/

theorem readText_plain {t : List UInt8} (ht : Plain t) :
    readText 0 (t ++ 93 :: rest) = some (t, rest) := by
  induction t with
  | nil => rfl
  | cons c t ih =>
    obtain ⟨⟨hopen, hclose⟩, ht⟩ := plain_cons.mp ht
    simp only [List.cons_append, readText, if_neg hopen, if_neg hclose, ih ht, Option.map_some]

theorem table_setFree {c : UInt8} {w : Val Num} (hc : Free c) :
    Function.update (table σ env) c w = table σ (Function.update env c w) := by
  funext d
  by_cases hd : d = c
  · subst hd
    rw [Function.update_self, table, hc.1]
    simp only [if_neg hc.2, Function.update_self]
  · rw [Function.update_of_ne hd, table, table]
    cases varOf d with
    | some x => rfl
    | none => simp only [Function.update_of_ne hd]

/-- The text that `conout` writes puts the macro into its register. -/
theorem reaches_conout {k : UInt8 × List UInt8} (hd : stack.length + 1 < STKSZ) (hf : Free k.1)
    (hp : Plain k.2) :
    Reaches A (machine A σ env stack (conout k ++ rest))
      (machine A σ (Function.update env k.1 (.text k.2)) stack rest) := by
  rw [conout, List.cons_append, List.append_assoc]
  have htext : Cmd.text.execute A (machine A σ env stack (k.2 ++ 93 :: 115 :: k.1 :: 10 :: rest)) =
      some (machine A σ env (.text k.2 :: stack) (115 :: k.1 :: 10 :: rest)) := by
    change Option.bind (readText 0 (k.2 ++ 93 :: 115 :: k.1 :: 10 :: rest)) _ = _
    rw [readText_plain hp]
    exact pushp_machine hd
  have hsave : Cmd.save.execute A (machine A σ env (.text k.2 :: stack) (k.1 :: 10 :: rest)) =
      some (machine A σ (Function.update env k.1 (.text k.2)) stack (10 :: rest)) := by
    simp only [Cmd.execute, machine, table_setFree hf]
  exact .trans (reaches_cmd rfl rfl htext)
    (.trans (reaches_cmd rfl rfl hsave) reaches_newline)

/-- After the macros of a statement each register has its own text. -/
theorem reaches_macros {ks : List (UInt8 × List UInt8)} (hd : stack.length + 1 < STKSZ)
    (hf : ∀ k ∈ ks, Free k.1) (hp : ∀ k ∈ ks, Plain k.2)
    (hn : (ks.map Prod.fst).Nodup) :
    ∀ env : UInt8 → Val Num, ∃ env' : UInt8 → Val Num, (∀ k ∈ ks, Named env' k) ∧
      (∀ c ∉ ks.map Prod.fst, env' c = env c) ∧
      Reaches A (machine A σ env stack (ks.flatMap conout ++ rest))
        (machine A σ env' stack rest) := by
  induction ks with
  | nil =>
    exact fun env => ⟨env, fun _ h => absurd h List.not_mem_nil, fun _ _ => rfl, .refl⟩
  | cons k ks ih =>
    intro env
    rw [List.forall_mem_cons] at hf hp
    rw [List.map_cons, List.nodup_cons] at hn
    obtain ⟨env', hnamed, hsame, hreach⟩ :=
      ih hf.2 hp.2 hn.2 (Function.update env k.1 (.text k.2))
    refine ⟨env', List.forall_mem_cons.mpr ⟨⟨hf.1, ?_⟩, hnamed⟩, fun c hc => ?_, ?_⟩
    · rw [hsame _ hn.1, Function.update_self]
    · rw [List.map_cons, List.mem_cons, not_or] at hc
      rw [hsame c hc.2, Function.update_of_ne hc.1]
    · rw [List.flatMap_cons, List.append_assoc]
      exact .trans (reaches_conout hd hf.1 hp.1) hreach

theorem Stmt.output_reaches {s : Stmt} {crs : ℕ} {t : List UInt8} (hv : Valid crs)
    (ht : s.output crs = some t) (hroom : stack.length + 1 < STKSZ)
    (hd : stack.length + s.depth < STKSZ) (h : Exec A s σ τ) (env : UInt8 → Val Num) :
    ∃ env' : UInt8 → Val Num, Reaches A (machine A σ env stack (t ++ rest))
      (machine A τ env' stack rest) := by
  obtain ⟨k, hk, rfl⟩ := Option.map_eq_some_iff.mp ht
  have hpk := s.code_proper hv hk
  have hfree : ∀ m ∈ k.macros, Free m.1 := fun m hm => by
    obtain ⟨i, -, -, hi, hmi⟩ := hpk.names m hm
    rw [hmi]
    exact (valid_ofNat i hi.2.1 hi).1
  obtain ⟨env', hnamed, -, hreach⟩ := @reaches_macros Num A σ stack (k.text ++ 10 :: rest) k.macros
    hroom hfree hpk.bodies hpk.nodup env
  refine ⟨env', ?_⟩
  rw [List.append_assoc, List.append_assoc]
  exact .trans hreach (.trans (h.reaches hk hd hnamed) reaches_newline)

/-- Whole numbers. -/
def intArith : Arith ℤ where
  zero := 0
  num regs t := t.foldl
    (fun n c => n * regs .base + (if c ≤ 57 then (c.toNat : ℤ) - 48 else (c.toNat : ℤ) - 55)) 0
  chsign v := -v
  bin op _ a b :=
    match op with
    | .add => some (a + b)
    | .sub => some (a - b)
    | .mul => some (a * b)
    | .div => if b = 0 then none else some (a.tdiv b)
    | .rem => if b = 0 then none else some (a.tmod b)
    | .exp => if b < 0 then none else some (a ^ b.toNat)
  fn f _ a :=
    match f with
    | .length => some (Nat.toDigits 10 a.natAbs).length
    | .scale => some 0
    | .sqrt => if a < 0 then none else some a.toNat.sqrt
  index k := if 0 ≤ k ∧ k < 2048 then some k.toNat else none
  set r v :=
    match r with
    | .scale => if 0 ≤ v ∧ v ≤ 99 then some v else none
    | .base => if 2 ≤ v ∧ v ≤ 16 then some v else none
    | .obase => if v ≤ 99 then some v else none
  order := compare
  print _ v := (if v < 0 then [45] else []) ++
    (Nat.toDigits 10 v.natAbs).map (fun c => UInt8.ofNat c.toNat) ++ [10]

/-- What `dc` begins with. -/
def initial : Store ℤ :=
  ⟨fun _ => 0, fun _ _ => 0, 0, fun r => if r = .scale then 0 else 10, []⟩

def oneDigit (c : UInt8) (h : digit c) : Expr :=
  .const ⟨false, [⟨c, h⟩], none, .inr (.inl (List.cons_ne_nil _ _))⟩

/-- `a += 1` -/
def countStep : Stmt := .update (.var 0) .add (oneDigit 49 rfl)

/-- `while (a < 2) a += 1` and `a`. -/
def count : List Stmt :=
  [.whiles ⟨.lt, .get (.var 0), oneDigit 50 rfl⟩ countStep, .print (.get (.var 0))]

def Store.counted (n : ℤ) (σ : Store ℤ) : Store ℤ := { σ with vars := Function.update σ.vars 0 n }

end Unitas.Bc
