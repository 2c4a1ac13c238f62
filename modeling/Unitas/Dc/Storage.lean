import Mathlib.Data.Nat.Basic
import Mathlib.Logic.Function.Iterate
import Unitas.Lib.Transition

/-! The fixed arrays of `dc`: what its commands do to `stkptr`, to `readptr` and to the list of
free registers. Blocks are there only as far as these depend on them. -/
namespace Unitas.Dc.Storage

open Function Transition

def STKSZ : ℕ := 100
def RDSKSZ : ℕ := 100
def TBLSZ : ℕ := 256

/-- `stkptr` and `readptr` are offsets into their arrays. An entry of `readstk` is the number of
characters its block still has, or `none` for a null pointer. The entries of `symlst` that hang
together through `next` are lists, from `sfree` and from each entry of `stable`. -/
structure State where
  stkptr : ℕ
  stkerr : Bool
  readptr : ℕ
  readstk : ℕ → Option ℕ
  sfree : List ℕ
  stable : UInt8 → List ℕ

/-- The loop of `init` links `&symlst[TBLSZ]` to the last entry, and the store after it ends the
list there. -/
def init : State where
  stkptr := 0
  stkerr := false
  readptr := 0
  readstk := fun _ => none
  sfree := List.range (TBLSZ + 1)
  stable := fun _ => []

def State.pushp (s : State) : State :=
  if s.stkptr = STKSZ then s else { s with stkerr := false, stkptr := s.stkptr + 1 }

def State.pop (s : State) : State :=
  if s.stkptr = 0 then { s with stkerr := true } else { s with stkptr := s.stkptr - 1 }

/-- Blocks that are at their end go off `readstk`. A null pointer stands for the file. -/
def readcFrom : ℕ → (ℕ → Option ℕ) → ℕ × (ℕ → Option ℕ)
  | 0, readstk => (0, readstk)
  | i + 1, readstk =>
    match readstk (i + 1) with
    | none => (i + 1, readstk)
    | some 0 => readcFrom i readstk
    | some (n + 1) => (i + 1, update readstk (i + 1) (some n))

def State.readc (s : State) : State :=
  { s with
    readptr := (readcFrom s.readptr s.readstk).1
    readstk := (readcFrom s.readptr s.readstk).2 }

def State.unreadc (s : State) : State :=
  if s.readptr = 0 then s
  else { s with readstk := update s.readstk s.readptr ((s.readstk s.readptr).map (· + 1)) }

/-- `n` more characters. -/
def State.readcs (n : ℕ) (s : State) : State := State.readc^[n] s

/-- `sptr = stable[c] = sfree` for a new register; `false` is the `goto sempty` and `none` the
use of a null `sfree`. -/
def State.create (c : UInt8) (s : State) : Option (Bool × State) :=
  match s.sfree with
  | [] => none
  | [e] => some (false, { s with sfree := [], stable := update s.stable c [e] })
  | e :: e' :: rest => some (true, { s with
      sfree := e' :: rest, stable := update s.stable c (e :: s.stable c) })

/-- Both operands, or `true` and what there was of them back on the stack. -/
def State.eqk (s : State) : Bool × State :=
  if s.pop.stkerr then (true, s.pop)
  else if s.pop.pop.stkerr then (true, s.pop.pop.pushp)
  else (false, s.pop.pop)

/-- With a zero among the operands one of them goes back on the stack. -/
def State.dscale (zero : Bool) (s : State) : Bool × State :=
  match s.eqk with
  | (true, s) => (true, s)
  | (false, s) => if zero then (true, s.pushp) else (false, s)

def State.binop (s : State) : State := s.pushp

def State.subt (s : State) : Bool × State :=
  if s.pop.stkerr then (true, s.pop)
  else
    match s.pop.pushp.eqk with
    | (true, s) => (true, s)
    | (false, s) => (false, s.binop)

def State.load (s : State) : State := s.readc.pushp

def State.cond (holds : Bool) (s : State) : Bool × State :=
  match s.subt with
  | (true, s) => (true, s)
  | (false, s) => if holds then (true, s.pop.load) else (false, s.pop.readc)

/-- `execute:` with a macro of `text` characters, or a null pointer, on top of the stack. The
test in the middle is made with `readptr` from before it moves. -/
def State.execute (text : Option ℕ) (s : State) : State :=
  let s := s.pop
  if s.stkerr then s
  else if s.readptr ≠ 0 ∧ s.readstk s.readptr ≠ none then
    if s.readstk s.readptr = some 0 then
      { s with readstk := update s.readstk s.readptr text }
    else if s.readptr = RDSKSZ then { s with readptr := s.readptr + 1 }
    else { s with
      readptr := s.readptr + 1, readstk := update s.readstk (s.readptr + 1) text }
  else { s with
    readptr := s.readptr + 1, readstk := update s.readstk (s.readptr + 1) text }

/-- The commands, with what the blocks decide in each: whether an operand is refused, a
condition holds, how many characters are read and how long a macro is. -/
inductive Cmd
  /-- Blanks, output, `Y` and what is unimplemented. -/
  | other
  | number (digits : ℕ)
  /-- `_` -/
  | negative (digits : ℕ)
  /-- `-` -/
  | minus
  /-- `+` -/
  | plus
  /-- `*` -/
  | times
  /-- `/` -/
  | divide (zero : Bool)
  /-- `%` -/
  | remainder (zero : Bool)
  | v (negative : Bool)
  /-- `^` -/
  | power (fraction tooBig neg zero : Bool)
  /-- `z`, `I`, `O` and `K` -/
  | setting
  /-- `Z` and `X` -/
  | measure
  /-- `i`, `o`, `k` and `P` -/
  | consume
  /-- `[` -/
  | string (chars : ℕ)
  | Q (refused : Bool) (levels : ℕ)
  | q
  | d
  | c
  | S (name : UInt8)
  | s (name : UInt8)
  | l
  | L (name : UInt8)
  /-- `:` -/
  | arrayStore (refused : Bool) (name : UInt8)
  /-- `;` -/
  | arrayLoad (refused : Bool)
  | x (text : Option ℕ)
  /-- `?` with the conditions behind a `!` that come before the line. -/
  | ask (conds : List Bool) (chars : ℕ)
  /-- `!` with a command for the shell. -/
  | shell (chars : ℕ)
  /-- `<`, `>` and `=`, after a `!` or not. -/
  | compare (bang holds : Bool) (text : Option ℕ)

/-- `pop`, and the rest unless the stack is empty. -/
def State.withArg (s : State) (rest : State → Option State) : Option State :=
  if s.pop.stkerr then some s.pop else rest s.pop

def State.divided (zero : Bool) (s : State) : State :=
  match s.dscale zero with
  | (true, s) => s
  | (false, s) => s.binop

/-- Commands `S`, `s` and `:` from the register on. -/
def State.save (c : UInt8) (new : Bool) (s : State) : Option State :=
  if new then
    match s.create c with
    | none => none
    | some (false, s) => some s
    | some (true, s) => some s.pop
  else some s.pop

/-- One command after its first character has been read; `none` where the program ends. -/
def body (s : State) : Cmd → Option State
  | .other => some s
  | .number digits => some ((s.unreadc.readcs digits).unreadc.pushp)
  | .negative digits => some ((s.readcs digits).unreadc.pushp)
  | .minus => some s.subt.2
  | .plus =>
    match s.eqk with
    | (true, s) => some s
    | (false, s) => some s.binop
  | .times =>
    match s.eqk with
    | (true, s) => some s
    | (false, s) => some s.binop.pop.pushp
  | .divide zero => some (s.divided zero)
  | .remainder zero =>
    match s.dscale zero with
    | (true, s) => some s
    | (false, s) => some s.binop.pop.pushp
  | .v negative => s.withArg fun s => some (if negative then s else s.pushp)
  | .power fraction tooBig neg zero => s.withArg fun s =>
    if fraction then some s
    else if s.pop.stkerr then some s.pop.pushp
    else if tooBig then some s.pop
    else if neg then some (s.pop.pushp.pop.pushp.pushp.divided zero)
    else some s.pop.pushp
  | .setting => some s.pushp
  | .measure => s.withArg fun s => some s.pushp
  | .consume => s.withArg fun s => some s
  | .string chars => some (s.readcs chars).pushp
  | .Q refused levels => s.withArg fun s =>
    if refused then some s else some { s with readptr := s.readptr - levels }
  | .q => if s.readptr ≤ 1 then none else some { s with readptr := s.readptr - 2 }
  | .d => if s.stkptr = 0 then some s else some s.pushp
  | .c => if s.stkerr then some s else some { s with stkptr := 0, stkerr := true }
  | .S name => if s.stkptr = 0 then some s else s.readc.save name true
  | .s name => if s.stkptr = 0 then some s else s.readc.save name (s.stable name = [])
  | .l => some s.load
  | .L name =>
    match s.stable name with
    | [] => some s.readc
    | e :: rest => some { s.readc with
        sfree := e :: s.sfree, stable := update s.stable name rest }.pushp
  | .arrayStore refused name => s.withArg fun s =>
    if refused then some s else s.readc.save name (s.stable name = [])
  | .arrayLoad refused => s.withArg fun s => if refused then some s else some s.readc.pushp
  | .x text => some (s.execute text)
  | .ask conds chars =>
    if s.readptr + 1 = RDSKSZ then some { s with readptr := s.readptr + 1 }
    else
      let s := { s with
        readptr := s.readptr + 1, readstk := update s.readstk (s.readptr + 1) none }
      let s := conds.foldl (fun s holds => (s.cond holds).2) s
      some { s with readstk := update s.readstk s.readptr (some chars) }
  | .shell chars => some (s.readcs chars)
  | .compare bang holds text =>
    match (if bang then s.readc else s).cond holds with
    | (true, s) => some (s.execute text)
    | (false, s) => some s

/-- One round of the loop of `commnds`. -/
def step (s : State) (a : Cmd) : Option State := body s.readc a

/-! ### Bounds -/

/-- The pointers and the registers that are in use are inside their arrays. -/
structure Bounds (s : State) : Prop where
  stkptr : s.stkptr < STKSZ
  readptr : s.readptr < RDSKSZ
  registers : ∀ name, ∀ e ∈ s.stable name, e < TBLSZ

/-- Only the end of the free list is outside `symlst`. -/
structure Inv (s : State) : Prop extends Bounds s where
  stkerr : s.stkerr = true → s.stkptr = 0
  free : ∃ front, s.sfree = front ++ [TBLSZ] ∧ ∀ e ∈ front, e < TBLSZ

/-- A macro that is called goes into the array, if need be in place of one that is at its end. -/
def Room (s : State) : Prop :=
  s.readptr + 1 < RDSKSZ ∨ s.readptr ≠ 0 ∧ s.readstk s.readptr = some 0

/-- What the state must have room for before a command. -/
def Ok (s : State) : Cmd → Prop
  | .number _ | .negative _ | .setting | .string _ | .l | .d => s.stkptr + 1 < STKSZ
  | .L name => s.stable name = [] ∨ s.stkptr + 1 < STKSZ
  | .S _ => s.stkptr = 0 ∨ 2 ≤ s.sfree.length
  | .s name => s.stkptr = 0 ∨ s.stable name ≠ [] ∨ 2 ≤ s.sfree.length
  | .arrayStore refused name =>
    s.stkptr = 0 ∨ refused = true ∨ s.stable name ≠ [] ∨ 2 ≤ s.sfree.length
  | .x _ => s.stkptr = 0 ∨ Room s
  | .ask _ _ => s.readptr + 1 < RDSKSZ
  | .compare bang holds _ =>
    let s := if bang then s.readc else s
    s.stkptr = 0 ∨ if s.stkptr = 1 then Room s else holds = false ∨ Room s.readc
  | _ => True

def ok (s : State) (a : Cmd) : Prop := Ok s.readc a

variable {s s' : State}

theorem init_inv : Inv init := by
  have hfree : init.sfree = List.range TBLSZ ++ [TBLSZ] := by
    dsimp only [init]
    exact List.range_succ
  refine ⟨⟨by decide, by decide, ?_⟩, by decide, List.range TBLSZ, hfree, ?_⟩
  · intro name e he
    simp [init] at he
  · intro e he
    exact List.mem_range.mp he

theorem readcFrom_le (readstk : ℕ → Option ℕ) (i : ℕ) : (readcFrom i readstk).1 ≤ i := by
  induction i with
  | zero => exact le_rfl
  | succ i ih =>
    rw [readcFrom]
    split
    · exact le_rfl
    · omega
    · exact le_rfl

theorem readc_inv (h : Inv s) : Inv s.readc := by
  refine ⟨⟨h.stkptr, ?_, h.registers⟩, h.stkerr, h.free⟩
  exact lt_of_le_of_lt (readcFrom_le _ _) h.readptr

@[simp] theorem readc_stkptr (s : State) : s.readc.stkptr = s.stkptr := rfl

theorem readcs_inv (n : ℕ) : ∀ {s : State}, Inv s → Inv (s.readcs n) := by
  induction n with
  | zero => exact fun h => h
  | succ n ih => exact fun h => ih (readc_inv h)

@[simp] theorem readcs_stkptr (n : ℕ) : ∀ s : State, (s.readcs n).stkptr = s.stkptr := by
  induction n with
  | zero => exact fun _ => rfl
  | succ n ih => exact fun s => ih s.readc

theorem unreadc_inv (h : Inv s) : Inv s.unreadc := by
  unfold State.unreadc
  split_ifs
  · exact h
  · exact ⟨⟨h.stkptr, h.readptr, h.registers⟩, h.stkerr, h.free⟩

@[simp] theorem unreadc_stkptr (s : State) : s.unreadc.stkptr = s.stkptr := by
  unfold State.unreadc
  split_ifs <;> rfl

theorem pop_inv (h : Inv s) : Inv s.pop := by
  have hlt := h.stkptr
  unfold State.pop
  split_ifs with h0
  · exact ⟨⟨hlt, h.readptr, h.registers⟩, fun _ => h0, h.free⟩
  · refine ⟨⟨?_, h.readptr, h.registers⟩, fun herr => absurd (h.stkerr herr) h0, h.free⟩
    dsimp only
    omega

@[simp] theorem pop_stkptr (s : State) : s.pop.stkptr = s.stkptr - 1 := by
  unfold State.pop
  split_ifs with h0
  · simp [h0]
  · rfl

/-- `EMPTY` after a `pop` sees whether there was something on the stack. -/
theorem pop_stkerr (h : Inv s) : s.pop.stkerr = true ↔ s.stkptr = 0 := by
  unfold State.pop
  split_ifs with h0
  · exact iff_of_true rfl h0
  · exact iff_of_false (fun herr => h0 (h.stkerr herr)) h0

theorem pushp_inv (h : Inv s) (hroom : s.stkptr + 1 < STKSZ) : Inv s.pushp := by
  unfold State.pushp
  rw [if_neg (by omega)]
  exact ⟨⟨hroom, h.readptr, h.registers⟩, fun herr => by simp at herr, h.free⟩

theorem pushp_stkptr (h : s.stkptr < STKSZ) : s.pushp.stkptr = s.stkptr + 1 := by
  unfold State.pushp
  rw [if_neg (by omega)]

/-- Only the stack is not as it was. -/
def Stacks (s s' : State) : Prop := ∃ stkptr stkerr, s' = { s with stkptr, stkerr }

theorem Stacks.trans {s s' s'' : State} (h : Stacks s s') (h' : Stacks s' s'') :
    Stacks s s'' := by
  obtain ⟨_, _, rfl⟩ := h
  obtain ⟨_, _, rfl⟩ := h'
  exact ⟨_, _, rfl⟩

theorem stacks_pop (s : State) : Stacks s s.pop := by
  unfold State.pop
  split_ifs
  · exact ⟨_, _, rfl⟩
  · exact ⟨_, _, rfl⟩

theorem stacks_pushp (s : State) : Stacks s s.pushp := by
  unfold State.pushp
  split_ifs
  · exact ⟨_, _, rfl⟩
  · exact ⟨_, _, rfl⟩

/-- What `eqk` and the functions after it do to the stack: `failed` with less than two values. -/
structure Operands (s : State) (r : Bool × State) (left : ℕ) : Prop where
  inv : Inv r.2
  frame : Stacks s r.2
  failed : r.1 = true ↔ s.stkptr < 2
  stkptr : r.2.stkptr = if s.stkptr < 2 then s.stkptr else s.stkptr - left

theorem eqk_spec (h : Inv s) : Operands s s.eqk 2 := by
  have hlt := h.stkptr
  unfold STKSZ at hlt
  have h1 := pop_inv h
  have h2 := pop_inv h1
  have herr1 := pop_stkerr h
  have herr2 := pop_stkerr h1
  rw [pop_stkptr] at herr2
  unfold State.eqk
  split_ifs with hone htwo
  · have h0 := herr1.mp hone
    refine ⟨h1, stacks_pop s, iff_of_true rfl (by omega), ?_⟩
    rw [pop_stkptr, if_pos (by omega)]
    omega
  · have h0 := herr2.mp htwo
    have hne : s.stkptr ≠ 0 := fun h => hone (herr1.mpr h)
    refine ⟨pushp_inv h2 ?_, ((stacks_pop s).trans (stacks_pop _)).trans (stacks_pushp _),
      iff_of_true rfl (by omega), ?_⟩
    · simp only [pop_stkptr, STKSZ]
      omega
    · rw [pushp_stkptr h2.stkptr, pop_stkptr, pop_stkptr, if_pos (by omega)]
      omega
  · have h0 : s.stkptr - 1 ≠ 0 := fun h => htwo (herr2.mpr h)
    refine ⟨h2, (stacks_pop s).trans (stacks_pop _), iff_of_false (by simp) (by omega), ?_⟩
    rw [pop_stkptr, pop_stkptr, if_neg (by omega)]
    omega

/-- One value for the two, or the stack as it was. -/
theorem Operands.push {r : Bool × State} {left : ℕ} (h : Operands s r left) (hs : Inv s)
    (hleft : 1 ≤ left) (hok : r.1 = false) : Inv r.2.pushp ∧ r.2.pushp.stkptr ≤ s.stkptr := by
  have hlt := hs.stkptr
  have htwo : ¬ s.stkptr < 2 := fun h2 => by
    rw [h.failed.mpr h2] at hok
    contradiction
  have hptr := h.stkptr
  rw [if_neg htwo] at hptr
  constructor
  · apply pushp_inv h.inv
    omega
  · rw [pushp_stkptr h.inv.stkptr]
    omega

theorem subt_spec (h : Inv s) : Operands s s.subt 1 := by
  have hlt := h.stkptr
  have h1 := pop_inv h
  have herr := pop_stkerr h
  unfold State.subt
  split_ifs with hempty
  · have h0 := herr.mp hempty
    refine ⟨h1, stacks_pop s, iff_of_true rfl (by omega), ?_⟩
    rw [pop_stkptr, if_pos (by omega)]
    omega
  · have hne : s.stkptr ≠ 0 := fun h => hempty (herr.mpr h)
    have hback : Inv s.pop.pushp := by
      apply pushp_inv h1
      rw [pop_stkptr]
      omega
    have hptr : s.pop.pushp.stkptr = s.stkptr := by
      rw [pushp_stkptr h1.stkptr, pop_stkptr]
      omega
    have hstacks := (stacks_pop s).trans (stacks_pushp s.pop)
    have heqk := eqk_spec hback
    generalize s.pop.pushp = t at hback hptr hstacks heqk
    generalize t.eqk = r at heqk ⊢
    obtain ⟨failed, u⟩ := r
    cases failed with
    | true =>
      have hlow := heqk.failed.mp rfl
      refine ⟨heqk.inv, hstacks.trans heqk.frame, iff_of_true rfl (by omega), ?_⟩
      have := heqk.stkptr
      rw [if_pos hlow] at this
      rw [if_pos (by omega)]
      exact this.trans hptr
    | false =>
      have hlow : ¬ t.stkptr < 2 := fun h2 => by simpa using heqk.failed.mpr h2
      obtain ⟨hinv, _⟩ := heqk.push hback (by omega) rfl
      refine ⟨hinv, (hstacks.trans heqk.frame).trans (stacks_pushp u),
        iff_of_false (by simp) (by omega), ?_⟩
      have := heqk.stkptr
      rw [if_neg hlow] at this
      have hu := pushp_stkptr heqk.inv.stkptr
      dsimp only at this hu
      change u.pushp.stkptr = _
      rw [if_neg (by omega)]
      omega

/-- `load` puts back what `cond` has taken off. -/
theorem cond_spec (h : Inv s) (holds : Bool) :
    Inv (s.cond holds).2 ∧ (s.cond holds).2.stkptr ≤ s.stkptr ∧
      (s.stkptr < 2 → (s.cond holds).1 = true ∧ Stacks s (s.cond holds).2 ∧
        (s.cond holds).2.stkptr = s.stkptr) ∧
      (2 ≤ s.stkptr → (s.cond holds).1 = holds ∧ Stacks s.readc (s.cond holds).2 ∧
        (holds = true → (s.cond holds).2.stkptr ≠ 0)) := by
  have hlt := h.stkptr
  have hsubt := subt_spec h
  unfold State.cond
  generalize s.subt = r at hsubt ⊢
  obtain ⟨failed, t⟩ := r
  have hptr := hsubt.stkptr
  dsimp only at hptr
  cases failed with
  | true =>
    have hlow := hsubt.failed.mp rfl
    rw [if_pos hlow] at hptr
    exact ⟨hsubt.inv, Nat.le_of_eq hptr, fun _ => ⟨rfl, hsubt.frame, hptr⟩, fun h2 => by omega⟩
  | false =>
    have hlow : ¬ s.stkptr < 2 := fun h2 => by simpa using hsubt.failed.mpr h2
    rw [if_neg hlow] at hptr
    have hpop := pop_inv hsubt.inv
    have hpopptr : t.pop.stkptr + 2 = s.stkptr := by
      rw [pop_stkptr]
      omega
    obtain ⟨_, _, hstacks⟩ := hsubt.frame.trans (stacks_pop t)
    dsimp only at hpop hstacks ⊢
    cases holds with
    | true =>
      have hload : Inv t.pop.load := by
        apply pushp_inv (readc_inv hpop)
        rw [readc_stkptr]
        omega
      have hloadptr : t.pop.load.stkptr = t.pop.stkptr + 1 := by
        change t.pop.readc.pushp.stkptr = _
        rw [pushp_stkptr (readc_inv hpop).stkptr, readc_stkptr]
      refine ⟨hload, ?_, fun h2 => by omega, fun _ => ⟨rfl, ?_, fun _ => ?_⟩⟩
      · change t.pop.load.stkptr ≤ _
        omega
      · have hread : Stacks s.readc t.pop.readc := by
          rw [hstacks]
          exact ⟨_, _, rfl⟩
        exact hread.trans (stacks_pushp _)
      · change t.pop.load.stkptr ≠ 0
        omega
    | false =>
      refine ⟨readc_inv hpop, ?_, fun h2 => by omega, fun _ => ⟨rfl, ?_, by simp⟩⟩
      · change t.pop.readc.stkptr ≤ _
        rw [readc_stkptr]
        omega
      · change Stacks s.readc t.pop.readc
        rw [hstacks]
        exact ⟨_, _, rfl⟩

theorem dscale_spec (h : Inv s) (zero : Bool) : Inv (s.dscale zero).2 ∧
    ((s.dscale zero).1 = false →
      Inv (s.dscale zero).2.pushp ∧ (s.dscale zero).2.pushp.stkptr ≤ s.stkptr) := by
  have heqk := eqk_spec h
  unfold State.dscale
  generalize s.eqk = r at heqk ⊢
  obtain ⟨failed, t⟩ := r
  cases failed with
  | true => exact ⟨heqk.inv, fun hok => by simp at hok⟩
  | false =>
    obtain ⟨hpush, hle⟩ := heqk.push h (by omega) rfl
    cases zero with
    | true => exact ⟨hpush, fun hok => by simp at hok⟩
    | false => exact ⟨heqk.inv, fun _ => ⟨hpush, hle⟩⟩

theorem divided_inv (h : Inv s) (zero : Bool) : Inv (s.divided zero) := by
  have hdscale := dscale_spec h zero
  unfold State.divided
  generalize s.dscale zero = r at hdscale ⊢
  obtain ⟨failed, t⟩ := r
  cases failed with
  | true => exact hdscale.1
  | false => exact (hdscale.2 rfl).1

theorem pop_pushp_inv (h : Inv s) (hne : s.stkptr ≠ 0) : Inv s.pop.pushp := by
  have hlt := h.stkptr
  apply pushp_inv (pop_inv h)
  rw [pop_stkptr]
  omega

/-- A called macro goes into `readstk`. -/
theorem execute_inv (h : Inv s) (text : Option ℕ) (hroom : s.stkptr = 0 ∨ Room s) :
    Inv (s.execute text) := by
  have h1 := pop_inv h
  have herr := pop_stkerr h
  obtain ⟨n, e, hpop⟩ := stacks_pop s
  unfold State.execute
  dsimp only
  split_ifs with hempty hblock hend hfull
  · exact h1
  · exact ⟨⟨h1.stkptr, h1.readptr, h1.registers⟩, h1.stkerr, h1.free⟩
  · have := h1.readptr
    omega
  · have hroom := hroom.resolve_left fun h0 => hempty (herr.mpr h0)
    rw [hpop] at hend hblock
    have hlt : s.readptr + 1 < RDSKSZ := hroom.resolve_right fun h => hend h.2
    refine ⟨⟨h1.stkptr, ?_, h1.registers⟩, h1.stkerr, h1.free⟩
    rw [hpop]
    exact hlt
  · have hroom := hroom.resolve_left fun h0 => hempty (herr.mpr h0)
    rw [hpop] at hblock
    have hlt : s.readptr + 1 < RDSKSZ := by
      obtain hlt | ⟨hne, hzero⟩ := hroom
      · exact hlt
      · exact absurd ⟨hne, by rw [hzero]; simp⟩ hblock
    refine ⟨⟨h1.stkptr, ?_, h1.registers⟩, h1.stkerr, h1.free⟩
    rw [hpop]
    exact hlt

/-- A new register is an element of `symlst`. -/
theorem save_inv (h : Inv s) {c : UInt8} {new : Bool}
    (hfree : new = true → 2 ≤ s.sfree.length) (hs : s.save c new = some s') : Inv s' := by
  obtain ⟨front, hfront, hlt⟩ := h.free
  unfold State.save at hs
  cases new with
  | false =>
    rw [if_neg (by decide), Option.some.injEq] at hs
    rw [← hs]
    exact pop_inv h
  | true =>
    have hlen := hfree rfl
    rw [if_pos rfl] at hs
    unfold State.create at hs
    rw [hfront] at hlen hs
    match front, hlt with
    | [], _ => simp at hlen
    | e :: rest, hlt =>
      obtain ⟨e', tail, htail⟩ : ∃ e' tail, rest ++ [TBLSZ] = e' :: tail := by
        cases rest with
        | nil => exact ⟨_, _, rfl⟩
        | cons a rest => exact ⟨_, _, rfl⟩
      rw [List.cons_append, htail] at hs
      dsimp only at hs
      rw [Option.some.injEq] at hs
      rw [← hs]
      apply pop_inv
      refine ⟨⟨h.stkptr, h.readptr, ?_⟩, h.stkerr, rest, htail.symm,
        fun x hx => hlt x (by simp [hx])⟩
      intro name x hx
      dsimp only at hx
      by_cases hname : name = c
      · rw [hname, update_self] at hx
        obtain rfl | hx := List.mem_cons.mp hx
        · exact hlt x (by simp)
        · exact h.registers c x hx
      · rw [update_of_ne hname] at hx
        exact h.registers name x hx

theorem cond_inv (h : Inv s) (holds : Bool) : Inv (s.cond holds).2 := (cond_spec h holds).1

/-- The rest of a command after a `pop` that succeeds. -/
theorem withArg_inv {rest : State → Option State} (h : Inv s)
    (hrest : ∀ s', Inv s.pop → s.stkptr ≠ 0 → rest s.pop = some s' → Inv s')
    (hs : s.withArg rest = some s') : Inv s' := by
  have herr := pop_stkerr h
  unfold State.withArg at hs
  split_ifs at hs with hempty
  · rw [← Option.some.inj hs]
    exact pop_inv h
  · exact hrest s' (pop_inv h) (fun h0 => hempty (herr.mpr h0)) hs

theorem ask_inv (h : Inv s) (conds : List Bool) (chars : ℕ) (hroom : s.readptr + 1 < RDSKSZ)
    (hs : body s (.ask conds chars) = some s') : Inv s' := by
  dsimp only [body] at hs
  rw [if_neg (by omega), Option.some.injEq] at hs
  have hconds : ∀ (conds : List Bool) (t : State), Inv t →
      Inv (conds.foldl (fun s holds => (s.cond holds).2) t) := by
    intro conds
    induction conds with
    | nil => exact fun _ ht => ht
    | cons holds conds ih => exact fun t ht => ih _ (cond_inv ht holds)
  have hstart : Inv { s with
      readptr := s.readptr + 1, readstk := update s.readstk (s.readptr + 1) none } :=
    ⟨⟨h.stkptr, hroom, h.registers⟩, h.stkerr, h.free⟩
  have hend := hconds conds _ hstart
  rw [← hs]
  exact ⟨⟨hend.stkptr, hend.readptr, hend.registers⟩, hend.stkerr, hend.free⟩

theorem compare_inv (h : Inv s) (bang holds : Bool) (text : Option ℕ)
    (hroom : Ok s (.compare bang holds text))
    (hs : body s (.compare bang holds text) = some s') : Inv s' := by
  unfold Ok at hroom
  dsimp only [body] at hs
  dsimp only at hroom
  have ht : Inv (if bang = true then s.readc else s) := by
    split_ifs
    · exact readc_inv h
    · exact h
  generalize (if bang = true then s.readc else s) = t at hroom hs ht
  obtain ⟨hinv, hle, hfail, hcmp⟩ := cond_spec ht holds
  generalize t.cond holds = r at hs hinv hle hfail hcmp
  obtain ⟨jumps, u⟩ := r
  cases jumps with
  | false =>
    rw [← Option.some.inj hs]
    exact hinv
  | true =>
    rw [← Option.some.inj hs]
    apply execute_inv hinv
    by_cases hlow : t.stkptr < 2
    · obtain ⟨_, ⟨_, _, hstacks⟩, hsame⟩ := hfail hlow
      dsimp only at hstacks hsame
      obtain h0 | hrest := hroom
      · exact Or.inl (hsame.trans h0)
      · by_cases h1 : t.stkptr = 1
        · rw [if_pos h1] at hrest
          right
          rw [hstacks]
          exact hrest
        · left
          omega
    · obtain ⟨hholds, ⟨_, _, hstacks⟩, _⟩ := hcmp (by omega)
      dsimp only at hstacks hholds
      have hrest := hroom.resolve_left (by omega)
      rw [if_neg (by omega), ← hholds] at hrest
      right
      rw [hstacks]
      exact hrest.resolve_left (by decide)

/-- No command leaves the arrays in a state that has room for it. -/
theorem body_inv (h : Inv s) (a : Cmd) (hok : Ok s a) (hs : body s a = some s') : Inv s' := by
  have hlt := h.stkptr
  cases a with
  | other => exact Option.some.inj hs ▸ h
  | number digits =>
    dsimp only [Ok] at hok
    rw [← Option.some.inj hs]
    exact pushp_inv (unreadc_inv (readcs_inv digits (unreadc_inv h))) (by simpa using hok)
  | negative digits =>
    dsimp only [Ok] at hok
    rw [← Option.some.inj hs]
    exact pushp_inv (unreadc_inv (readcs_inv digits h)) (by simpa using hok)
  | minus =>
    rw [← Option.some.inj hs]
    exact (subt_spec h).inv
  | plus =>
    have heqk := eqk_spec h
    dsimp only [body] at hs
    generalize s.eqk = r at heqk hs
    obtain ⟨failed, t⟩ := r
    cases failed with
    | true => exact Option.some.inj hs ▸ heqk.inv
    | false =>
      rw [← Option.some.inj hs]
      exact (heqk.push h (by omega) rfl).1
  | times =>
    have heqk := eqk_spec h
    dsimp only [body] at hs
    generalize s.eqk = r at heqk hs
    obtain ⟨failed, t⟩ := r
    cases failed with
    | true => exact Option.some.inj hs ▸ heqk.inv
    | false =>
      rw [← Option.some.inj hs]
      apply pop_pushp_inv (heqk.push h (by omega) rfl).1
      have hptr := pushp_stkptr heqk.inv.stkptr
      omega
  | divide zero =>
    rw [← Option.some.inj hs]
    exact divided_inv h zero
  | remainder zero =>
    have hdscale := dscale_spec h zero
    dsimp only [body] at hs
    generalize s.dscale zero = r at hdscale hs
    obtain ⟨failed, t⟩ := r
    cases failed with
    | true => exact Option.some.inj hs ▸ hdscale.1
    | false =>
      rw [← Option.some.inj hs]
      apply pop_pushp_inv (hdscale.2 rfl).1
      have hptr := pushp_stkptr hdscale.1.stkptr
      omega
  | v negative =>
    dsimp only [body] at hs
    refine withArg_inv h (fun s' hpop hne hrest => ?_) hs
    rw [← Option.some.inj hrest]
    split_ifs
    · exact hpop
    · exact pop_pushp_inv h hne
  | power fraction tooBig neg zero =>
    dsimp only [body] at hs
    refine withArg_inv h (fun s' hpop hne hrest => ?_) hs
    have hpop2 := pop_inv hpop
    have hpush : Inv s.pop.pop.pushp := by
      apply pushp_inv hpop2
      rw [pop_stkptr, pop_stkptr]
      omega
    split_ifs at hrest with h1 h2 h3 h4
    · exact Option.some.inj hrest ▸ hpop
    · exact Option.some.inj hrest ▸ hpush
    · exact Option.some.inj hrest ▸ hpop2
    · rw [← Option.some.inj hrest]
      have hone : s.pop.stkptr ≠ 0 := fun h0 => h2 ((pop_stkerr hpop).mpr h0)
      rw [pop_stkptr] at hone
      have hagain := pop_inv hpush
      have hagainptr : s.pop.pop.pushp.pop.stkptr + 2 = s.stkptr := by
        rw [pop_stkptr, pushp_stkptr hpop2.stkptr, pop_stkptr, pop_stkptr]
        omega
      have hq := pushp_inv hagain (by omega)
      apply divided_inv
      apply pushp_inv hq
      rw [pushp_stkptr hagain.stkptr]
      omega
    · exact Option.some.inj hrest ▸ hpush
  | setting => exact Option.some.inj hs ▸ pushp_inv h hok
  | measure =>
    dsimp only [body] at hs
    refine withArg_inv h (fun s' _ hne hrest => ?_) hs
    rw [← Option.some.inj hrest]
    exact pop_pushp_inv h hne
  | consume =>
    dsimp only [body] at hs
    refine withArg_inv h (fun s' hpop _ hrest => ?_) hs
    rw [← Option.some.inj hrest]
    exact hpop
  | string chars =>
    dsimp only [Ok] at hok
    rw [← Option.some.inj hs]
    exact pushp_inv (readcs_inv chars h) (by simpa using hok)
  | Q refused levels =>
    dsimp only [body] at hs
    refine withArg_inv h (fun s' hpop _ hrest => ?_) hs
    split_ifs at hrest
    · exact Option.some.inj hrest ▸ hpop
    · rw [← Option.some.inj hrest]
      exact ⟨⟨hpop.stkptr, lt_of_le_of_lt (Nat.sub_le _ _) hpop.readptr, hpop.registers⟩,
        hpop.stkerr, hpop.free⟩
  | q =>
    dsimp only [body] at hs
    split_ifs at hs
    rw [← Option.some.inj hs]
    exact ⟨⟨hlt, lt_of_le_of_lt (Nat.sub_le _ _) h.readptr, h.registers⟩, h.stkerr, h.free⟩
  | d =>
    dsimp only [body] at hs
    split_ifs at hs
    · exact Option.some.inj hs ▸ h
    · exact Option.some.inj hs ▸ pushp_inv h hok
  | c =>
    dsimp only [body] at hs
    split_ifs at hs
    · exact Option.some.inj hs ▸ h
    · rw [← Option.some.inj hs]
      exact ⟨⟨Nat.zero_lt_of_lt hlt, h.readptr, h.registers⟩, fun _ => rfl, h.free⟩
  | S name =>
    dsimp only [body] at hs
    split_ifs at hs with h0
    · exact Option.some.inj hs ▸ h
    · exact save_inv (readc_inv h) (fun _ => hok.resolve_left h0) hs
  | s name =>
    dsimp only [body] at hs
    split_ifs at hs with h0
    · exact Option.some.inj hs ▸ h
    · apply save_inv (readc_inv h) ?_ hs
      intro hnew
      exact (hok.resolve_left h0).resolve_left (fun hold => hold (by simpa using hnew))
  | l =>
    rw [← Option.some.inj hs]
    exact pushp_inv (readc_inv h) hok
  | L name =>
    dsimp only [body] at hs
    obtain ⟨front, hfront, hfree⟩ := h.free
    cases hname : s.stable name with
    | nil =>
      rw [hname] at hs
      exact Option.some.inj hs ▸ readc_inv h
    | cons e rest =>
      rw [hname] at hs
      rw [← Option.some.inj hs]
      have hregs : ∀ x ∈ s.stable name, x < TBLSZ := h.registers name
      rw [hname] at hregs
      refine pushp_inv ⟨⟨hlt, (readc_inv h).readptr, ?_⟩, h.stkerr, e :: front, ?_, ?_⟩ ?_
      · intro other x hx
        dsimp only at hx
        by_cases hother : other = name
        · rw [hother, update_self] at hx
          exact hregs x (by simp [hx])
        · rw [update_of_ne hother] at hx
          exact h.registers other x hx
      · dsimp only
        rw [hfront]
        rfl
      · intro x hx
        obtain rfl | hx := List.mem_cons.mp hx
        · exact hregs x (by simp)
        · exact hfree x hx
      · exact hok.resolve_left (by rw [hname]; simp)
  | arrayStore refused name =>
    dsimp only [body] at hs
    refine withArg_inv h (fun s' hpop hne hrest => ?_) hs
    obtain ⟨_, _, hstacks⟩ := stacks_pop s
    split_ifs at hrest with hrefused
    · exact Option.some.inj hrest ▸ hpop
    · apply save_inv (readc_inv hpop) ?_ hrest
      intro hnew
      have hfree := ((hok.resolve_left hne).resolve_left hrefused).resolve_left
        (fun hold => hold (by rw [hstacks] at hnew; simpa using hnew))
      rw [hstacks]
      exact hfree
  | arrayLoad refused =>
    dsimp only [body] at hs
    refine withArg_inv h (fun s' hpop hne hrest => ?_) hs
    split_ifs at hrest
    · exact Option.some.inj hrest ▸ hpop
    · rw [← Option.some.inj hrest]
      apply pushp_inv (readc_inv hpop)
      rw [readc_stkptr, pop_stkptr]
      omega
  | x text =>
    rw [← Option.some.inj hs]
    exact execute_inv h text hok
  | ask conds chars => exact ask_inv h conds chars hok hs
  | shell chars => exact Option.some.inj hs ▸ readcs_inv chars h
  | compare bang holds text => exact compare_inv h bang holds text hok hs

theorem pushp_out (h : Inv s) (hfull : ¬ s.stkptr + 1 < STKSZ) : ¬ Bounds s.pushp := by
  intro hb
  have := hb.stkptr
  rw [pushp_stkptr h.stkptr] at this
  exact hfull this

theorem execute_out (h : Inv s) (text : Option ℕ) (hne : s.stkptr ≠ 0) (hroom : ¬ Room s) :
    ¬ Bounds (s.execute text) := by
  intro hb
  have hlt := h.readptr
  have herr : s.pop.stkerr = false := by
    rw [← Bool.not_eq_true]
    exact fun herr => hne ((pop_stkerr h).mp herr)
  obtain ⟨n, e, hpop⟩ := stacks_pop s
  have hfull : ¬ s.readptr + 1 < RDSKSZ := fun hlt => hroom (Or.inl hlt)
  have hafter := hb.readptr
  unfold State.execute at hafter
  dsimp only at hafter
  rw [if_neg (by rw [herr]; decide), hpop] at hafter
  dsimp only at hafter
  split_ifs at hafter with hblock hend hlast
  · exact hroom (Or.inr ⟨hblock.1, hend⟩)
  · exact hfull hafter
  · exact hfull hafter
  · exact hfull hafter

theorem save_out (h : Inv s) {c : UInt8} (hfree : ¬ 2 ≤ s.sfree.length)
    (hs : s.save c true = some s') : ¬ Bounds s' := by
  obtain ⟨front, hfront, _⟩ := h.free
  rw [hfront, List.length_append, List.length_singleton] at hfree
  obtain rfl : front = [] := List.length_eq_zero_iff.mp (by omega)
  unfold State.save State.create at hs
  rw [if_pos rfl, hfront] at hs
  intro hb
  have hreg := hb.registers c TBLSZ (by
    rw [← Option.some.inj hs]
    simp)
  exact lt_irrefl _ hreg

theorem compare_out (h : Inv s) (bang holds : Bool) (text : Option ℕ)
    (hroom : ¬ Ok s (.compare bang holds text))
    (hs : body s (.compare bang holds text) = some s') : ¬ Bounds s' := by
  dsimp only [Ok, body] at hroom hs
  have ht : Inv (if bang = true then s.readc else s) := by
    split_ifs
    · exact readc_inv h
    · exact h
  generalize (if bang = true then s.readc else s) = t at hroom hs ht
  rw [not_or] at hroom
  obtain ⟨hne, hroom⟩ := hroom
  obtain ⟨hinv, _, hfail, hcmp⟩ := cond_spec ht holds
  generalize t.cond holds = r at hs hinv hfail hcmp
  obtain ⟨jumps, u⟩ := r
  by_cases h1 : t.stkptr = 1
  · obtain ⟨hjumps, ⟨_, _, hstacks⟩, hsame⟩ := hfail (by omega)
    dsimp only at hjumps hstacks hsame
    rw [if_pos h1] at hroom
    rw [hjumps] at hs
    rw [← Option.some.inj hs]
    apply execute_out hinv
    · dsimp only
      omega
    · rw [hstacks]
      exact hroom
  · obtain ⟨hjumps, ⟨n, e, hstacks⟩, hptr⟩ := hcmp (by omega)
    dsimp only at hjumps hstacks hptr
    rw [if_neg h1, not_or] at hroom
    have hholds : holds = true := by simpa using hroom.1
    rw [hjumps, hholds] at hs
    rw [← Option.some.inj hs]
    apply execute_out hinv text (hptr hholds)
    rw [hstacks]
    exact hroom.2

/-- Without room a command that needs it leaves the arrays. -/
theorem body_out (h : Inv s) (a : Cmd) (hok : ¬ Ok s a) (hs : body s a = some s') :
    ¬ Bounds s' := by
  cases a with
  | number digits =>
    dsimp only [Ok] at hok
    rw [← Option.some.inj hs]
    exact pushp_out (unreadc_inv (readcs_inv digits (unreadc_inv h))) (by simpa using hok)
  | negative digits =>
    dsimp only [Ok] at hok
    rw [← Option.some.inj hs]
    exact pushp_out (unreadc_inv (readcs_inv digits h)) (by simpa using hok)
  | setting => exact Option.some.inj hs ▸ pushp_out h hok
  | string chars =>
    dsimp only [Ok] at hok
    rw [← Option.some.inj hs]
    exact pushp_out (readcs_inv chars h) (by simpa using hok)
  | d =>
    dsimp only [body] at hs
    rw [if_neg (fun h0 => hok (by rw [Ok, h0]; decide))] at hs
    exact Option.some.inj hs ▸ pushp_out h hok
  | S name =>
    dsimp only [body] at hs
    dsimp only [Ok] at hok
    rw [not_or] at hok
    rw [if_neg hok.1] at hs
    exact save_out (readc_inv h) hok.2 hs
  | s name =>
    dsimp only [body] at hs
    dsimp only [Ok] at hok
    rw [not_or, not_or, not_not] at hok
    rw [if_neg hok.1, decide_eq_true hok.2.1] at hs
    exact save_out (readc_inv h) hok.2.2 hs
  | l =>
    rw [← Option.some.inj hs]
    exact pushp_out (readc_inv h) hok
  | L name =>
    dsimp only [body] at hs
    dsimp only [Ok] at hok
    rw [not_or] at hok
    cases hname : s.stable name with
    | nil => exact absurd hname hok.1
    | cons e rest =>
      rw [hname] at hs
      rw [← Option.some.inj hs]
      intro hb
      have hptr := hb.stkptr
      rw [pushp_stkptr (by exact h.stkptr)] at hptr
      exact hok.2 hptr
  | arrayStore refused name =>
    dsimp only [body] at hs
    dsimp only [Ok] at hok
    rw [not_or, not_or, not_or, not_not] at hok
    obtain ⟨hne, hrefused, hnew, hfree⟩ := hok
    obtain ⟨_, _, hstacks⟩ := stacks_pop s
    unfold State.withArg at hs
    rw [if_neg (fun herr => hne ((pop_stkerr h).mp herr))] at hs
    dsimp only at hs
    rw [if_neg hrefused, decide_eq_true (by rw [hstacks]; exact hnew)] at hs
    apply save_out (readc_inv (pop_inv h)) ?_ hs
    rw [hstacks]
    exact hfree
  | x text =>
    dsimp only [Ok] at hok
    rw [not_or] at hok
    rw [← Option.some.inj hs]
    exact execute_out h text hok.1 hok.2
  | ask conds chars =>
    have hlt := h.readptr
    dsimp only [body] at hs
    dsimp only [Ok] at hok
    rw [if_pos (by omega)] at hs
    rw [← Option.some.inj hs]
    exact fun hb => hok hb.readptr
  | compare bang holds text => exact compare_out h bang holds text hok hs
  | _ => exact absurd trivial hok

/-- Before a command that does not end the program there is room exactly when the arrays hold
what it leaves. -/
theorem bounds_step_iff (h : Inv s) (a : Cmd) (hs : step s a = some s') :
    Bounds s' ↔ ok s a := by
  constructor
  · intro hb
    by_contra hok
    exact body_out (readc_inv h) a hok hs hb
  · exact fun hok => (body_inv (readc_inv h) a hok hs).toBounds

/-- In every run whose commands find room the pointers and registers stay inside the arrays. -/
theorem bounds_of_reach (h : Reach step ok init s) : Bounds s := by
  have hinv : Inv s := h.invariant init_inv fun s a s' hs hok hstep =>
    body_inv (readc_inv hs) a hok hstep
  exact hinv.toBounds

/-- `[z]x`: the macro is called, and pushes a value. -/
theorem bounds_of_reach_z : ∃ s, Reach step ok init s ∧ s.stkptr = 1 ∧ s.readptr = 1 ∧
    Bounds s := by
  have hstring : Reach step ok init (init.readc.readcs 2).pushp :=
    .next .start (a := .string 2) (show 0 + 1 < STKSZ by decide) rfl
  have hx : Reach step ok init ((init.readc.readcs 2).pushp.readc.execute (some 1)) :=
    .next hstring (a := .x (some 1)) (Or.inr (Or.inl (show 0 + 1 < RDSKSZ by decide))) rfl
  have hz : Reach step ok init
      ((init.readc.readcs 2).pushp.readc.execute (some 1)).readc.pushp :=
    .next hx (a := .setting) (show 0 + 1 < STKSZ by decide) rfl
  exact ⟨_, hz, rfl, rfl, bounds_of_reach hz⟩

/-- As many values as there are entries fit in `stack`, and one more does not. -/
theorem not_bounds_of_reach : ¬ ∀ s, Reach step (fun _ _ => True) init s → Bounds s := by
  intro h
  have hpushed : ∀ n ≤ STKSZ, ∃ s, Reach step (fun _ _ => True) init s ∧ s.stkptr = n := by
    intro n
    induction n with
    | zero => exact fun _ => ⟨init, .start, rfl⟩
    | succ n ih =>
      intro hn
      obtain ⟨s, hs, hptr⟩ := ih (by omega)
      refine ⟨s.readc.pushp, .next hs (a := .setting) trivial rfl, ?_⟩
      rw [pushp_stkptr (by rw [readc_stkptr]; omega), readc_stkptr, hptr]
  obtain ⟨s, hs, hptr⟩ := hpushed STKSZ le_rfl
  have := (h s hs).stkptr
  omega

end Unitas.Dc.Storage
