import Mathlib.Algebra.Order.Ring.Int
import Unitas.Lib.LinkedList
import Unitas.Lib.Transition
import Unitas.Sh.Args

/-! The blocks of parameters over runs: their use counts are the references to them, and the
`argfor` chain is what the commands that are not done yet have left of it. -/
namespace Unitas.Sh.Args
open Unitas.LinkedList Unitas.Transition

def Frame.block : Frame → Option Ptr
  | call olddolh _ _ => olddolh
  | loop _ argsav => argsav

def Frame.argp : Frame → Argp
  | call _ olddolv _ => olddolv
  | loop args _ => args

def State.next (s : State) (p : Ptr) : Option Ptr := (s.heap p).bind Block.dolnxt

/-- The block of the innermost command, if that is a loop. -/
def loopBlock : List Frame → Option Ptr
  | .loop _ argsav :: _ => argsav
  | _ => none

variable {s s' s₁ : State} {next next' : Ptr → Option Ptr} {c a : Option Ptr} {p q : Ptr}
  {fs : List Frame} {f : Frame} {b : Block}

/-! ### The chain -/

/-- What `argfor` can be where the current block is `c`: a loop leaves its block on the chain
until one like it has ended after the block ceased to be the current one. -/
def Top (next : Ptr → Option Ptr) (c a : Option Ptr) : List Frame → Prop
  | [] => a = none
  | .call olddolh _ _ :: _ => a = olddolh
  | .loop _ none :: _ => a = none
  | .loop _ (some p) :: _ => a = some p ∨ (c ≠ some p ∧ a = next p)

/-- The frames above which a block `p` has come to the chain. -/
def Sits (next : Ptr → Option Ptr) (c : Option Ptr) (p : Ptr) (fs : List Frame) : Prop :=
  loopBlock fs = some p ∨ (some p ∉ fs.map Frame.block ∧ Top next c (next p) fs)

def Below (next : Ptr → Option Ptr) : Option Ptr → List Frame → Prop
  | _, [] => True
  | _, .call none _ _ :: fs | _, .loop _ none :: fs => ∀ f ∈ fs, f.block = none
  | _, .call (some p) _ _ :: fs => Below next (some p) fs ∧ Sits next (some p) p fs
  | c, .loop _ (some p) :: fs => Below next c fs ∧ Sits next c p fs

theorem Top.congr (h : Top next c a fs)
    (hnext : ∀ p, some p ∈ fs.map Frame.block → next' p = next p) : Top next' c a fs := by
  cases fs with
  | nil => exact h
  | cons f fs =>
    cases f with
    | call olddolh olddolv olddolc => exact h
    | loop args argsav =>
      cases argsav with
      | none => exact h
      | some p =>
        have hp : next' p = next p := hnext p (List.mem_cons_self ..)
        rw [Top, hp]
        exact h

theorem Sits.congr (h : Sits next c p fs) (hp : next' p = next p)
    (hnext : ∀ p, some p ∈ fs.map Frame.block → next' p = next p) : Sits next' c p fs := by
  refine h.imp_right fun ⟨hout, htop⟩ => ⟨hout, ?_⟩
  rw [hp]
  exact htop.congr hnext

theorem Below.congr (h : Below next c fs)
    (hnext : ∀ p, some p ∈ fs.map Frame.block → next' p = next p) : Below next' c fs := by
  induction fs generalizing c with
  | nil => trivial
  | cons f fs ih =>
    have htail : ∀ p, some p ∈ fs.map Frame.block → next' p = next p :=
      fun p hp => hnext p (List.mem_cons_of_mem _ hp)
    cases f with
    | call olddolh olddolv olddolc =>
      cases olddolh with
      | none => exact h
      | some p => exact ⟨ih h.1 htail, h.2.congr (hnext p (List.mem_cons_self ..)) htail⟩
    | loop args argsav =>
      cases argsav with
      | none => exact h
      | some p => exact ⟨ih h.1 htail, h.2.congr (hnext p (List.mem_cons_self ..)) htail⟩

/-- A new block becomes the current one. -/
theorem Top.fresh (h : Top next c a fs) (hp : some p ∉ fs.map Frame.block) :
    Top next (some p) a fs := by
  cases fs with
  | nil => exact h
  | cons f fs =>
    cases f with
    | call olddolh olddolv olddolc => exact h
    | loop args argsav =>
      cases argsav with
      | none => exact h
      | some q =>
        refine h.imp_right fun ⟨_, heq⟩ => ⟨fun hpq => hp ?_, heq⟩
        rw [hpq]
        exact List.mem_cons_self ..

theorem Below.fresh (h : Below next c fs) (hp : some p ∉ fs.map Frame.block) :
    Below next (some p) fs := by
  induction fs with
  | nil => trivial
  | cons f fs ih =>
    cases f with
    | call olddolh olddolv olddolc =>
      cases olddolh with
      | none => exact h
      | some q => exact h
    | loop args argsav =>
      cases argsav with
      | none => exact h
      | some q =>
        have htail : some p ∉ fs.map Frame.block := fun hmem => hp (List.mem_cons_of_mem _ hmem)
        exact ⟨ih h.1 htail, h.2.imp_right fun ⟨hout, htop⟩ => ⟨hout, htop.fresh htail⟩⟩

/-- Before there is any block. -/
theorem Top.of_none (h : ∀ f ∈ fs, f.block = none) : Top next c a fs ↔ a = none := by
  cases fs with
  | nil => exact Iff.rfl
  | cons f fs =>
    have hf := h f (List.mem_cons_self ..)
    cases f with
    | call olddolh olddolv olddolc =>
      rw [Top, show olddolh = none from hf]
    | loop args argsav =>
      obtain rfl : argsav = none := hf
      exact Iff.rfl

theorem Below.of_none (h : ∀ f ∈ fs, f.block = none) : Below next c fs := by
  cases fs with
  | nil => trivial
  | cons f fs =>
    have hf := h f (List.mem_cons_self ..)
    have htail : ∀ f ∈ fs, f.block = none := fun f hf => h f (List.mem_cons_of_mem _ hf)
    cases f with
    | call olddolh olddolv olddolc =>
      obtain rfl : olddolh = none := hf
      exact htail
    | loop args argsav =>
      obtain rfl : argsav = none := hf
      exact htail

theorem not_mem_of_none (h : ∀ f ∈ fs, f.block = none) (p : Ptr) :
    some p ∉ fs.map Frame.block := by
  rintro hmem
  obtain ⟨f, hf, heq⟩ := List.mem_map.mp hmem
  cases (h f hf).symm.trans heq

theorem mem_of_loopBlock (h : loopBlock fs = some p) : some p ∈ fs.map Frame.block := by
  cases fs with
  | nil => cases h
  | cons f fs =>
    cases f with
    | call olddolh olddolv olddolc => cases h
    | loop args argsav =>
      obtain rfl : argsav = some p := h
      exact List.mem_cons_self ..

theorem Top.self (h : loopBlock fs = some p) : Top next c (some p) fs := by
  cases fs with
  | nil => cases h
  | cons f fs =>
    cases f with
    | call olddolh olddolv olddolc => cases h
    | loop args argsav =>
      obtain rfl : argsav = some p := h
      exact .inl rfl

theorem Top.popped (h : loopBlock fs = some p) (hc : c ≠ some p) : Top next c (next p) fs := by
  cases fs with
  | nil => cases h
  | cons f fs =>
    cases f with
    | call olddolh olddolv olddolc => cases h
    | loop args argsav =>
      obtain rfl : argsav = some p := h
      exact .inr ⟨hc, rfl⟩

theorem Sits.kept (h : Sits next c p fs) (hp : some p ∈ fs.map Frame.block) :
    Top next c (some p) fs :=
  Top.self (h.resolve_right fun hno => hno.1 hp)

theorem Sits.popped (h : Sits next c p fs) (hc : some p ∈ fs.map Frame.block → c ≠ some p) :
    Top next c (next p) fs := by
  rcases h with hloop | ⟨-, htop⟩
  · exact Top.popped hloop (hc (mem_of_loopBlock hloop))
  · exact htop

/-- The chain is that of blocks that the commands refer to. -/
theorem Top.exists_chain (h : Top next c a fs) (hbelow : Below next c fs) :
    ∃ l, Chain next a l ∧ ∀ p ∈ l, some p ∈ fs.map Frame.block := by
  induction fs generalizing c a with
  | nil =>
    obtain rfl : a = none := h
    exact ⟨[], .nil, fun _ => nofun⟩
  | cons f fs ih =>
    have hsits : ∀ {c p}, Below next c fs → Sits next c p fs →
        (∃ l, Chain next (some p) l ∧ ∀ q ∈ l, q = p ∨ some q ∈ fs.map Frame.block) ∧
          (c ≠ some p → ∃ l, Chain next (next p) l ∧ ∀ q ∈ l, some q ∈ fs.map Frame.block) := by
      intro c p hbelow hsits
      rcases hsits with hloop | ⟨-, htop⟩
      · obtain ⟨l, hl, hmem⟩ := ih (c := c) (Top.self hloop) hbelow
        exact ⟨⟨l, hl, fun q hq => .inr (hmem q hq)⟩, fun hc => ih (Top.popped hloop hc) hbelow⟩
      · obtain ⟨l, hl, hmem⟩ := ih htop hbelow
        refine ⟨⟨p :: l, .cons hl, fun q hq => ?_⟩, fun _ => ⟨l, hl, hmem⟩⟩
        exact (List.mem_cons.mp hq).imp_right (hmem q)
    cases f with
    | call olddolh olddolv olddolc =>
      obtain rfl : a = olddolh := h
      cases a with
      | none => exact ⟨[], .nil, fun _ => nofun⟩
      | some p =>
        obtain ⟨⟨l, hl, hmem⟩, -⟩ := hsits hbelow.1 hbelow.2
        refine ⟨l, hl, fun q hq => List.mem_cons.mpr ?_⟩
        exact (hmem q hq).imp_left fun hqp => by rw [hqp]; rfl
    | loop args argsav =>
      cases argsav with
      | none =>
        obtain rfl : a = none := h
        exact ⟨[], .nil, fun _ => nofun⟩
      | some p =>
        obtain ⟨hon, hoff⟩ := hsits hbelow.1 hbelow.2
        rcases h with rfl | ⟨hc, rfl⟩
        · obtain ⟨l, hl, hmem⟩ := hon
          refine ⟨l, hl, fun q hq => List.mem_cons.mpr ?_⟩
          exact (hmem q hq).imp_left fun hqp => by rw [hqp]; rfl
        · obtain ⟨l, hl, hmem⟩ := hoff hc
          exact ⟨l, hl, fun q hq => List.mem_cons_of_mem _ (hmem q hq)⟩

/-! ### Use counts -/

/-- The references to a block: `dolh`, and the commands that are not done yet. -/
def State.refs (s : State) (p : Ptr) : ℕ :=
  (if s.dolh = some p then 1 else 0) + (s.frames.map Frame.block).count (some p)

def Counted (heap : Ptr → Option Block) (refs : Ptr → ℕ) : Prop :=
  ∀ p, (∀ b, heap p = some b → b.doluse = refs p) ∧ (heap p = none ↔ refs p = 0)

theorem Counted.release {heap : Ptr → Option Block} {refs refs' : Ptr → ℕ} (h : Counted heap refs)
    (hp : heap p = some b) (hrefs : refs p = refs' p + 1) (hne : ∀ q, q ≠ p → refs q = refs' q) :
    Counted (Function.update heap p
      (if b.doluse - 1 = 0 then none else some { b with doluse := b.doluse - 1 })) refs' := by
  intro q
  by_cases hq : q = p
  · subst hq
    have huse := (h q).1 b hp
    rw [Function.update_self]
    split_ifs with hzero
    · exact ⟨fun _ => nofun, by simp; omega⟩
    · refine ⟨fun b' hb' => ?_, by simp; omega⟩
      rw [← Option.some.inj hb']
      dsimp only
      omega
  · rw [Function.update_of_ne hq, ← hne q hq]
    exact h q

theorem Counted.acquire {heap : Ptr → Option Block} {refs refs' : Ptr → ℕ} (h : Counted heap refs)
    (hp : heap p = some b) {b' : Block} (hb' : b'.doluse = b.doluse + 1)
    (hrefs : refs' p = refs p + 1) (hne : ∀ q, q ≠ p → refs q = refs' q) :
    Counted (Function.update heap p (some b')) refs' := by
  intro q
  by_cases hq : q = p
  · subst hq
    have huse := (h q).1 b hp
    rw [Function.update_self]
    refine ⟨fun b'' hb'' => ?_, by simp; omega⟩
    rw [← Option.some.inj hb'', hb']
    omega
  · rw [Function.update_of_ne hq, ← hne q hq]
    exact h q

theorem Counted.alloc {heap : Ptr → Option Block} {refs refs' : Ptr → ℕ} (h : Counted heap refs)
    {b' : Block} (hb' : b'.doluse = 1) (hrefs : refs' p = 1)
    (hne : ∀ q, q ≠ p → refs q = refs' q) :
    Counted (Function.update heap p (some b')) refs' := by
  intro q
  by_cases hq : q = p
  · subst hq
    rw [Function.update_self]
    refine ⟨fun b'' hb'' => ?_, by simp; omega⟩
    rw [← Option.some.inj hb'', hb', hrefs]
    rfl
  · rw [Function.update_of_ne hq, ← hne q hq]
    exact h q

/-! ### Invariant -/

structure State.Base (s : State) : Prop where
  counted : Counted s.heap s.refs
  top : Top s.next s.dolh s.argfor s.frames
  below : Below s.next s.dolh s.frames
  outer : s.dolh = none → ∀ f ∈ s.frames, f.block = none
  dolv : s.dolv.block = none ∨ s.dolv.block = s.dolh
  argp : ∀ f ∈ s.frames, f.argp.block = none ∨ f.argp.block = f.block

/-- Only a loop keeps the current block, and the innermost command is one then. -/
structure State.Inv (s : State) : Prop extends s.Base where
  cur : ∀ p, s.dolh = some p → some p ∈ s.frames.map Frame.block → loopBlock s.frames = some p

def State.arg (s : State) (p : Ptr) : Option (List Str) := (s.heap p).map Block.dolarg

/-- A step keeps the strings of a block as long as anything refers to it. -/
structure Keeps (s s' : State) : Prop where
  argv : s'.argv = s.argv
  arg : ∀ p, some p ∈ s.frames.map Frame.block → s'.refs p ≠ 0 → s'.arg p = s.arg p

theorem State.refs_of_mem (h : some p ∈ s.frames.map Frame.block) : s.refs p ≠ 0 := by
  have hpos := List.count_pos_iff.mpr h
  rw [State.refs]
  omega

theorem State.Base.deref (h : s.Base) (hp : s.refs p ≠ 0) :
    ∃ b, s.heap p = some b ∧ s.deref p = .ok b ∧ b.doluse = s.refs p := by
  cases hb : s.heap p with
  | none => exact absurd ((h.counted p).2.mp hb) hp
  | some b => exact ⟨b, rfl, by rw [State.deref, hb], (h.counted p).1 b hb⟩

theorem State.next_put_of_ne (hq : q ≠ p) (b : Option Block) : (s.put p b).next q = s.next q := by
  simp only [State.next, State.put, Function.update_of_ne hq]

theorem State.next_put_self (b : Option Block) : (s.put p b).next p = b.bind Block.dolnxt := by
  simp only [State.next, State.put, Function.update_self]

theorem State.arg_put_of_ne (hq : q ≠ p) (b : Option Block) : (s.put p b).arg q = s.arg q := by
  simp only [State.arg, State.put, Function.update_of_ne hq]

theorem State.arg_put_self (b : Option Block) : (s.put p b).arg p = b.map Block.dolarg := by
  simp only [State.arg, State.put, Function.update_self]

theorem State.next_of_heap (hb : s.heap p = some b) : s.next p = b.dolnxt := by
  rw [State.next, hb]
  rfl

theorem State.arg_of_heap (hb : s.heap p = some b) : s.arg p = some b.dolarg := by
  rw [State.arg, hb]
  rfl

/-- The current block is used once more, and is on the chain from now on. -/
theorem State.Inv.useargs (h : s.Inv) (hp : s.dolh = some p) :
    ∃ s₁, Args.useargs s = .ok s₁ ∧ s₁ = { s with heap := s₁.heap, argfor := some p } ∧
      Sits s₁.next (some p) p s.frames ∧ Below s₁.next (some p) s.frames ∧
      Counted s₁.heap (fun q => s.refs q + if q = p then 1 else 0) ∧
      ∀ q, s₁.arg q = s.arg q := by
  have href : s.refs p = 1 + (s.frames.map Frame.block).count (some p) := by
    rw [State.refs, if_pos hp]
  obtain ⟨b, hb, hderef, huse⟩ := h.deref (by omega : s.refs p ≠ 0)
  have hnext := State.next_of_heap hb
  have harg := State.arg_of_heap hb
  have htop := h.top
  have hbelow := h.below
  rw [hp] at htop hbelow
  have hother : ∀ b' q, q ≠ p → (s.put p b').next q = s.next q :=
    fun b' q hq => State.next_put_of_ne hq b'
  have heq : Args.useargs s =
      if b.doluse = 1 then
        .ok { s.put p (some { b with doluse := b.doluse + 1, dolnxt := s.argfor }) with
          argfor := some p }
      else .ok (s.put p (some { b with doluse := b.doluse + 1 })) := by
    rw [Args.useargs, hp]
    simp only [bind, Except.bind, hderef]
  rw [heq]
  split_ifs with hone
  · have hout : some p ∉ s.frames.map Frame.block := by
      rw [← List.count_eq_zero]
      omega
    have hcongr : ∀ q, some q ∈ s.frames.map Frame.block →
        (s.put p (some { b with doluse := b.doluse + 1, dolnxt := s.argfor })).next q =
          s.next q := by
      intro q hq
      refine hother _ q ?_
      rintro rfl
      exact hout hq
    refine ⟨_, rfl, rfl, .inr ⟨hout, ?_⟩, hbelow.congr hcongr, ?_, fun q => ?_⟩
    · have hself : (s.put p (some { b with doluse := b.doluse + 1, dolnxt := s.argfor })).next p =
          s.argfor := State.next_put_self _
      change Top _ _ ((s.put p _).next p) _
      rw [hself]
      exact htop.congr hcongr
    · exact h.counted.acquire hb rfl (by simp) fun q hq => by simp [hq]
    · by_cases hq : q = p
      · rw [hq, harg]
        exact State.arg_put_self _
      · exact State.arg_put_of_ne hq _
  · have hmem : some p ∈ s.frames.map Frame.block := by
      rw [← List.count_pos_iff]
      omega
    have hloop := h.cur p hp hmem
    have hargfor : s.argfor = some p := by
      cases hfs : s.frames with
      | nil =>
        rw [hfs] at hloop
        cases hloop
      | cons f fs =>
        rw [hfs] at hloop htop
        cases f with
        | call olddolh olddolv olddolc => cases hloop
        | loop args argsav =>
          obtain rfl : argsav = some p := hloop
          exact htop.resolve_right fun hno => hno.1 rfl
    have hcongr : ∀ q, (s.put p (some { b with doluse := b.doluse + 1 })).next q = s.next q := by
      intro q
      by_cases hq : q = p
      · rw [hq, hnext]
        exact State.next_put_self _
      · exact hother _ q hq
    refine ⟨_, rfl, ?_, .inl hloop, hbelow.congr fun q _ => hcongr q, ?_, fun q => ?_⟩
    · rw [← hargfor]
      rfl
    · exact h.counted.acquire hb rfl (by simp) fun q hq => by simp [hq]
    · by_cases hq : q = p
      · rw [hq, harg]
        exact State.arg_put_self _
      · exact State.arg_put_of_ne hq _

theorem useargs_none (hp : s.dolh = none) : Args.useargs s = .ok s := by
  rw [Args.useargs, hp]

/-- The current block loses one reference, and is freed if that was the last. -/
theorem State.Base.freedolh (h : s.Base) :
    ∃ s₁, Args.freedolh s = .ok s₁ ∧ s₁ = { s with heap := s₁.heap } ∧
      Counted s₁.heap (fun q => (s.frames.map Frame.block).count (some q)) ∧
      ∀ q, some q ∈ s.frames.map Frame.block → s₁.next q = s.next q ∧ s₁.arg q = s.arg q := by
  rcases Option.eq_none_or_eq_some s.dolh with hp | ⟨p, hp⟩
  · refine ⟨s, by rw [Args.freedolh, hp], rfl, fun q => ?_, fun q _ => ⟨rfl, rfl⟩⟩
    have hq := h.counted q
    simp only [State.refs, hp, reduceCtorEq, if_false, Nat.zero_add] at hq
    exact hq
  · have href : s.refs p = 1 + (s.frames.map Frame.block).count (some p) := by
      rw [State.refs, if_pos hp]
    obtain ⟨b, hb, hderef, huse⟩ := h.deref (by omega : s.refs p ≠ 0)
    have heq : Args.freedolh s = .ok (s.put p
        (if b.doluse - 1 = 0 then none else some { b with doluse := b.doluse - 1 })) := by
      rw [Args.freedolh, hp]
      simp only [bind, Except.bind, hderef]
    refine ⟨_, heq, rfl, h.counted.release hb (by omega) fun q hq => ?_, fun q hq => ?_⟩
    · rw [State.refs, hp, if_neg (fun hqp => hq (Option.some.inj hqp).symm), Nat.zero_add]
    · by_cases hqp : q = p
      · subst hqp
        have hpos := List.count_pos_iff.mpr hq
        have hzero : ¬ b.doluse - 1 = 0 := by omega
        rw [if_neg hzero, State.next_put_self, State.arg_put_self, State.next_of_heap hb,
          State.arg_of_heap hb]
        exact ⟨rfl, rfl⟩
      · exact ⟨State.next_put_of_ne hqp _, State.arg_put_of_ne hqp _⟩

/-- A new block takes the place of the current one. -/
theorem State.Base.setargs (h : s.Base) (p : Ptr) (argi : List Str) :
    Args.setargs p argi s = .error .never ∨
      ∃ s', Args.setargs p argi s = .ok s' ∧ s'.Inv ∧ s'.frames = s.frames ∧ Keeps s s' := by
  obtain ⟨s₁, hfree, hs₁, hcount, hkeep⟩ := h.freedolh
  rw [Args.setargs, hfree]
  simp only [bind, Except.bind, copyargs]
  cases hp : s₁.heap p with
  | some b => exact .inl rfl
  | none =>
    right
    have hout : some p ∉ s.frames.map Frame.block := by
      rw [← List.count_eq_zero]
      exact (hcount p).2.mp hp
    have hne : ∀ q, some q ∈ s.frames.map Frame.block → q ≠ p := by
      rintro q hq rfl
      exact hout hq
    have hnext : ∀ q, some q ∈ s.frames.map Frame.block →
        (s₁.put p (some ⟨none, 1, argi⟩)).next q = s.next q := by
      intro q hq
      rw [State.next_put_of_ne (hne q hq), (hkeep q hq).1]
    rw [hs₁]
    refine ⟨_, rfl, ⟨⟨?_, ?_, ?_, nofun, .inr rfl, h.argp⟩, ?_⟩, rfl, rfl, fun q hq _ => ?_⟩
    · refine hcount.alloc rfl ?_ fun q hq => ?_
      · change (if some p = some p then 1 else 0) + (s.frames.map Frame.block).count (some p) = 1
        rw [if_pos rfl, List.count_eq_zero.mpr hout]
      · change _ = (if some p = some q then 1 else 0) + (s.frames.map Frame.block).count (some q)
        rw [if_neg fun hpq => hq (Option.some.inj hpq).symm, Nat.zero_add]
    · exact (h.top.fresh hout).congr hnext
    · exact (h.below.fresh hout).congr hnext
    · rintro _ ⟨⟩ hmem
      exact absurd hmem hout
    · exact (State.arg_put_of_ne (hne q hq) _).trans (hkeep q hq).2

/-! ### Commands -/

theorem State.Inv.set (h : s.Inv) (p : Ptr) (argi : List Str) :
    s.act (.set p argi) = .error .never ∨
      ∃ s', s.act (.set p argi) = .ok s' ∧ s'.Inv ∧ s'.frames = s.frames ∧ Keeps s s' :=
  h.toBase.setargs p argi

/-- The chain and the counts with one more command that refers to the current block. -/
theorem State.Inv.push (h : s.Inv) (hf : f.block = s.dolh)
    (hargp : f.argp.block = none ∨ f.argp.block = f.block) :
    ∃ s₁, Args.useargs s = .ok s₁ ∧ State.Base { s₁ with frames := f :: s₁.frames } ∧
      s₁ = { s with heap := s₁.heap, argfor := s₁.argfor } ∧ ∀ q, s₁.arg q = s.arg q := by
  have hargps : ∀ g ∈ f :: s.frames, g.argp.block = none ∨ g.argp.block = g.block := by
    intro g hg
    rcases List.mem_cons.mp hg with rfl | hg
    · exact hargp
    · exact h.argp g hg
  rcases Option.eq_none_or_eq_some s.dolh with hp | ⟨p, hp⟩
  · have houter := h.outer hp
    have hargfor : s.argfor = none := (Top.of_none houter).mp h.top
    have hblock : f.block = none := hf.trans hp
    have hall : ∀ g ∈ f :: s.frames, g.block = none := by
      intro g hg
      rcases List.mem_cons.mp hg with rfl | hg
      · exact hblock
      · exact houter g hg
    refine ⟨s, useargs_none hp, ⟨fun q => ?_, (Top.of_none hall).mpr hargfor, Below.of_none hall,
      fun _ => hall, h.dolv, hargps⟩, rfl, fun _ => rfl⟩
    have hq := h.counted q
    simp only [State.refs, List.map_cons, hblock, List.count_cons] at hq ⊢
    simpa using hq
  · obtain ⟨s₁, huse, hs₁, hsits, hbelow, hcount, harg⟩ := h.useargs hp
    have hblock : f.block = some p := hf.trans hp
    have hs₁' : s₁ = { s with heap := s₁.heap, argfor := s₁.argfor } := by
      rw [hs₁]
    have hframes : s₁.frames = s.frames := by rw [hs₁]
    have hdolh : s₁.dolh = some p := by rw [hs₁, hp]
    have hargfor : s₁.argfor = some p := by rw [hs₁]
    refine ⟨s₁, huse, ⟨fun q => ?_, ?_, ?_, fun hnone => ?_, ?_, ?_⟩, hs₁', harg⟩
    · have hrefs : State.refs { s₁ with frames := f :: s₁.frames } q =
          s.refs q + if q = p then 1 else 0 := by
        simp only [State.refs, hdolh, hframes, hp, List.map_cons, hblock, List.count_cons]
        by_cases hq : q = p
        · simp [hq, Nat.add_assoc]
        · simp [hq, Ne.symm hq]
      rw [hrefs]
      exact hcount q
    · change Top s₁.next s₁.dolh s₁.argfor (f :: s₁.frames)
      rw [hframes, hargfor]
      cases f with
      | call olddolh olddolv olddolc => exact hblock.symm
      | loop args argsav =>
        obtain rfl : argsav = some p := hblock
        exact .inl rfl
    · change Below s₁.next s₁.dolh (f :: s₁.frames)
      rw [hframes, hdolh]
      cases f with
      | call olddolh olddolv olddolc =>
        obtain rfl : olddolh = some p := hblock
        exact ⟨hbelow, hsits⟩
      | loop args argsav =>
        obtain rfl : argsav = some p := hblock
        exact ⟨hbelow, hsits⟩
    · exact absurd (hdolh.symm.trans hnone) nofun
    · rw [hs₁]
      exact h.dolv
    · rw [hs₁]
      exact hargps

theorem State.Inv.call (h : s.Inv) (p : Ptr) (com : List Str) :
    s.act (.call p com) = .error .never ∨
      ∃ s', s.act (.call p com) = .ok s' ∧ s'.Inv ∧
        s'.frames = .call s.dolh s.dolv s.dolc :: s.frames ∧ s'.argv = s.argv ∧
        ∀ q, s.dolh = some q ∨ some q ∈ s.frames.map Frame.block → s'.arg q = s.arg q := by
  obtain ⟨s₁, huse, hbase, hs₁, harg⟩ :=
    h.push (f := .call s.dolh s.dolv s.dolc) rfl h.dolv
  have hframe : Frame.call s₁.dolh s₁.dolv s₁.dolc = Frame.call s.dolh s.dolv s.dolc := by
    rw [hs₁]
  have heq : s.act (.call p com) = Args.setargs p com
      { s₁ with frames := .call s.dolh s.dolv s.dolc :: s₁.frames } := by
    rw [← hframe, State.act, huse]
    rfl
  have hframes : s₁.frames = s.frames := by rw [hs₁]
  rw [heq]
  refine (hbase.setargs p com).imp_right ?_
  rintro ⟨s', hset, hinv, hfr, hkeep⟩
  refine ⟨s', hset, hinv, by rw [hfr, hframes], hkeep.argv.trans (by rw [hs₁]), fun q hq => ?_⟩
  have hmem : some q ∈ (Frame.call s.dolh s.dolv s.dolc :: s₁.frames).map Frame.block := by
    rw [List.map_cons, hframes, List.mem_cons]
    exact hq.imp_left Eq.symm
  refine (hkeep.arg q hmem (State.refs_of_mem ?_)).trans (harg q)
  rw [hfr]
  exact hmem

theorem State.Inv.enter (h : s.Inv) :
    ∃ s', s.act .enter = .ok s' ∧ s'.Inv ∧
      s'.frames = .loop ⟨s.dolv.block, s.dolv.pos + 1⟩ s.dolh :: s.frames ∧ Keeps s s' := by
  obtain ⟨s₁, huse, hbase, hs₁, harg⟩ :=
    h.push (f := .loop ⟨s.dolv.block, s.dolv.pos + 1⟩ s.dolh) rfl h.dolv
  have hdolh : s₁.dolh = s.dolh := by rw [hs₁]
  have hframe : Frame.loop ⟨s₁.dolv.block, s₁.dolv.pos + 1⟩ s₁.dolh =
      Frame.loop ⟨s.dolv.block, s.dolv.pos + 1⟩ s.dolh := by rw [hs₁]
  have hframes : s₁.frames = s.frames := by rw [hs₁]
  refine ⟨_, ?_, ⟨hbase, fun p hp _ => ?_⟩, by rw [hframes], by rw [hs₁], fun q _ _ => harg q⟩
  · rw [← hframe, State.act, huse]
    rfl
  · exact hdolh.symm.trans hp

theorem State.Inv.shift (h : s.Inv) (places : ℕ) :
    s.act (.shift places) = .error .never ∨
      ∃ s', s.act (.shift places) = .ok s' ∧ s'.Inv ∧ s'.frames = s.frames ∧ Keeps s s' := by
  rw [State.act]
  split_ifs
  · exact .inl rfl
  · refine .inr ⟨_, rfl, ⟨⟨h.counted, h.top, h.below, h.outer, h.dolv, h.argp⟩, h.cur⟩, rfl, rfl,
      fun _ _ _ => rfl⟩

theorem State.Inv.strings (h : s.Inv) {a : Argp}
    (ha : a.block = none ∨ a.block = s.dolh ∨ ∃ f ∈ s.frames, a.block = f.block) :
    ∃ l, s.strings a = .ok l := by
  rw [State.strings]
  cases hb : a.block with
  | none => exact ⟨_, rfl⟩
  | some p =>
    have hrefs : s.refs p ≠ 0 := by
      rw [hb] at ha
      rcases ha with hno | hdolh | ⟨f, hf, hblock⟩
      · cases hno
      · rw [State.refs, if_pos hdolh.symm]
        omega
      · exact State.refs_of_mem (List.mem_map.mpr ⟨f, hf, hblock.symm⟩)
    obtain ⟨b, -, hderef, -⟩ := h.deref hrefs
    exact ⟨_, by simp only [hderef]; rfl⟩

theorem State.Inv.iterate (h : s.Inv) :
    s.act .next = .error .never ∨
      ∃ s' args argsav fs, s.act .next = .ok s' ∧ s'.Inv ∧ s.frames = .loop args argsav :: fs ∧
        s'.frames = .loop ⟨args.block, args.pos + 1⟩ argsav :: fs ∧ Keeps s s' := by
  rw [State.act]
  cases hfs : s.frames with
  | nil => exact .inl rfl
  | cons f fs =>
    cases f with
    | call olddolh olddolv olddolc => exact .inl rfl
    | loop args argsav =>
      have hargp := h.argp (.loop args argsav) (by rw [hfs]; exact List.mem_cons_self ..)
      obtain ⟨l, hl⟩ := h.strings (a := args) (hargp.imp_right fun hb => .inr
        ⟨.loop args argsav, by rw [hfs]; exact List.mem_cons_self .., hb⟩)
      simp only [bind, Except.bind, hl]
      cases l with
      | nil => exact .inl rfl
      | cons x l =>
        right
        refine ⟨_, args, argsav, fs, rfl, ⟨⟨?_, ?_, ?_, ?_, h.dolv, ?_⟩, ?_⟩, rfl, rfl, rfl,
          fun _ _ _ => rfl⟩
        · intro q
          have hq := h.counted q
          rw [State.refs, hfs] at hq
          exact hq
        · have htop := h.top
          rw [hfs] at htop
          cases argsav <;> exact htop
        · have hbelow := h.below
          rw [hfs] at hbelow
          cases argsav <;> exact hbelow
        · intro hnone g hg
          have houter := h.outer hnone
          rw [hfs] at houter
          rcases List.mem_cons.mp hg with rfl | hg
          · exact houter (.loop args argsav) (List.mem_cons_self ..)
          · exact houter g (List.mem_cons_of_mem _ hg)
        · intro g hg
          rcases List.mem_cons.mp hg with rfl | hg
          · exact hargp
          · exact h.argp g (by rw [hfs]; exact List.mem_cons_of_mem _ hg)
        · have hcur := h.cur
          rw [hfs] at hcur
          exact hcur

/-- A loop takes its block from the chain, or leaves it there for another loop. -/
theorem State.Inv.leave (h : s.Inv) :
    s.act .leave = .error .never ∨
      ∃ s' args argsav fs, s.act .leave = .ok s' ∧ s'.Inv ∧ s.frames = .loop args argsav :: fs ∧
        s'.frames = fs ∧ Keeps s s' := by
  rw [State.act]
  cases hfs : s.frames with
  | nil => exact .inl rfl
  | cons f fs =>
    have htail : ∀ g ∈ fs, g ∈ s.frames := fun g hg => by
      rw [hfs]
      exact List.mem_cons_of_mem _ hg
    cases f with
    | call olddolh olddolv olddolc => exact .inl rfl
    | loop args argsav =>
      right
      have htop := h.top
      have hbelow := h.below
      have hcur := h.cur
      rw [hfs] at htop hbelow hcur
      cases argsav with
      | none =>
        have hall : ∀ g ∈ fs, g.block = none := hbelow
        refine ⟨_, args, none, fs, rfl, ⟨⟨fun q => ?_, (Top.of_none hall).mpr htop,
          Below.of_none hall, fun _ => hall, h.dolv, fun g hg => h.argp g (htail g hg)⟩,
          fun q _ hq => absurd hq (not_mem_of_none hall q)⟩, rfl, rfl, rfl, fun _ _ _ => rfl⟩
        have hq := h.counted q
        simp only [State.refs, hfs, List.map_cons, Frame.block, List.count_cons] at hq ⊢
        simpa using hq
      | some p =>
        obtain ⟨b, hb, hderef, huse⟩ := h.deref (p := p) (State.refs_of_mem
          (by rw [hfs]; exact List.mem_cons_self ..))
        have href : s.refs p =
            (if s.dolh = some p then 1 else 0) + (fs.map Frame.block).count (some p) + 1 := by
          rw [State.refs, hfs, List.map_cons, Frame.block, List.count_cons_self]
          omega
        have hmem : some p ∈ fs.map Frame.block → ¬ b.doluse - 1 = 0 := by
          intro hp
          have hpos := List.count_pos_iff.mpr hp
          omega
        have hnext : ∀ q, some q ∈ fs.map Frame.block → (s.put p (if b.doluse - 1 = 0 then none
            else some { b with doluse := b.doluse - 1 })).next q = s.next q := by
          intro q hq
          by_cases hqp : q = p
          · subst hqp
            rw [if_neg (hmem hq), State.next_put_self, State.next_of_heap hb]
            rfl
          · exact State.next_put_of_ne hqp _
        have hfree : freeargs (some p) s = .ok (s.put p (if b.doluse - 1 = 0 then none
            else some { b with doluse := b.doluse - 1 }),
            if s.dolh = some p ∧ b.doluse - 1 ≠ 1 then some p else b.dolnxt) := by
          simp only [freeargs, bind, Except.bind, hderef]
          by_cases hdolh : s.dolh = some p
          · have hzero : ¬ b.doluse - 1 = 0 := by
              rw [if_pos hdolh] at href
              omega
            simp only [hdolh, hzero, if_true, if_false, true_and, ne_eq, ite_not]
          · simp only [hdolh, if_false, false_and]
        simp only [bind, Except.bind, hfree]
        refine ⟨_, args, some p, fs, rfl, ⟨⟨?_, ?_, hbelow.1.congr hnext, ?_, h.dolv,
          fun g hg => h.argp g (htail g hg)⟩, ?_⟩, rfl, rfl, rfl, ?_⟩
        · refine h.counted.release hb href fun q hq => ?_
          rw [State.refs, hfs, List.map_cons, Frame.block,
            List.count_cons_of_ne (fun hqp => hq (Option.some.inj hqp).symm)]
          rfl
        · refine Top.congr ?_ hnext
          rw [← State.next_of_heap hb]
          change Top s.next s.dolh
            (if s.dolh = some p ∧ b.doluse - 1 ≠ 1 then some p else s.next p) fs
          split_ifs with hkept
          · refine hbelow.2.kept (List.count_pos_iff.mp ?_)
            rw [if_pos hkept.1] at href
            omega
          · refine hbelow.2.popped fun hp hdolh => hkept ⟨hdolh, ?_⟩
            have hpos := List.count_pos_iff.mpr hp
            rw [if_pos hdolh] at href
            omega
        · intro hnone
          have houter := h.outer hnone (.loop args (some p))
            (by rw [hfs]; exact List.mem_cons_self ..)
          cases houter
        · intro q hq hqfs
          have hqp := hcur q hq (List.mem_cons_of_mem _ hqfs)
          obtain rfl : p = q := Option.some.inj hqp
          exact hbelow.2.resolve_right fun hno => hno.1 hqfs
        · intro q hq hrefs
          by_cases hqp : q = p
          · subst hqp
            have hzero : ¬ b.doluse - 1 = 0 := by
              have hrefs' : (if s.dolh = some q then 1 else 0) +
                (fs.map Frame.block).count (some q) ≠ 0 := hrefs
              omega
            refine (State.arg_put_self _).trans ?_
            rw [if_neg hzero, State.arg_of_heap hb]
            rfl
          · exact State.arg_put_of_ne hqp _

/-- The blocks of a function are freed, and those of its caller are as they were. -/
theorem State.Inv.ret (h : s.Inv) :
    s.act .ret = .error .never ∨
      ∃ s' olddolh olddolv olddolc fs, s.act .ret = .ok s' ∧ s'.Inv ∧
        s.frames = .call olddolh olddolv olddolc :: fs ∧ s'.frames = fs ∧ s'.dolv = olddolv ∧
        s'.dolc = olddolc ∧ (∀ q, olddolh = some q → s'.dolh = some q) ∧ Keeps s s' := by
  rw [State.act]
  cases hfs : s.frames with
  | nil => exact .inl rfl
  | cons f fs =>
    have htail : ∀ g ∈ fs, g ∈ s.frames := fun g hg => by
      rw [hfs]
      exact List.mem_cons_of_mem _ hg
    cases f with
    | loop args argsav => exact .inl rfl
    | call olddolh olddolv olddolc =>
      right
      have htop := h.top
      have hbelow := h.below
      have hcur := h.cur
      have hargp := h.argp (.call olddolh olddolv olddolc)
        (by rw [hfs]; exact List.mem_cons_self ..)
      rw [hfs] at htop hbelow hcur
      have hargfor : s.argfor = olddolh := htop
      have hrestor : restorargs olddolh s = restoreOld olddolh s := by
        rw [restorargs, if_neg (not_not.mpr hargfor)]
      cases olddolh with
      | none =>
        have hall : ∀ g ∈ fs, g.block = none := hbelow
        have heq : restoreOld none s = .ok s := by
          rw [restoreOld, hargfor]
        simp only [bind, Except.bind, hrestor, heq]
        refine ⟨_, none, olddolv, olddolc, fs, rfl, ⟨⟨fun q => ?_, (Top.of_none hall).mpr hargfor,
          Below.of_none hall, fun _ => hall, .inl (hargp.elim id id),
          fun g hg => h.argp g (htail g hg)⟩,
          fun q _ hq => absurd hq (not_mem_of_none hall q)⟩, rfl, rfl, rfl, rfl, fun _ => nofun,
          rfl, fun _ _ _ => rfl⟩
        have hq := h.counted q
        simp only [State.refs, hfs, List.map_cons, Frame.block, List.count_cons] at hq ⊢
        simpa using hq
      | some p =>
        obtain ⟨s₁, hfree, hs₁, hcount, hkeep⟩ := h.freedolh
        have hpmem : some p ∈ s.frames.map Frame.block := by
          rw [hfs]
          exact List.mem_cons_self ..
        obtain ⟨b, hb⟩ : ∃ b, s₁.heap p = some b := by
          refine Option.ne_none_iff_exists'.mp fun hnone => ?_
          exact absurd hpmem (List.count_eq_zero.mp ((hcount p).2.mp hnone))
        have huse : b.doluse = ((s.frames.map Frame.block).count (some p) : ℕ) :=
          (hcount p).1 b hb
        rw [hfs, List.map_cons, Frame.block, List.count_cons_self] at huse
        have heq : restoreOld (some p) s = .ok { s₁ with
            dolh := some p, argfor := if b.doluse = 1 then b.dolnxt else some p } := by
          have hsame : Function.update s₁.heap p (some b) = s₁.heap := by
            rw [← hb, Function.update_eq_self]
          rw [restoreOld, hargfor]
          simp only [bind, Except.bind, hfree, State.deref, hb, freeargs, State.put,
            Function.update_self, if_true, Function.update_idem, add_sub_cancel_right, hsame]
        simp only [bind, Except.bind, hrestor, heq]
        have hnext : ∀ q, some q ∈ fs.map Frame.block → s₁.next q = s.next q := fun q hq =>
          (hkeep q (by rw [hfs]; exact List.mem_cons_of_mem _ hq)).1
        refine ⟨_, some p, olddolv, olddolc, fs, rfl, ⟨⟨?_, ?_, hbelow.1.congr hnext, nofun,
          hargp, ?_⟩, ?_⟩, rfl, rfl, rfl, rfl, fun _ hq => hq, ?_, ?_⟩
        · intro q
          have hq := hcount q
          have hrefs : (s.frames.map Frame.block).count (some q) =
              (if some p = some q then 1 else 0) + (fs.map Frame.block).count (some q) := by
            rw [hfs, List.map_cons, Frame.block, List.count_cons, Nat.add_comm]
            simp only [beq_iff_eq]
          dsimp only at hq
          rw [hrefs] at hq
          exact hq
        · refine Top.congr ?_ hnext
          have hbnext : b.dolnxt = s.next p := by
            rw [← (hkeep p hpmem).1, State.next_of_heap hb]
          dsimp only
          rw [hbnext]
          split_ifs with hone
          · refine hbelow.2.popped fun hp => ?_
            have hpos := List.count_pos_iff.mpr hp
            omega
          · refine hbelow.2.kept (List.count_pos_iff.mp ?_)
            omega
        · intro g hg
          exact h.argp g (htail g hg)
        · rintro _ ⟨⟩ hmem
          exact hbelow.2.resolve_right fun hno => hno.1 hmem
        · rw [hs₁]
        · exact fun q hq _ => (hkeep q hq).2

/-! ### Runs -/

/-- How a command changes the stack of those that are not done yet. -/
def Moves (fs fs' : List Frame) : Prop :=
  fs' = fs ∨ (∃ f, fs' = f :: fs) ∨ (∃ f, fs = f :: fs') ∨
    ∃ args args' argsav gs, fs = .loop args argsav :: gs ∧ fs' = .loop args' argsav :: gs

theorem State.Inv.act (h : s.Inv) (a : Act) :
    s.act a = .error .never ∨
      ∃ s', s.act a = .ok s' ∧ s'.Inv ∧ Moves s.frames s'.frames ∧ Keeps s s' := by
  cases a with
  | set p argi =>
    refine (h.set p argi).imp_right ?_
    rintro ⟨s', heq, hinv, hfs, hkeep⟩
    exact ⟨s', heq, hinv, .inl hfs, hkeep⟩
  | shift places =>
    refine (h.shift places).imp_right ?_
    rintro ⟨s', heq, hinv, hfs, hkeep⟩
    exact ⟨s', heq, hinv, .inl hfs, hkeep⟩
  | call p com =>
    refine (h.call p com).imp_right ?_
    rintro ⟨s', heq, hinv, hfs, hargv, harg⟩
    exact ⟨s', heq, hinv, .inr (.inl ⟨_, hfs⟩), hargv, fun q hq _ => harg q (.inr hq)⟩
  | ret =>
    refine h.ret.imp_right ?_
    rintro ⟨s', olddolh, olddolv, olddolc, fs, heq, hinv, hfs, hfs', -, -, -, hkeep⟩
    exact ⟨s', heq, hinv, .inr (.inr (.inl ⟨_, hfs'.symm ▸ hfs⟩)), hkeep⟩
  | enter =>
    obtain ⟨s', heq, hinv, hfs, hkeep⟩ := h.enter
    exact .inr ⟨s', heq, hinv, .inr (.inl ⟨_, hfs⟩), hkeep⟩
  | next =>
    refine h.iterate.imp_right ?_
    rintro ⟨s', args, argsav, fs, heq, hinv, hfs, hfs', hkeep⟩
    exact ⟨s', heq, hinv, .inr (.inr (.inr ⟨_, _, _, _, hfs, hfs'⟩)), hkeep⟩
  | leave =>
    refine h.leave.imp_right ?_
    rintro ⟨s', args, argsav, fs, heq, hinv, hfs, hfs', hkeep⟩
    exact ⟨s', heq, hinv, .inr (.inr (.inl ⟨_, hfs'.symm ▸ hfs⟩)), hkeep⟩

theorem State.Inv.step {a : Act} (h : s.Inv) (hstep : Args.step s a = some s') :
    s.act a = .ok s' ∧ s'.Inv ∧ Moves s.frames s'.frames ∧ Keeps s s' := by
  rw [Args.step] at hstep
  rcases h.act a with hno | ⟨s'', heq, hrest⟩
  · rw [hno] at hstep
    cases hstep
  · rw [heq] at hstep
    obtain rfl := Option.some.inj hstep
    exact ⟨heq, hrest⟩

/-- A shell with the strings it was called with. -/
def State.start (argv : List Str) (pos : ℕ) (dolc : ℤ) : State where
  argv := argv
  heap _ := none
  dolh := none
  argfor := none
  dolv := ⟨none, pos⟩
  dolc := dolc
  frames := []
  allocs := 0

theorem State.Inv.start (argv : List Str) (pos : ℕ) (dolc : ℤ) :
    (State.start argv pos dolc).Inv :=
  ⟨⟨fun _ => ⟨fun _ => nofun, ⟨fun _ => rfl, fun _ => rfl⟩⟩, rfl, trivial, fun _ _ => nofun,
    .inl rfl, fun _ => nofun⟩, fun _ => nofun⟩

theorem State.Inv.of_reach {s₀ : State} {ok : State → Act → Prop} (h : Reach Args.step ok s₀ s)
    (h0 : s₀.Inv) : s.Inv :=
  h.invariant h0 fun _ _ _ hinv _ hstep => (hinv.step hstep).2.1

/-- The steps of a function that has been called in `s₁`. -/
def InBody (s₁ s : State) (a : Act) : Prop :=
  ∀ s', Args.step s a = some s' → s₁.frames.length ≤ s'.frames.length

/-- What the body of a function leaves alone. -/
structure Kept (s₁ s : State) : Prop where
  inv : s.Inv
  argv : s.argv = s₁.argv
  frames : ∃ gs, s.frames = gs ++ s₁.frames
  arg : ∀ p, some p ∈ s₁.frames.map Frame.block → s.arg p = s₁.arg p

theorem Kept.of_body {s₂ : State} {olddolh : Option Ptr} {olddolv : Argp} {olddolc : ℤ}
    (h : Reach Args.step (InBody s₁) s₁ s₂) (hinv : s₁.Inv)
    (hcall : s₁.frames = .call olddolh olddolv olddolc :: fs) : Kept s₁ s₂ := by
  refine h.invariant ⟨hinv, rfl, ⟨[], rfl⟩, fun _ _ => rfl⟩ ?_
  rintro t a t' ⟨ht, hargv, ⟨gs, hgs⟩, harg⟩ hbody hstep
  obtain ⟨-, hinv', hmoves, hkeep⟩ := ht.step hstep
  have hlen := hbody t' hstep
  have hframes : ∃ gs', t'.frames = gs' ++ s₁.frames := by
    rcases hmoves with hsame | ⟨f, hpush⟩ | ⟨f, hpop⟩ | ⟨args, args', argsav, gs', hloop, hloop'⟩
    · exact ⟨gs, hsame.trans hgs⟩
    · exact ⟨f :: gs, by rw [hpush, hgs, List.cons_append]⟩
    · cases gs with
      | nil =>
        have hlen' := congrArg List.length (hgs.symm.trans hpop)
        simp only [List.nil_append, List.length_cons] at hlen'
        omega
      | cons g gs =>
        rw [hgs] at hpop
        exact ⟨gs, (List.cons.inj hpop).2.symm⟩
    · cases gs with
      | nil =>
        rw [hgs, List.nil_append, hcall] at hloop
        cases (List.cons.inj hloop).1
      | cons g gs =>
        rw [hgs] at hloop
        exact ⟨_ :: gs, by rw [hloop', ← (List.cons.inj hloop).2]; rfl⟩
  refine ⟨hinv', hkeep.argv.trans hargv, hframes, fun p hp => ?_⟩
  have hmem : ∀ {u : State} {hs : List Frame}, u.frames = hs ++ s₁.frames →
      some p ∈ u.frames.map Frame.block := by
    intro u hs hu
    rw [hu, List.map_append]
    exact List.mem_append_right _ hp
  obtain ⟨gs', hgs'⟩ := hframes
  rw [hkeep.arg p (hmem hgs) (State.refs_of_mem (hmem hgs')), harg p hp]

theorem State.strings_eq {a : Argp} (hargv : s'.argv = s.argv)
    (harg : ∀ p, a.block = some p → s'.arg p = s.arg p) : s'.strings a = s.strings a := by
  rw [State.strings, State.strings]
  cases hb : a.block with
  | none => simp only [hargv]
  | some p =>
    have hp := harg p hb
    rw [State.arg, State.arg] at hp
    simp only [State.deref]
    cases hheap : s.heap p with
    | none =>
      rw [hheap, Option.map_none, Option.map_eq_none_iff] at hp
      rw [hp]
    | some b =>
      rw [hheap, Option.map_some, Option.map_eq_some_iff] at hp
      obtain ⟨b', hb', heq⟩ := hp
      simp only [hb', bind, Except.bind, heq]

/-- After a function call the parameters are those before it. -/
theorem State.Inv.call_ret {com : List Str} {s₂ s₃ : State} (h : s.Inv)
    (hcall : s.act (.call p com) = .ok s₁) (hbody : Reach Args.step (InBody s₁) s₁ s₂)
    (hlen : s₂.frames.length = s₁.frames.length) (hret : s₂.act .ret = .ok s₃) :
    s₃.dolc = s.dolc ∧ ∃ l, s.params = .ok l ∧ s₃.params = .ok l := by
  obtain ⟨s₁', heq₁, hinv₁, hframes₁, hargv₁, harg₁⟩ :=
    (h.call p com).resolve_left (by rw [hcall]; nofun)
  obtain rfl := Except.ok.inj (hcall.symm.trans heq₁)
  obtain ⟨hinv₂, hargv₂, ⟨gs, hgs⟩, harg₂⟩ := Kept.of_body hbody hinv₁ hframes₁
  obtain ⟨s₃', olddolh, olddolv, olddolc, fs, heq₃, hinv₃, hfs, -, hdolv, hdolc, hdolh₃,
    hkeep⟩ :=
    hinv₂.ret.resolve_left (by rw [hret]; nofun)
  obtain rfl := Except.ok.inj (hret.symm.trans heq₃)
  obtain rfl : gs = [] := by
    rw [hgs, List.length_append] at hlen
    exact List.length_eq_zero_iff.mp (by omega)
  rw [hgs, List.nil_append, hframes₁] at hfs
  obtain ⟨⟨rfl, rfl, rfl⟩, -⟩ : (s.dolh = olddolh ∧ s.dolv = olddolv ∧ s.dolc = olddolc) ∧
      s.frames = fs := by
    injection hfs with hcall hfs
    injection hcall with h₁ h₂ h₃
    exact ⟨⟨h₁, h₂, h₃⟩, hfs⟩
  obtain ⟨l, hl⟩ := h.strings (a := s.dolv) (h.dolv.imp_right .inl)
  have hstrings : s₃.strings s₃.dolv = s.strings s.dolv := by
    rw [hdolv]
    refine State.strings_eq (hkeep.argv.trans (hargv₂.trans hargv₁)) fun q hq => ?_
    have hdolh : s.dolh = some q := by
      rcases h.dolv with hnone | hdolh
      · cases hnone.symm.trans hq
      · exact hdolh.symm.trans hq
    have hmem : some q ∈ s₁.frames.map Frame.block := by
      rw [hframes₁, ← hdolh]
      exact List.mem_cons_self ..
    have hrefs : s₃.refs q ≠ 0 := by
      rw [State.refs, if_pos (hdolh₃ q hdolh)]
      omega
    rw [hkeep.arg q (by rwa [hgs]) hrefs, harg₂ q hmem, harg₁ q (.inl hdolh)]
  refine ⟨hdolc, l.take (s.dolc + 1).toNat, ?_, ?_⟩
  · rw [State.params, hl]
    rfl
  · rw [State.params, hstrings, hl, hdolc]
    rfl

/-- Whatever refers to a block, but for the chain. -/
def State.Refers (s : State) (p : Ptr) : Prop :=
  s.dolh = some p ∨ s.dolv.block = some p ∨
    ∃ f ∈ s.frames, f.block = some p ∨ f.argp.block = some p

theorem State.Inv.heap_iff (h : s.Inv) : s.heap p ≠ none ↔
    s.dolh = some p ∨ some p ∈ s.frames.map Frame.block := by
  rw [Ne, (h.counted p).2, State.refs, Nat.add_eq_zero_iff, List.count_eq_zero]
  split_ifs with hp
  · simp [hp]
  · simp [hp]

theorem State.Inv.heap_of_refers (h : s.Inv) (hp : s.Refers p) : s.heap p ≠ none := by
  refine h.heap_iff.mpr ?_
  rcases hp with hdolh | hdolv | ⟨f, hf, hblock | hargp⟩
  · exact .inl hdolh
  · rcases h.dolv with hnone | hdolh
    · cases hnone.symm.trans hdolv
    · exact .inl (hdolh.symm.trans hdolv)
  · exact .inr (List.mem_map.mpr ⟨f, hf, hblock⟩)
  · rcases h.argp f hf with hnone | hblock
    · cases hnone.symm.trans hargp
    · exact .inr (List.mem_map.mpr ⟨f, hf, hblock.symm.trans hargp⟩)

/-- In every run: no command uses a freed block or goes on for ever; what `dolh`, `dolv`, the
`argfor` chain and the commands that are not done yet refer to is allocated, and nothing else
is; and after a function call the parameters are those before it. -/
theorem params_survive {argv : List Str} {pos : ℕ} {dolc : ℤ}
    (h : Reach step (fun _ _ => True) (State.start argv pos dolc) s) :
    (∀ a, s.act a ≠ .error .freed ∧ s.act a ≠ .error .loops) ∧
    (∀ p, s.Refers p → s.heap p ≠ none) ∧
    (∃ l, Chain s.next s.argfor l ∧ ∀ p ∈ l, s.heap p ≠ none) ∧
    (∀ p, s.heap p ≠ none → s.Refers p) ∧
    ∀ p com s₁ s₂ s₃, s.act (.call p com) = .ok s₁ → Reach step (InBody s₁) s₁ s₂ →
      s₂.frames.length = s₁.frames.length → s₂.act .ret = .ok s₃ →
      s₃.dolc = s.dolc ∧ ∃ l, s.params = .ok l ∧ s₃.params = .ok l := by
  have hinv := State.Inv.of_reach h (State.Inv.start argv pos dolc)
  refine ⟨fun a => ?_, fun p => hinv.heap_of_refers, ?_, fun p hp => ?_,
    fun p com s₁ s₂ s₃ hcall hbody hlen hret => hinv.call_ret hcall hbody hlen hret⟩
  · rcases hinv.act a with hno | ⟨s', heq, -⟩
    · rw [hno]
      exact ⟨nofun, nofun⟩
    · rw [heq]
      exact ⟨nofun, nofun⟩
  · obtain ⟨l, hl, hmem⟩ := hinv.top.exists_chain hinv.below
    exact ⟨l, hl, fun p hp => hinv.heap_iff.mpr (.inr (hmem p hp))⟩
  · rcases hinv.heap_iff.mp hp with hdolh | hmem
    · exact .inl hdolh
    · obtain ⟨f, hf, hblock⟩ := List.mem_map.mp hmem
      exact .inr (.inr ⟨f, hf, .inl hblock⟩)

/-- `set a`, and a loop over the parameters in which a function `f` is called. -/
def nested : List Act :=
  [.set 1 [[115, 101, 116], [97]], .enter, .next, .call 2 [[102], [98]]]

theorem params_survive_nested : ∃ s, run step nested (State.start [[115, 104]] 0 0) = some s ∧
    s.heap 1 ≠ none ∧ s.act .ret ≠ .error .freed := by
  obtain ⟨s, hrun, href⟩ := exists_of_run_any step nested
    (State.start [[115, 104]] 0 0)
    (fun s => s.frames.map Frame.block = [some 1, some 1]) (by decide)
  have hfs := of_decide_eq_true href
  have hreach : Reach step (fun _ _ => True) (State.start [[115, 104]] 0 0) s :=
    reach_of_run hrun (runOk_of_forall (fun _ _ => trivial) _)
  obtain ⟨hsafe, hheap, -⟩ := params_survive hreach
  have hmem : some 1 ∈ s.frames.map Frame.block := by
    rw [hfs]
    exact List.mem_cons_self ..
  obtain ⟨f, hf, hblock⟩ := List.mem_map.mp hmem
  exact ⟨s, hrun, hheap 1 (.inr (.inr ⟨f, hf, .inl hblock⟩)), (hsafe .ret).1⟩

end Unitas.Sh.Args
