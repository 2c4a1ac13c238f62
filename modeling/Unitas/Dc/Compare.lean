import Mathlib
import Unitas.Dc.Exact
import Unitas.Dc.Remainder

/-! The comparisons of `dc`: `cond` with `subt`, `eqk`, `load` and the part of `commnds` and
`command` that calls it. -/
namespace Unitas.Dc.Compare

open CInt Radix

/-- What a register holds, or an element of the stack: a number with its scale as the last
character, a string, or an array. -/
inductive Value
  | blk (p : Blk)
  | array (words : List (Option Blk))

/-- `stable` gives the values of a register, the last one that was saved first. `readptr` is the
value that has last come to the label `execute`. -/
structure State where
  stack : List Value
  stable : UInt8 → List Value
  input : List UInt8
  readptr : Option Value

inductive Rel
  | lt
  | gt
  | eq
  | nl
  | ng
  | ne
  deriving DecidableEq

def LASTFUN : UInt8 := 22

/-- The text of a function that is not defined, `c0 1Q`. -/
def quit : Blk := [99, 48, 32, 49, 81]

def eqk (p q : Blk) : Blk × Blk × ℤ :=
  let skp := back p 0
  let skq := back q 0
  let p := p.dropLast
  let q := q.dropLast
  if skp = skq then (p, q, skp)
  else if skp < skq then (add0 p (skq - skp).toNat, q, skq)
  else (p, add0 q (skp - skq).toNat, skp)

/-- `subt` of two numbers, the first one from the top of the stack. -/
def subt (arg1 q : Blk) : Blk :=
  let savk := back arg1 0
  let r := eqk (chsign arg1.dropLast ++ [savk]) q
  add r.1 r.2.1 ++ [r.2.2]

/-- What `load` copies from a register to the stack. -/
def contents (stable : UInt8 → List Value) (c : UInt8) : Value :=
  match stable c with
  | val :: _ => val
  | [] => .blk (if c ≤ LASTFUN then quit else [0])

def load (s : State) : Option State :=
  match s.input with
  | [] => none
  | c :: input => some { s with stack := contents s.stable c :: s.stack, input := input }

/-- `readc(); return (0);` -/
def skip (s : State) : Option (Bool × State) :=
  match s.input with
  | [] => none
  | _ :: input => some (false, { s with input := input })

def cond (c : Rel) (s : State) : Option (Bool × State) :=
  match s.stack with
  | .blk arg1 :: .blk q :: stack =>
    let s := { s with stack := stack }
    let p := (subt arg1 q).dropLast
    if p = [] then
      if c = .lt ∨ c = .gt ∨ c = .ne then skip s else (load s).map (true, ·)
    else if c = .eq then skip s
    else if c = .ne then (load s).map (true, ·)
    else
      let cc := back p 0
      if cc < 0 ∧ (c = .lt ∨ c = .ng) ∨ 0 < cc ∧ (c = .gt ∨ c = .nl) then skip s
      else (load s).map (true, ·)
  | _ => none

/-- The label `execute`, which takes the value from the stack. -/
def execute (s : State) : Option State :=
  match s.stack with
  | [] => none
  | p :: stack => some { s with stack := stack, readptr := some p }

def test (c : Rel) (s : State) : Option State := do
  let (go, s) ← cond c s
  if go then execute s else return s

/-- The commands that compare; the others are not modelled here. -/
def commnds (s : State) : Option State :=
  match s.input with
  | 60 :: input => test .lt { s with input := input }
  | 62 :: input => test .gt { s with input := input }
  | 61 :: input => test .eq { s with input := input }
  | 33 :: 60 :: input => test .nl { s with input := input }
  | 33 :: 62 :: input => test .ng { s with input := input }
  | 33 :: 61 :: input => test .ne { s with input := input }
  | _ => none

/-- How a comparison is written. -/
def Rel.text : Rel → List UInt8
  | .lt => [60]
  | .gt => [62]
  | .eq => [61]
  | .nl => [33, 60]
  | .ng => [33, 62]
  | .ne => [33, 61]

/-- When a comparison of the number `b` on the top of the stack with `a` below it holds. -/
def Rel.Holds (a b : ℚ) : Rel → Prop
  | .lt => b < a
  | .gt => b > a
  | .eq => b = a
  | .nl => ¬ b < a
  | .ng => ¬ b > a
  | .ne => b ≠ a

instance (a b : ℚ) : DecidablePred (Rel.Holds a b) := fun c => by
  cases c <;> unfold Rel.Holds <;> infer_instance

/-- A number as it lies on the stack. -/
def onStack (n : Number) : Value := .blk (n.digits ++ [n.scale])

/-- Any digits of a number, and a scale from 0 to 99. -/
structure Proper (n : Number) : Prop where
  legal : Legal n.digits
  scale_nonneg : 0 ≤ n.scale
  scale_le : n.scale ≤ 99

variable {a b : Number}

/-- The factor by which a number is multiplied when it is aligned at a greater scale. -/
theorem pow_align {s t : ℤ} (h : s ≤ t) : (10 : ℚ) ^ (t - s).toNat * 10 ^ s = 10 ^ t := by
  rw [← zpow_natCast, ← zpow_add₀ (by norm_num), Int.toNat_of_nonneg (by omega)]
  congr 1
  omega

/-- The difference has no digit too many, and the scale at which the numbers were aligned. -/
theorem subt_spec (ha : Proper a) (hb : Proper b) :
    Rep (subt (b.digits ++ [b.scale]) (a.digits ++ [a.scale])).dropLast ∧
      ∃ k : ℤ, (value 100 (subt (b.digits ++ [b.scale]) (a.digits ++ [a.scale])).dropLast : ℚ) =
        (a.val - b.val) * 10 ^ k := by
  obtain ⟨hlegal, hsign⟩ := chsign_spec fun d => hb.legal.mem
  have hrep : ∀ {p q : Blk}, Legal p → Legal q →
      Rep (add p q) ∧ value 100 (add p q) = value 100 p + value 100 q := fun hp hq => by
    obtain ⟨hnormal, hval⟩ := add_spec (fun d => hp.mem) fun d => hq.mem
    exact ⟨⟨hnormal.1, hnormal.top, fun ds => add_nines⟩, hval⟩
  have hten : ∀ z : ℤ, (10 : ℚ) ^ z ≠ 0 := fun z => zpow_ne_zero z (by norm_num)
  rw [subt, List.dropLast_concat, back_concat_zero, eqk, back_concat_zero, back_concat_zero,
    List.dropLast_concat, List.dropLast_concat]
  split_ifs with heq hlt
  · obtain ⟨hr, hval⟩ := hrep hlegal ha.legal
    rw [List.dropLast_concat]
    refine ⟨hr, a.scale, ?_⟩
    rw [hval, hsign, Number.val, Number.val, heq]
    push_cast
    field_simp
    ring
  · obtain ⟨hlegal', hval'⟩ := add0_spec hlegal (a.scale - b.scale).toNat
    obtain ⟨hr, hval⟩ := hrep hlegal' ha.legal
    rw [List.dropLast_concat]
    refine ⟨hr, a.scale, ?_⟩
    rw [hval, hval', hsign, Number.val, Number.val, ← pow_align hlt.le]
    push_cast
    have := hten b.scale
    field_simp
    ring
  · obtain ⟨hlegal', hval'⟩ := add0_spec ha.legal (b.scale - a.scale).toNat
    obtain ⟨hr, hval⟩ := hrep hlegal hlegal'
    rw [List.dropLast_concat]
    refine ⟨hr, b.scale, ?_⟩
    rw [hval, hval', hsign, Number.val, Number.val, ← pow_align (not_lt.mp hlt)]
    push_cast
    have := hten a.scale
    field_simp
    ring

/-- The top digit of a number without digits too many is positive if the number is. -/
theorem back_pos_iff {p : Blk} (h : Rep p) : (p ≠ [] ∧ 0 < back p 0) ↔ 0 < value 100 p := by
  have hneg := h.neg_iff
  have hnil := h.nil_iff
  constructor
  · rintro ⟨hne, hpos⟩
    have h0 : value 100 p ≠ 0 := fun h0 => hne (hnil.mpr h0)
    have : ¬ value 100 p < 0 := fun hlt => by
      have := (hneg.mpr hlt).2
      omega
    omega
  · intro hpos
    have hne : p ≠ [] := fun hp => by
      have := hnil.mp hp
      omega
    have hback : back p 0 ≠ 0 := by
      obtain ⟨ds, d, rfl⟩ := (List.eq_nil_or_concat' p).resolve_left hne
      rw [back_concat_zero]
      rintro rfl
      exact h.top ds rfl
    have : ¬ back p 0 < 0 := fun hlt => by
      have := hneg.mp ⟨hne, hlt⟩
      omega
    exact ⟨hne, by omega⟩

/-- `test` once the numbers are removed and a name is to be read: the contents of the register are
executed, or only its name is read. -/
theorem test_readptr (ha : Proper a) (hb : Proper b) (c : Rel) (stack : List Value)
    (stable : UInt8 → List Value) (x : UInt8) (input : List UInt8) (readptr : Option Value) :
    test c ⟨onStack b :: onStack a :: stack, stable, x :: input, readptr⟩ =
      some ⟨stack, stable, input, if c.Holds a.val b.val then some (contents stable x) else readptr⟩ := by
  obtain ⟨hrep, k, hval⟩ := subt_spec ha hb
  have hnil := hrep.nil_iff
  have hneg := hrep.neg_iff
  have hpos := back_pos_iff hrep
  -- the sign of the difference
  have hten : (0 : ℚ) < 10 ^ k := zpow_pos (by norm_num) k
  have hzero : value 100 (subt (b.digits ++ [b.scale]) (a.digits ++ [a.scale])).dropLast = 0 ↔
      a.val = b.val := by
    rw [← Int.cast_eq_zero (α := ℚ), hval, mul_eq_zero, sub_eq_zero]
    simp [hten.ne']
  have hlt : 0 < value 100 (subt (b.digits ++ [b.scale]) (a.digits ++ [a.scale])).dropLast ↔
      b.val < a.val := by
    rw [← Int.cast_pos (R := ℚ), hval, mul_pos_iff_of_pos_right hten, sub_pos]
  have hgt : value 100 (subt (b.digits ++ [b.scale]) (a.digits ++ [a.scale])).dropLast < 0 ↔
      a.val < b.val := by
    rw [← Int.cast_lt_zero (R := ℚ), hval, ← neg_pos, ← neg_mul, mul_pos_iff_of_pos_right hten,
      neg_sub, sub_pos]
  rw [hzero] at hnil
  rw [hgt] at hneg
  rw [hlt] at hpos
  rw [test, cond, onStack, onStack]
  dsimp only
  generalize (subt (b.digits ++ [b.scale]) (a.digits ++ [a.scale])).dropLast = p at hnil hneg hpos
  by_cases hp : p = []
  · have heq := hnil.mp hp
    rw [if_pos hp]
    cases c <;> simp [Rel.Holds, heq, skip, load, execute]
  · have hne : a.val ≠ b.val := fun h => hp (hnil.mpr h)
    rw [if_neg hp]
    rcases lt_or_gt_of_ne hne with h | h
    · have hback := (hneg.mpr h).2
      cases c <;> simp [Rel.Holds, hne.symm, h, h.not_gt, hback, hback.not_gt, skip, load, execute]
    · have hback := (hpos.mpr h).2
      cases c <;> simp [Rel.Holds, hne.symm, h, h.not_gt, hback, hback.not_gt, skip, load, execute]

end Unitas.Dc.Compare
