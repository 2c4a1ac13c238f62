import Unitas.Printf.Bbuf
import Unitas.Printf.Pass

/-! What `%b` makes of its argument. -/
namespace Unitas.Printf
open Unitas.Stopping

/-- The interpreted characters, of which each may come from an octal escape, and whether `\c` has
ended them. -/
def pieces : List UInt8 → List (UInt8 × Bool) × Bool
  | [] => ([], false)
  | [c] => ([(c, false)], false)
  | c :: d :: j =>
    if c = 92 then
      if isOctal d then
        let r := octal (d.toNat - 48) j
        ((UInt8.ofNat r.1, true) :: (pieces r.2).1, (pieces r.2).2)
      else if d = 99 then ([], true)
      else match escape d with
        | some e => ((e, false) :: (pieces j).1, (pieces j).2)
        | none => ((92, false) :: (d, false) :: (pieces j).1, (pieces j).2)
    else ((c, false) :: (pieces (d :: j)).1, (pieces (d :: j)).2)
termination_by j => j.length
decreasing_by
  all_goals
    have := length_octal (d.toNat - 48) j
    simp only [List.length_cons]
    omega

def interpreted (a : List UInt8) : List UInt8 := (pieces a).1.map Prod.fst

/-- Where a character of the argument is stored, for a text of `n` characters before it. -/
def put (n : ℕ) (bbuf : List UInt8) (p : UInt8 × Bool) : Except Stop (List UInt8) :=
  if p.2 then .ok (bbuf.set n p.1) else storeB bbuf p.1

/-- An octal escape at the end of the argument is not stored. -/
def stored : List (UInt8 × Bool) → Bool → List (UInt8 × Bool)
  | [], _ => []
  | [p], stop => if p.2 ∧ ¬ stop then [] else [p]
  | p :: q :: ps, stop => p :: stored (q :: ps) stop

theorem stored_cons {p : UInt8 × Bool} (h : p.2 = false) (ps : List (UInt8 × Bool)) (stop : Bool) :
    stored (p :: ps) stop = p :: stored ps stop := by
  cases ps with
  | nil => simp [stored, h]
  | cons q ps => rfl

theorem stored_of_ne {ps : List (UInt8 × Bool)} {stop : Bool} (h : ps ≠ [] ∨ stop = true)
    (p : UInt8 × Bool) : stored (p :: ps) stop = p :: stored ps stop := by
  cases ps with
  | nil =>
    have hstop := h.resolve_left (not_not.mpr rfl)
    simp [stored, hstop]
  | cons q ps => rfl

/-- Something comes of every argument, if not the end. -/
theorem pieces_ne_nil (c : UInt8) (j : List UInt8) :
    (pieces (c :: j)).1 ≠ [] ∨ (pieces (c :: j)).2 = true := by
  cases j with
  | nil => exact .inl (by simp [pieces])
  | cons d j =>
    rw [pieces]
    split_ifs
    · exact .inl (List.cons_ne_nil _ _)
    · exact .inr rfl
    · cases escape d with
      | some e => exact .inl (List.cons_ne_nil _ _)
      | none => exact .inl (List.cons_ne_nil _ _)
    · exact .inl (List.cons_ne_nil _ _)

theorem pieces_ne {c : UInt8} (hc : c ≠ 92) (j : List UInt8) :
    pieces (c :: j) = ((c, false) :: (pieces j).1, (pieces j).2) := by
  cases j with
  | nil => simp [pieces]
  | cons d j => rw [pieces, if_neg hc]

section
variable {buf bbuf : List UInt8}

theorem goesOn_iff {o : ℕ} {c : UInt8} :
    GoesOn (some o) c ↔ isOctal c ∧ 8 * o + (c.toNat - 48) ≤ 255 := by
  constructor
  · rintro ⟨o', ho, hc, hfit⟩
    obtain rfl := Option.some.inj ho
    exact ⟨hc, shift_or hc ▸ hfit⟩
  · rintro ⟨hc, hfit⟩
    exact ⟨o, rfl, hc, (shift_or hc).symm ▸ hfit⟩

/-- An octal escape is stored when a character comes after it. -/
theorem loopB_some (o : ℕ) (j : List UInt8) : loopB buf (some o) bbuf j =
    if (octal o j).2 = [] then .ok (bbuf, false)
    else loopB buf none (bbuf.set buf.length (UInt8.ofNat (octal o j).1)) (octal o j).2 := by
  fun_induction octal o j with
  | case1 o => rfl
  | case2 o c j h ih =>
    have hfit := h.2
    rw [← shift_or h.1] at hfit
    rw [loopB_digit h.1 hfit, shift_or h.1, ih]
  | case3 o c j h =>
    rw [loopB_flush (fun hgo => h (goesOn_iff.mp hgo)), if_neg (List.cons_ne_nil _ _)]
    rfl

/-- The loop stores the interpreted characters one by one. -/
theorem loopB_eq (n : ℕ) : ∀ {bbuf j : List UInt8}, j.length ≤ n → loopB buf none bbuf j =
    (stored (pieces j).1 (pieces j).2).foldlM (put buf.length) bbuf >>=
      fun bbuf => .ok (bbuf, (pieces j).2) := by
  induction n with
  | zero =>
    intro bbuf j hlen
    obtain rfl := List.length_eq_zero_iff.mp (Nat.le_zero.mp hlen)
    simp only [pieces]
    rfl
  | succ n ih =>
    intro bbuf j hlen
    cases j with
    | nil =>
      simp only [pieces]
      rfl
    | cons c j =>
      have hj : j.length ≤ n := Nat.le_of_succ_le_succ hlen
      by_cases h92 : c = 92
      · subst h92
        cases j with
        | nil =>
          rw [loopB_last]
          simp only [pieces]
          cases hstore : storeB bbuf 92 with
          | error e => simp [stored, put, hstore, bind, Except.bind, Except.map]
          | ok b => simp [stored, put, hstore, bind, Except.bind, Except.map, pure, Except.pure]
        | cons d j =>
          have hj' : j.length ≤ n := Nat.le_of_succ_le hj
          rw [pieces, if_pos rfl]
          by_cases ho : isOctal d = true
          · rw [loopB_octal ho, loopB_some, if_pos ho]
            dsimp only
            have hrest := (length_octal (d.toNat - 48) j).trans hj'
            cases hr : (octal (d.toNat - 48) j).2 with
            | nil =>
              rw [if_pos rfl]
              simp only [pieces]
              rfl
            | cons e rest =>
              rw [hr] at hrest
              rw [if_neg (List.cons_ne_nil _ _), ih hrest]
              rw [stored_of_ne (pieces_ne_nil e rest), List.foldlM_cons, bind_assoc]
              rfl
          · by_cases h99 : d = 99
            · subst h99
              rw [loopB_stop, if_neg ho, if_pos rfl]
              rfl
            · rw [if_neg ho, if_neg h99]
              cases hd : escape d with
              | some e =>
                rw [loopB_escape hd ho h99]
                dsimp only
                rw [stored_cons rfl, List.foldlM_cons, bind_assoc]
                exact bind_congr fun b => ih hj'
              | none =>
                rw [loopB_other hd ho h99]
                dsimp only
                rw [stored_cons rfl, stored_cons rfl, List.foldlM_cons, bind_assoc]
                refine bind_congr fun b => ?_
                rw [List.foldlM_cons, bind_assoc]
                exact bind_congr fun b => ih hj'
      · rw [loopB_plain h92, pieces_ne h92]
        dsimp only
        rw [stored_cons rfl, List.foldlM_cons, bind_assoc]
        exact bind_congr fun b => ih hj

end

end Unitas.Printf
