import Unitas.Printf.Model
import Mathlib.Data.List.TakeWhile

/-! What a format says: its items, the arguments they take, and the output. -/
namespace Unitas.Printf
open Unitas.Decimal

inductive Item
  | char (c : UInt8)
  | oct (o : ℕ)
  | percent
  | str
  | num
  deriving DecidableEq, Repr

/-- An octal escape goes on while its value fits in a byte. -/
def octal : ℕ → List UInt8 → ℕ × List UInt8
  | o, [] => (o, [])
  | o, c :: i =>
    if isOctal c ∧ 8 * o + (c.toNat - 48) ≤ 255 then octal (8 * o + (c.toNat - 48)) i
    else (o, c :: i)

theorem length_octal (o : ℕ) (i : List UInt8) : (octal o i).2.length ≤ i.length := by
  fun_induction octal o i with
  | case1 => simp
  | case2 o c i h ih =>
    rw [List.length_cons]
    omega
  | case3 => simp

/-- The items of a format with ordinary characters, known escapes, `%%`, `%s` and `%d`. -/
def parse : List UInt8 → Option (List Item)
  | [] => some []
  | [c] => if c = 37 ∨ c = 92 then none else some [.char c]
  | c :: d :: i =>
    if c = 37 then
      if d = 37 then (parse i).map (.percent :: ·)
      else if d = 115 then (parse i).map (.str :: ·)
      else if d = 100 then (parse i).map (.num :: ·)
      else none
    else if c = 92 then
      if isOctal d then
        (parse (octal (d.toNat - 48) i).2).map (.oct (octal (d.toNat - 48) i).1 :: ·)
      else match escape d with
        | some e => (parse i).map (.char e :: ·)
        | none => none
    else (parse (d :: i)).map (.char c :: ·)
termination_by i => i.length
decreasing_by
  all_goals
    have := length_octal (d.toNat - 48) i
    simp only [List.length_cons]
    omega

/-- How many arguments an item takes. -/
def Item.takes : Item → ℕ
  | .str | .num => 1
  | _ => 0

/-- A sign, or none, and digits without a leading zero. -/
def IsDecimal (a : List UInt8) : Prop :=
  ∃ n, a = decimal n ∨ a = 43 :: decimal n ∨ a = 45 :: decimal n

def value (a : List UInt8) : ℤ :=
  if a.head? = some 45 then -(decValue a.tail : ℤ)
  else if a.head? = some 43 then decValue a.tail
  else decValue a

def Item.text (arg : Option (List UInt8)) : Item → List UInt8
  | .char c => [c]
  | .oct o => [UInt8.ofNat o]
  | .percent => [37]
  | .str => arg.getD []
  | .num => decimalInt ((arg.map value).getD 0)

/-- One pass, which takes its arguments from the front. -/
def texts : List Item → List (List UInt8) → List UInt8
  | [], _ => []
  | item :: items, args => item.text args.head? ++ texts items (args.drop item.takes)

/-- The arguments that a pass takes for `%d`. -/
def nums : List Item → List (List UInt8) → List (List UInt8)
  | [], _ => []
  | item :: items, args =>
    (if item = .num then args.head?.toList else []) ++ nums items (args.drop item.takes)

def takes (items : List Item) : ℕ := (items.map Item.takes).sum

/-- The arguments left for each pass. -/
def starts (n : ℕ) (args : List (List UInt8)) : List (List (List UInt8)) :=
  args :: if _h : 0 < n ∧ n < args.length then starts n (args.drop n) else []
termination_by args.length
decreasing_by
  simp only [List.length_drop]
  omega

/-- The format from left to right, again from its start while arguments remain. -/
def output (items : List Item) (args : List (List UInt8)) : List UInt8 :=
  (starts (takes items) args).flatMap (texts items)

theorem magnitude_decimal_append (n : ℕ) {rest : List UInt8}
    (h : ∀ c ∈ rest.head?, isDigit c = false ∧ c ≠ 120 ∧ c ≠ 88) :
    magnitude (decimal n ++ rest) = n := by
  have htake : (decimal n ++ rest).takeWhile isDigit = decimal n := by
    cases rest with
    | nil =>
      rw [List.append_nil]
      exact List.takeWhile_eq_self_iff.mpr (decimal_isDigit n)
    | cons c rest => exact takeWhile_decimal n (h c rfl).1 rest
  by_cases hn : n = 0
  · subst hn
    have hrest : rest.takeWhile isOctal = [] := by
      cases rest with
      | nil => rfl
      | cons c rest =>
        refine List.takeWhile_cons_of_neg ?_
        have hc := (h c rfl).1
        simp only [isDigit, isOctal, Bool.and_eq_false_iff, decide_eq_false_iff_not,
          UInt8.le_iff_toNat_le, Bool.and_eq_true, decide_eq_true_eq] at hc ⊢
        have h57 : (57 : UInt8).toNat = 57 := rfl
        have h55 : (55 : UInt8).toNat = 55 := rfl
        omega
    have hoctal : (48 :: rest).takeWhile isOctal = [48] := by
      rw [List.takeWhile_cons_of_pos rfl, hrest]
    change magnitude (48 :: rest) = 0
    rw [magnitude.eq_def]
    split
    next x d tail heq =>
      obtain rfl := (List.cons.inj heq).2
      have hx : ¬ ((x = 120 ∨ x = 88) ∧ hexDigit d = true) := fun hx =>
        hx.1.elim (h x rfl).2.1 (h x rfl).2.2
      rw [if_neg hx, hoctal]
      rfl
    next => rw [hoctal]; rfl
    next hne => exact absurd rfl (hne rest)
  · obtain ⟨c, ds, hc, -, h48⟩ := decimal_eq_cons hn
    have hval := decValue_decimal n
    rw [← htake] at hval
    rw [hc] at hval ⊢
    rw [magnitude.eq_def]
    split
    next heq => exact absurd (List.cons.inj heq).1 h48
    next _ heq => exact absurd (List.cons.inj heq).1 h48
    next => exact hval

theorem magnitude_decimal (n : ℕ) : magnitude (decimal n) = n := by
  have h := @magnitude_decimal_append n [] (fun _ h => nomatch h)
  rwa [List.append_nil] at h

theorem decimal_head (n : ℕ) : ∃ c ds, decimal n = c :: ds ∧ 48 ≤ c.toNat ∧ c.toNat ≤ 57 := by
  obtain ⟨c, ds, h⟩ := List.exists_cons_of_ne_nil (decimal_ne_nil n)
  have hc := decimal_isDigit n c (by rw [h]; exact List.mem_cons_self)
  simp only [isDigit, Bool.and_eq_true, decide_eq_true_eq, UInt8.le_iff_toNat_le] at hc
  exact ⟨c, ds, h, hc.1, hc.2⟩

/-- A number begins where its digits do. -/
theorem digit_start {c : UInt8} (h1 : 48 ≤ c.toNat) (h2 : c.toNat ≤ 57) :
    isSpace c = false ∧ c ≠ 45 ∧ c ≠ 43 := by
  refine ⟨?_, ?_, ?_⟩
  · simp only [isSpace, Bool.or_eq_false_iff, decide_eq_false_iff_not, Bool.and_eq_false_iff,
      UInt8.le_iff_toNat_le, ← UInt8.toNat_inj]
    refine ⟨?_, .inr ?_⟩
    · show ¬ c.toNat = 32
      omega
    · show ¬ c.toNat ≤ 13
      omega
  · rintro rfl
    exact absurd h1 (by decide)
  · rintro rfl
    exact absurd h1 (by decide)

theorem strtol_decimal {a : List UInt8} (h : IsDecimal a) :
    strtol a = max (-2 ^ 63) (min (value a) (2 ^ 63 - 1)) := by
  obtain ⟨n, rfl | rfl | rfl⟩ := h
  · obtain ⟨c, ds, hc, h1, h2⟩ := decimal_head n
    obtain ⟨hspace, h45, h43⟩ := digit_start h1 h2
    have hm := magnitude_decimal n
    have hv := decValue_decimal n
    rw [hc] at hm hv ⊢
    simp only [strtol, value, List.dropWhile_cons, hspace, List.head?_cons, Option.some.injEq, h45,
      h43, if_false, hm, hv, Bool.false_eq_true]
    omega
  · simp [strtol, value, isSpace, magnitude_decimal]
  · simp [strtol, value, isSpace, magnitude_decimal]
    omega

theorem isInt_strtol {a : List UInt8} (h : IsDecimal a) : IsInt (strtol a) ↔ IsInt (value a) := by
  rw [strtol_decimal h]
  unfold IsInt
  omega

theorem strtol_eq_value {a : List UInt8} (h : IsDecimal a) (hi : IsInt (value a)) :
    strtol a = value a := by
  rw [strtol_decimal h]
  unfold IsInt at hi
  omega

end Unitas.Printf
