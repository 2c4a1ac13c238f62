import Unitas.Lib.Stopping
import Unitas.Printf.Model

/-! The loop over the argument of `%b`, by what it does with each character. -/
namespace Unitas.Printf
open Unitas.Stopping

/-- Whether a character goes on with an octal escape. -/
def GoesOn (octal : Option ℕ) (c : UInt8) : Prop :=
  ∃ o, octal = some o ∧ isOctal c = true ∧ (o <<< 3 ||| (c.toNat - 48)) ≤ 255

/-- An octal escape that has ended. -/
def flush (buf : List UInt8) (octal : Option ℕ) (bbuf : List UInt8) : List UInt8 :=
  match octal with
  | some o => bbuf.set buf.length (UInt8.ofNat o)
  | none => bbuf

section
variable {buf bbuf j : List UInt8} {octal : Option ℕ} {c d : UInt8}

theorem loopB_digit {o : ℕ} (hc : isOctal c = true) (hfit : (o <<< 3 ||| (c.toNat - 48)) ≤ 255) :
    loopB buf (some o) bbuf (c :: j) = loopB buf (some (o <<< 3 ||| (c.toNat - 48))) bbuf j := by
  rw [loopB.eq_def]
  simp [hc, hfit]

theorem loopB_flush (h : ¬ GoesOn octal c) :
    loopB buf octal bbuf (c :: j) = loopB buf none (flush buf octal bbuf) (c :: j) := by
  cases octal with
  | none => rfl
  | some o =>
    have hb : (isOctal c && decide (((some o).getD 0 <<< 3 ||| (c.toNat - 48)) ≤ 255)) = false := by
      rw [Bool.and_eq_false_iff, decide_eq_false_iff_not]
      by_contra hne
      rw [not_or, not_not, Bool.not_eq_false] at hne
      exact h ⟨o, rfl, hne⟩
    rw [loopB.eq_def, loopB.eq_def buf none]
    simp only [hb]
    rfl

theorem loopB_plain (hc : c ≠ 92) :
    loopB buf none bbuf (c :: j) = storeB bbuf c >>= fun bbuf => loopB buf none bbuf j := by
  rw [loopB.eq_def]
  exact if_neg hc

theorem loopB_last : loopB buf none bbuf [92] = (storeB bbuf 92).map (·, false) := by
  cases h : storeB bbuf 92 with
  | error e => simp [loopB, h, bind, Except.bind, Except.map]
  | ok b => simp [loopB, h, bind, Except.bind, Except.map]

theorem loopB_octal (hd : isOctal d = true) :
    loopB buf none bbuf (92 :: d :: j) = loopB buf (some (d.toNat - 48)) bbuf j := by
  rw [loopB.eq_def]
  simp [hd]

theorem loopB_stop : loopB buf none bbuf (92 :: 99 :: j) = .ok (bbuf, true) := rfl

theorem loopB_escape {e : UInt8} (hd : escape d = some e) (ho : ¬ isOctal d = true) (h99 : d ≠ 99) :
    loopB buf none bbuf (92 :: d :: j) = storeB bbuf e >>= fun bbuf => loopB buf none bbuf j := by
  rw [loopB.eq_def]
  simp [hd, ho, h99]

theorem loopB_other (hd : escape d = none) (ho : ¬ isOctal d = true) (h99 : d ≠ 99) :
    loopB buf none bbuf (92 :: d :: j) =
      storeB bbuf 92 >>= fun bbuf => storeB bbuf d >>= fun bbuf => loopB buf none bbuf j := by
  rw [loopB.eq_def]
  simp [hd, ho, h99]

end

end Unitas.Printf
