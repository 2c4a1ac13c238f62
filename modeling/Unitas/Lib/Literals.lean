import Mathlib

/-! Instances under a name of their own, for the literals of small finite types and for membership
in a list of strings. -/
namespace Unitas.Literals

instance neZeroThree : NeZero 3 := ⟨Nat.succ_ne_zero 2⟩
instance neZeroFour : NeZero 4 := ⟨Nat.succ_ne_zero 3⟩
instance neZeroEight : NeZero 8 := ⟨Nat.succ_ne_zero 7⟩
instance neZeroTen : NeZero 10 := ⟨Nat.succ_ne_zero 9⟩
instance lawfulBEqString : LawfulBEq (List UInt8) := inferInstance

end Unitas.Literals
