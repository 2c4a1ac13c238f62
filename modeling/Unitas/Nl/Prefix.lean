import Unitas.Lib.Decimal
import Unitas.Nl.Model

/-! The prefixes that `nl` writes: the low digits of a number in the chosen format. -/
namespace Unitas.Nl

open Decimal

theorem decimal_small {v : ℕ} (h : v < 10) : decimal v = [UInt8.ofNat (v + 48)] := by
  unfold decimal
  split_ifs with h0
  · rw [h0]
    rfl
  · rw [Nat.digits_of_lt 10 v h0 h, Nat.add_comm]
    rfl

theorem decimal_big {v : ℕ} (h : 10 ≤ v) :
    decimal v = decimal (v / 10) ++ [UInt8.ofNat (v % 10 + 48)] := by
  have h0 : v ≠ 0 := by omega
  have h0' : v / 10 ≠ 0 := by omega
  unfold decimal
  rw [if_neg h0, if_neg h0', Nat.digits_eq_cons_digits_div (by decide) h0, List.reverse_cons,
    List.map_append, Nat.add_comm (v % 10)]
  rfl

/-- The last digits of a number, as many as the field is wide. -/
def low (width n : ℕ) : List UInt8 := (decimal n).drop ((decimal n).length - width)

theorem low_small {v : ℕ} (h : v < 10) (p : ℕ) : low (p + 1) v = [UInt8.ofNat (v + 48)] := by
  unfold low
  rw [decimal_small h]
  simp

theorem low_big {v : ℕ} (h : 10 ≤ v) (p : ℕ) :
    low (p + 1) v = low p (v / 10) ++ [UInt8.ofNat (v % 10 + 48)] := by
  unfold low
  rw [decimal_big h, List.length_append, List.length_singleton, Nat.add_sub_add_right,
    List.drop_append_of_le_length (Nat.sub_le _ _)]

theorem set_replicate (p : ℕ) (pad d : UInt8) (rest : List UInt8) :
    (List.replicate (p + 1) pad ++ rest).set p d = List.replicate p pad ++ d :: rest := by
  induction p with
  | zero => rfl
  | succ p ih =>
    rw [List.replicate_succ, List.cons_append, List.set_cons_succ, ih, List.replicate_succ,
      List.cons_append]

/-- `num` writes over the pad characters from the right. -/
theorem num_eq (v p : ℕ) (pad : UInt8) (rest : List UInt8) :
    num v p (List.replicate (p + 1) pad ++ rest) =
      List.replicate (p + 1 - (low (p + 1) v).length) pad ++ low (p + 1) v ++ rest := by
  induction p generalizing v rest with
  | zero =>
    unfold num
    split_ifs with h
    · rw [set_replicate, low_small h]
      simp
    · rw [set_replicate, low_big (not_lt.mp h)]
      simp [low]
  | succ p ih =>
    unfold num
    split_ifs with h
    · rw [set_replicate, low_small h]
      simp
    · dsimp only
      rw [set_replicate, ih, low_big (not_lt.mp h), List.length_append, List.length_singleton,
        Nat.add_sub_add_right]
      simp

/-- The number of a line in its field. -/
def field (o : Options) (n : ℕ) : List UInt8 :=
  let fill := o.width - (low o.width n).length
  match o.format with
  | .l => low o.width n ++ List.replicate fill 32
  | .n => List.replicate fill 32 ++ low o.width n
  | .z => List.replicate fill 48 ++ low o.width n

theorem low_ne_nil {width : ℕ} (h : 0 < width) (n : ℕ) : low width n ≠ [] := by
  unfold low
  rw [Ne, List.drop_eq_nil_iff, not_le]
  have := List.length_pos_iff.mpr (decimal_ne_nil n)
  omega

theorem low_head {width : ℕ} {n : ℕ} {rest : List UInt8} (h : 0 < width) :
    (low width n ++ rest).head? ≠ some 32 := by
  obtain ⟨c, cs, hc⟩ := List.exists_cons_of_ne_nil (low_ne_nil h n)
  have hdigit := decimal_isDigit n c (List.mem_of_mem_drop (by
    change c ∈ low width n
    rw [hc]
    exact List.mem_cons_self))
  rw [hc]
  intro h32
  have heq : c = 32 := by simpa using h32
  rw [heq] at hdigit
  exact absurd hdigit (by decide)

theorem shift_eq (digits : List UInt8) (hdigits : ∀ rest, (digits ++ rest).head? ≠ some 32)
    (k m i : ℕ) (hk : m ≤ k) :
    shift k (List.replicate m 32 ++ digits ++ List.replicate i 32) =
      some (digits ++ List.replicate (m + i) 32) := by
  induction k generalizing m i with
  | zero =>
    have hm : m = 0 := by omega
    subst hm
    unfold shift
    rw [List.replicate_zero, List.nil_append, if_neg (hdigits _), Nat.zero_add]
  | succ k ih =>
    unfold shift
    cases m with
    | zero => rw [List.replicate_zero, List.nil_append, if_neg (hdigits _), Nat.zero_add]
    | succ m =>
      have htail : (List.replicate (m + 1) (32 : UInt8) ++ digits ++ List.replicate i 32).tail ++
          [32] = List.replicate m 32 ++ digits ++ List.replicate (i + 1) 32 := by
        rw [List.replicate_succ, List.replicate_succ']
        simp
      rw [if_pos (by simp [List.replicate_succ]), htail, ih m (i + 1) (by omega)]
      congr 3
      omega

/-- What `pnum` prints, if `pad` is a blank for every format but `rz`. -/
theorem pnum_eq (o : Options) {pad : UInt8} (hpad : o.format ≠ .z → pad = 32) (n : ℕ) :
    pnum o pad n = some (if o.format = .z then 48 else pad, field o n ++ o.sep) := by
  have hw := o.width_pos
  have hwidth : o.width - 1 + 1 = o.width := by omega
  have hnum (pad : UInt8) : num n (o.width - 1) (List.replicate o.width pad) =
      List.replicate (o.width - (low o.width n).length) pad ++ low o.width n := by
    have h := num_eq n (o.width - 1) pad []
    rw [hwidth, List.append_nil, List.append_nil] at h
    exact h
  unfold pnum field
  dsimp only
  rw [hnum]
  cases hf : o.format with
  | l =>
    have hshift := shift_eq (low o.width n) (fun rest => low_head hw) o.width
      (o.width - (low o.width n).length) 0 (Nat.sub_le _ _)
    rw [List.replicate_zero, List.append_nil, Nat.add_zero] at hshift
    rw [hpad (by rw [hf]; decide)]
    simp [hshift]
  | n =>
    rw [hpad (by rw [hf]; decide)]
    simp
  | z => simp

end Unitas.Nl
