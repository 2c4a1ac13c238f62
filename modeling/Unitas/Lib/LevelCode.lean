import Mathlib.Data.List.Basic
import Mathlib.Tactic.Ring

/-! Bits of numbers, most significant first, and the prefix code in which the codes of each
length are consecutive numbers. -/
namespace Unitas.LevelCode

/-- The lowest `n` bits of `v`. -/
def toBits : ℕ → ℕ → List ℕ
  | 0, _ => []
  | n + 1, v => v / 2 ^ n % 2 :: toBits n v

@[simp] theorem toBits_zero (v : ℕ) : toBits 0 v = [] := rfl

theorem toBits_succ (n v : ℕ) : toBits (n + 1) v = v / 2 ^ n % 2 :: toBits n v := rfl

@[simp] theorem length_toBits (n v : ℕ) : (toBits n v).length = n := by
  induction n with
  | zero => rfl
  | succ n ih => rw [toBits_succ, List.length_cons, ih]

/-- Bits from `n` up do not matter to the lowest `n`. -/
theorem toBits_add_mul (n a v : ℕ) : toBits n (a * 2 ^ n + v) = toBits n v := by
  induction n generalizing a with
  | zero => rfl
  | succ n ih =>
    have hshift : a * 2 ^ (n + 1) + v = 2 * a * 2 ^ n + v := by ring
    have hpos : 0 < 2 ^ n := Nat.pow_pos (by omega)
    rw [toBits_succ, toBits_succ, hshift, ih, Nat.add_comm, Nat.add_mul_div_right _ _ hpos,
      Nat.add_mul_mod_self_left]

theorem toBits_append {n b : ℕ} (m a : ℕ) (hb : b < 2 ^ n) :
    toBits (m + n) (a * 2 ^ n + b) = toBits m a ++ toBits n b := by
  induction m with
  | zero => rw [Nat.zero_add, toBits_add_mul, toBits_zero, List.nil_append]
  | succ m ih =>
    have hpos : 0 < 2 ^ n := Nat.pow_pos (by omega)
    have hdiv : (a * 2 ^ n + b) / 2 ^ (m + n) = a / 2 ^ m := by
      rw [Nat.add_comm m n, Nat.pow_add, ← Nat.div_div_eq_div_mul, Nat.add_comm,
        Nat.add_mul_div_right _ _ hpos, Nat.div_eq_of_lt hb, Nat.zero_add]
    rw [show m + 1 + n = m + n + 1 by omega, toBits_succ, hdiv, ih, toBits_succ, List.cons_append]

theorem toBits_mul_pow (m n a : ℕ) :
    toBits (m + n) (a * 2 ^ n) = toBits m a ++ toBits n 0 := by
  have := toBits_append m a (Nat.pow_pos (n := n) (show 0 < 2 by omega))
  simpa using this

/-- The number written with the digits `l` in base `b`. -/
def value (b : ℕ) (l : List ℕ) : ℕ := l.foldl (fun a d => a * b + d) 0

@[simp] theorem value_nil (b : ℕ) : value b [] = 0 := rfl

theorem foldl_eq_value (b : ℕ) (l : List ℕ) (a : ℕ) :
    l.foldl (fun a d => a * b + d) a = a * b ^ l.length + value b l := by
  induction l generalizing a with
  | nil => simp
  | cons d l ih =>
    have hcons : value b (d :: l) = d * b ^ l.length + value b l := by
      rw [value, List.foldl_cons, ih, Nat.zero_mul, Nat.zero_add]
    rw [List.foldl_cons, ih, hcons, List.length_cons]
    ring

theorem value_append (b : ℕ) (l l' : List ℕ) :
    value b (l ++ l') = value b l * b ^ l'.length + value b l' := by
  rw [value, List.foldl_append, foldl_eq_value]
  rfl

theorem value_cons (b d : ℕ) (l : List ℕ) :
    value b (d :: l) = d * b ^ l.length + value b l := by
  have := value_append b [d] l
  simpa [value] using this

theorem value_lt {b : ℕ} {l : List ℕ} (h : ∀ d ∈ l, d < b) : value b l < b ^ l.length := by
  induction l with
  | nil => simp
  | cons d l ih =>
    have hd : d + 1 ≤ b := h d List.mem_cons_self
    have hl := ih fun x hx => h x (List.mem_cons_of_mem _ hx)
    have hmul := Nat.mul_le_mul_right (b ^ l.length) hd
    rw [value_cons, List.length_cons, Nat.pow_succ, Nat.mul_comm _ b]
    rw [Nat.add_mul, Nat.one_mul] at hmul
    omega

/-- The bits of a number are those of its digits in a base that is a power of two. -/
theorem toBits_value {k : ℕ} {l : List ℕ} (h : ∀ d ∈ l, d < 2 ^ k) :
    toBits (k * l.length) (value (2 ^ k) l) = l.flatMap (toBits k) := by
  induction l with
  | nil => simp
  | cons d l ih =>
    have hl : ∀ x ∈ l, x < 2 ^ k := fun x hx => h x (List.mem_cons_of_mem _ hx)
    have hlt := value_lt hl
    rw [← Nat.pow_mul] at hlt
    rw [value_cons, List.length_cons, List.flatMap_cons, Nat.mul_succ, Nat.add_comm,
      ← Nat.pow_mul, toBits_append _ _ hlt, ih hl]

/-- A binary tree by levels: `inner l` inner nodes and `leaves l` leaves on level `l`, with the
root on level 0 and nothing below level `depth`. -/
structure Levels (inner leaves : ℕ → ℕ) (depth : ℕ) : Prop where
  root : inner 0 = 1
  children : ∀ l, inner (l + 1) + leaves (l + 1) = 2 * inner l
  bottom : inner depth = 0

section Levels
variable {inner leaves : ℕ → ℕ} {depth : ℕ}

theorem Levels.le_two_pow (h : Levels inner leaves depth) (l : ℕ) : inner l ≤ 2 ^ l := by
  induction l with
  | zero => rw [h.root, Nat.pow_zero]
  | succ l ih =>
    have := h.children l
    rw [Nat.pow_succ]
    omega

/-- Codes of leaf nodes fit their length. -/
theorem Levels.code_lt (h : Levels inner leaves depth) {l c : ℕ} (hl : 1 ≤ l)
    (hc : c < inner l + leaves l) : c < 2 ^ l := by
  obtain ⟨l, rfl⟩ : ∃ k, l = k + 1 := ⟨l - 1, by omega⟩
  have h1 := h.children l
  have h2 := h.le_two_pow l
  rw [Nat.pow_succ]
  omega

/-- A proper prefix of a code is the number of an inner node. -/
theorem Levels.prefix_lt (h : Levels inner leaves depth) (k : ℕ) :
    ∀ r c, c < inner (k + r + 1) + leaves (k + r + 1) → c / 2 ^ (r + 1) < inner k := by
  intro r
  induction r with
  | zero =>
    intro c hc
    rw [Nat.add_zero, h.children] at hc
    rw [Nat.zero_add, Nat.pow_one]
    omega
  | succ r ih =>
    intro c hc
    have hhalf : c / 2 < inner (k + r + 1) := by
      rw [← Nat.add_assoc, h.children] at hc
      omega
    have := ih (c / 2) (by omega)
    rwa [Nat.div_div_eq_div_mul, Nat.mul_comm, ← Nat.pow_succ] at this

end Levels

end Unitas.LevelCode
