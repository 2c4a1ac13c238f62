import Mathlib.Data.List.Basic
import Mathlib.Algebra.Order.BigOperators.Group.List
import Mathlib.Algebra.Order.Group.Nat

/-! A stream that a reader gets in pieces, whose sizes it does not choose. -/
namespace Unitas.ByteStream

variable {α : Type}

/-- What is still to come, and how much has been read. -/
structure Stream (α : Type) where
  rest : List α
  pos : ℕ

variable (ready : ℕ → ℕ)

/-- One read of at most `n` elements. At each position one element is there and `ready` tells
how many more; at the end nothing is. -/
def Stream.read (n : ℕ) (s : Stream α) : List α × Stream α :=
  let k := min n (ready s.pos + 1)
  (s.rest.take k, ⟨s.rest.drop k, s.pos + min k s.rest.length⟩)

/-- The stream after `n` elements. -/
def Stream.skip (n : ℕ) (s : Stream α) : Stream α :=
  ⟨s.rest.drop n, s.pos + min n s.rest.length⟩

/-- Reads until there are `n` elements or the stream ends. -/
def Stream.readBlock : ℕ → ℕ → Stream α → List α × Stream α
  | 0, _, s => ([], s)
  | fuel + 1, n, s =>
    if n = 0 then ([], s)
    else
      let (chunk, s) := s.read ready n
      if chunk = [] then ([], s)
      else
        let (block, s) := s.readBlock fuel (n - chunk.length)
        (chunk ++ block, s)

theorem Stream.skip_zero (s : Stream α) : s.skip 0 = s := by
  simp [Stream.skip]

theorem Stream.skip_skip (m n : ℕ) (s : Stream α) (h : m ≤ s.rest.length) :
    (s.skip m).skip n = s.skip (m + n) := by
  simp only [Stream.skip, List.drop_drop, List.length_drop, Stream.mk.injEq, true_and]
  omega

theorem Stream.read_eq (n : ℕ) (s : Stream α) :
    ∃ k, k ≤ n ∧ (n ≠ 0 → k ≠ 0) ∧ s.read ready n = (s.rest.take k, s.skip k) := by
  refine ⟨min n (ready s.pos + 1), by omega, by omega, rfl⟩

/-- However the stream is cut, a block is what comes next. -/
theorem Stream.readBlock_eq (fuel : ℕ) :
    ∀ n (s : Stream α), n ≤ fuel → s.readBlock ready fuel n = (s.rest.take n, s.skip n) := by
  induction fuel with
  | zero =>
    intro n s hn
    obtain rfl : n = 0 := by omega
    rw [Stream.readBlock, Stream.skip_zero, List.take_zero]
  | succ fuel ih =>
    intro n s hn
    rw [Stream.readBlock]
    by_cases hzero : n = 0
    · subst hzero
      rw [if_pos rfl, Stream.skip_zero, List.take_zero]
    · rw [if_neg hzero]
      obtain ⟨k, hk, hpos, hread⟩ := s.read_eq ready n
      rw [hread]
      dsimp only
      by_cases hend : s.rest = []
      · have hskip : ∀ m, s.skip m = s := by
          intro m
          obtain ⟨rest, pos⟩ := s
          obtain rfl : rest = [] := hend
          simp [Stream.skip]
        rw [hend, hskip, hskip, List.take_nil, List.take_nil, if_pos rfl]
      · have hk0 := hpos hzero
        have hlen : (s.rest.take k).length = min k s.rest.length := List.length_take
        have hne : s.rest.take k ≠ [] := by
          intro hnil
          rcases List.take_eq_nil_iff.mp hnil with h | h
          · exact hk0 h
          · exact hend h
        rw [if_neg hne, ih _ _ (by
          have := List.length_pos_iff.mpr hne
          omega)]
        dsimp only
        by_cases hshort : s.rest.length ≤ k
        · have hrest : (s.skip k).rest = [] := List.drop_eq_nil_of_le hshort
          rw [hrest, List.take_nil, List.append_nil, List.take_of_length_le hshort,
            List.take_of_length_le (by omega)]
          refine congrArg (s.rest, ·) ?_
          simp only [Stream.skip, List.drop_eq_nil_of_le hshort, List.drop_nil, List.length_nil,
            List.drop_eq_nil_of_le (show s.rest.length ≤ n by omega), Stream.mk.injEq, true_and]
          omega
        · rw [hlen, show min k s.rest.length = k by omega, Stream.skip_skip _ _ _ (by omega),
            Nat.add_sub_cancel' hk]
          refine congrArg (·, s.skip n) ?_
          conv_rhs => rw [show n = k + (n - k) by omega, List.take_add]
          rfl

/-- The pieces in which reads of at most `n` elements get the stream. -/
def Stream.pieces (n : ℕ) : ℕ → Stream α → List (List α)
  | 0, _ => []
  | fuel + 1, s =>
    let (chunk, s) := s.read ready n
    if chunk = [] then [] else chunk :: s.pieces n fuel

theorem Stream.pieces_nil (n fuel pos : ℕ) :
    (⟨[], pos⟩ : Stream α).pieces ready n fuel = [] := by
  cases fuel with
  | zero => rfl
  | succ fuel =>
    rw [Stream.pieces, Stream.read, List.take_nil]
    exact if_pos rfl

theorem Stream.pieces_flatten {n : ℕ} (hn : 0 < n) (fuel : ℕ) :
    ∀ s : Stream α, s.rest.length ≤ fuel → (s.pieces ready n fuel).flatten = s.rest := by
  induction fuel with
  | zero =>
    intro s hs
    rw [Stream.pieces, List.length_eq_zero_iff.mp (Nat.le_zero.mp hs)]
    rfl
  | succ fuel ih =>
    intro s hs
    obtain ⟨k, -, hpos, hread⟩ := s.read_eq ready n
    rw [Stream.pieces, hread]
    dsimp only
    have hk := hpos hn.ne'
    split_ifs with hnil
    · rcases List.take_eq_nil_iff.mp hnil with h | h
      · exact absurd h hk
      · rw [h]
        rfl
    · have hlen : (s.skip k).rest.length = s.rest.length - k := List.length_drop
      rw [List.flatten_cons, ih _ (by omega)]
      exact List.take_append_drop k s.rest

theorem Stream.pieces_length_le {n : ℕ} (fuel : ℕ) :
    ∀ s : Stream α, ∀ b ∈ s.pieces ready n fuel, b.length ≤ n := by
  induction fuel with
  | zero => exact fun _ _ h => absurd h List.not_mem_nil
  | succ fuel ih =>
    intro s b hb
    obtain ⟨k, hk, -, hread⟩ := s.read_eq ready n
    rw [Stream.pieces, hread] at hb
    dsimp only at hb
    split_ifs at hb
    · exact absurd hb List.not_mem_nil
    · rcases List.mem_cons.mp hb with rfl | hb
      · exact (List.length_take_le _ _).trans hk
      · exact ih _ b hb

/-- When no piece gets longer, or none gets shorter, the whole only stays the same when every
piece does. -/
theorem flatMap_eq_flatten {f : List α → List α} {pieces : List (List α)}
    (hle : (∀ b ∈ pieces, (f b).length ≤ b.length) ∨ ∀ b ∈ pieces, b.length ≤ (f b).length)
    (h : pieces.flatMap f = pieces.flatten) : ∀ b ∈ pieces, f b = b := by
  induction pieces with
  | nil => exact fun b hb => absurd hb List.not_mem_nil
  | cons b pieces ih =>
    rw [List.flatMap_cons, List.flatten_cons] at h
    have hsum := congrArg List.length h
    rw [List.length_append, List.length_append, List.length_flatMap, List.length_flatten] at hsum
    have hlen : (f b).length = b.length := by
      rcases hle with hle | hle
      · have hb := hle b List.mem_cons_self
        have hrest := List.sum_le_sum fun c hc => hle c (List.mem_cons_of_mem b hc)
        omega
      · have hb := hle b List.mem_cons_self
        have hrest := List.sum_le_sum fun c hc => hle c (List.mem_cons_of_mem b hc)
        omega
    obtain ⟨hhead, htail⟩ := List.append_inj h hlen
    have hrest := ih (hle.imp (fun hle c hc => hle c (List.mem_cons_of_mem b hc))
      fun hle c hc => hle c (List.mem_cons_of_mem b hc)) htail
    exact List.forall_mem_cons.mpr ⟨hhead, hrest⟩

end Unitas.ByteStream
