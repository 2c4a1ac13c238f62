import Mathlib.Data.List.Basic

/-! Edit scripts: hunks that replace ranges of a list, in increasing order. -/
namespace Unitas.EditScript

variable {α : Type}

/-- The elements from `start` up to `stop`, without it, give way to `added`. -/
structure Hunk (α : Type) where
  start : ℕ
  stop : ℕ
  added : List α

def Hunk.shift (k : ℕ) (h : Hunk α) : Hunk α := ⟨k + h.start, k + h.stop, h.added⟩

/-- The ranges lie between `pos` and `len`, and none begins before the one before it ends. -/
def Fits (len : ℕ) : ℕ → List (Hunk α) → Prop
  | pos, [] => pos ≤ len
  | pos, h :: hs => pos ≤ h.start ∧ h.start ≤ h.stop ∧ Fits len h.stop hs

/-- What the script makes of a list from `pos` on. -/
def apply (l : List α) : ℕ → List (Hunk α) → List α
  | pos, [] => l.drop pos
  | pos, h :: hs => (l.drop pos).take (h.start - pos) ++ h.added ++ apply l h.stop hs

theorem Fits.pos_le {len : ℕ} {hs : List (Hunk α)} : ∀ {pos : ℕ}, Fits len pos hs → pos ≤ len := by
  induction hs with
  | nil => exact fun h => h
  | cons a hs ih =>
    intro pos ⟨hpos, hle, hrest⟩
    exact Nat.le_trans (Nat.le_trans hpos hle) (ih hrest)

theorem Fits.stop_le {len : ℕ} {hs : List (Hunk α)} : ∀ {pos : ℕ}, Fits len pos hs →
    ∀ h ∈ hs, h.stop ≤ len := by
  induction hs with
  | nil => exact fun _ _ h => absurd h List.not_mem_nil
  | cons a hs ih =>
    intro pos ⟨_, _, hrest⟩
    exact List.forall_mem_cons.mpr ⟨hrest.pos_le, ih hrest⟩

theorem Fits.mono {len : ℕ} {hs : List (Hunk α)} {pos pos' : ℕ} (hpos : pos' ≤ pos)
    (h : Fits len pos hs) : Fits len pos' hs := by
  cases hs with
  | nil => exact Nat.le_trans hpos h
  | cons a hs => exact ⟨Nat.le_trans hpos h.1, h.2⟩

theorem fits_shift {k len : ℕ} (hs : List (Hunk α)) : ∀ pos,
    Fits (k + len) (k + pos) (hs.map (Hunk.shift k)) ↔ Fits len pos hs := by
  induction hs with
  | nil => exact fun pos => Nat.add_le_add_iff_left
  | cons a hs ih =>
    intro pos
    exact and_congr Nat.add_le_add_iff_left (and_congr Nat.add_le_add_iff_left (ih a.stop))

/-- A script for the first part goes before one for the rest. -/
theorem fits_append {k len : ℕ} {hs' : List (Hunk α)} (hrest : Fits len k hs')
    {hs : List (Hunk α)} : ∀ {pos : ℕ}, Fits k pos hs → Fits len pos (hs ++ hs') := by
  induction hs with
  | nil => exact fun h => hrest.mono h
  | cons a hs ih =>
    intro pos ⟨hpos, hle, h⟩
    exact ⟨hpos, hle, ih h⟩

theorem drop_length_add (l m : List α) (pos : ℕ) : (l ++ m).drop (l.length + pos) = m.drop pos := by
  rw [← List.drop_drop, List.drop_left]

theorem apply_shift (l m : List α) (hs : List (Hunk α)) : ∀ pos,
    apply (l ++ m) (l.length + pos) (hs.map (Hunk.shift l.length)) = apply m pos hs := by
  induction hs with
  | nil => exact fun pos => drop_length_add l m pos
  | cons a hs ih =>
    intro pos
    have hsub : l.length + a.start - (l.length + pos) = a.start - pos := Nat.add_sub_add_left ..
    have hrest := ih a.stop
    simp only [List.map_cons, apply, Hunk.shift, drop_length_add, hsub] at hrest ⊢
    rw [← hrest]

/-- The first part and the rest are edited on their own. -/
theorem apply_append {l m : List α} {hs' : List (Hunk α)} {hs : List (Hunk α)} :
    ∀ {pos : ℕ}, Fits l.length pos hs →
      apply (l ++ m) pos (hs ++ hs'.map (Hunk.shift l.length)) =
        apply l pos hs ++ apply m 0 hs' := by
  induction hs with
  | nil =>
    intro pos hpos
    have hdrop : (l ++ m).drop pos = l.drop pos ++ m := List.drop_append_of_le_length hpos
    cases hs' with
    | nil => exact hdrop
    | cons b hs' =>
      have hlen : l.length + b.start - pos = (l.drop pos).length + b.start := by
        have hpos' : pos ≤ l.length := hpos
        rw [List.length_drop]
        omega
      have hrest := apply_shift l m hs' b.stop
      simp only [List.nil_append, List.map_cons, apply, Hunk.shift, hdrop, hlen] at hrest ⊢
      rw [List.take_length_add_append, ← hrest]
      simp only [Nat.sub_zero, List.drop_zero, List.append_assoc]
  | cons a hs ih =>
    intro pos ⟨hpos, hle, h⟩
    have hstart : a.start ≤ l.length := Nat.le_trans hle h.pos_le
    rw [List.cons_append, apply, apply, ih h]
    rw [List.drop_append_of_le_length (Nat.le_trans hpos hstart), List.take_append_of_le_length
      (by rw [List.length_drop]; omega)]
    simp only [List.append_assoc]

end Unitas.EditScript
