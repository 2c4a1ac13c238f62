import Mathlib.Data.List.GetD
import Mathlib.Data.List.Induction
import Mathlib.Order.Nat
import Mathlib.Tactic.SplitIfs
import Unitas.Newform.Model

/-! What `inputtabs` should do, and when it does. -/
namespace Unitas.Newform

/-! ### Tab stops -/

/-- The stops of a list, which begins with 1: the others ascend. -/
structure Stops where
  ns : List ℕ
  pos : ∀ n ∈ ns, 0 < n
  asc : ns.Pairwise (· < ·)

namespace Stops
variable (e : Stops)

def list : List ℕ := 1 :: e.ns

/-- Where its last stop is. -/
abbrev size : ℕ := e.ns.length

/-- The entries: the stops, and zero after them. -/
def get (j : ℕ) : ℕ := e.list.getD j 0

/-- The list is in the table at `q`. -/
def At (tabtbl : ℕ → ℕ) (q : ℕ) : Prop := ∀ j ≤ e.size + 1, tabtbl (q + j) = e.get j

/-- The numbers `j`, `j + 1` and so on that a list begins with. -/
def run : ℕ → List ℕ → ℕ
  | _, [] => 0
  | j, n :: ns => if n = j then run (j + 1) ns + 1 else 0

/-- The stops after the first one that count columns from 1 on. -/
def counted : ℕ := run 1 e.ns

/-- The column at which the `j`-th entry has been passed. -/
def goal (j : ℕ) : ℕ := if j ≤ e.counted then j + 1 else e.get j

end Stops

/-- The next stop after a column. -/
def Stops.next (e : Stops) (col : ℕ) : Option ℕ := e.list.find? (col < ·)

/-- What a character at a column becomes. -/
def cell (e : Stops) (col : ℕ) (c : UInt8) : Str :=
  if c = 9 then
    match e.next col with
    | some n => List.replicate (n - col) 32
    | none => []
  else [c]

/-- The text of a line from a column on. -/
def expandFrom (e : Stops) : ℕ → Str → Str
  | _, [] => []
  | col, c :: l => cell e col c ++ expandFrom e (col + (cell e col c).length) l

def expand (e : Stops) (l : Str) : Str := expandFrom e 1 l

/-- The column after some characters. -/
def colAfter (e : Stops) (l : Str) : ℕ := 1 + (expand e l).length

theorem expandFrom_append (e : Stops) (col : ℕ) (l l' : Str) :
    expandFrom e col (l ++ l') =
      expandFrom e col l ++ expandFrom e (col + (expandFrom e col l).length) l' := by
  induction l generalizing col with
  | nil => simp [expandFrom]
  | cons c l ih =>
    rw [List.cons_append, expandFrom, ih, expandFrom, List.append_assoc, List.length_append,
      Nat.add_assoc]

theorem expand_concat (e : Stops) (l : Str) (c : UInt8) :
    expand e (l ++ [c]) = expand e l ++ cell e (colAfter e l) c := by
  unfold expand
  rw [expandFrom_append]
  simp [expandFrom, colAfter, expand]

theorem colAfter_concat (e : Stops) (l : Str) (c : UInt8) :
    colAfter e (l ++ [c]) = colAfter e l + (cell e (colAfter e l) c).length := by
  unfold colAfter
  rw [expand_concat, List.length_append, Nat.add_assoc]
  rfl

namespace Stops
variable {e : Stops}

theorem get_zero : e.get 0 = 1 := rfl

theorem get_end : e.get (e.size + 1) = 0 := by
  simp [get, list, size]

theorem get_succ {j : ℕ} (hj : j < e.size) : e.get (j + 1) = e.ns[j] := by
  simp [get, list, size] at hj ⊢
  rw [List.getElem?_eq_getElem hj]
  rfl

theorem get_lt {i j : ℕ} (hi : 0 < i) (hij : i < j) (hj : j ≤ e.size) : e.get i < e.get j := by
  obtain ⟨i, rfl⟩ := Nat.exists_eq_succ_of_ne_zero (Nat.ne_of_gt hi)
  have hpos : j ≠ 0 := Nat.ne_of_gt (hi.trans hij)
  obtain ⟨j, rfl⟩ := Nat.exists_eq_succ_of_ne_zero hpos
  rw [Nat.succ_eq_add_one, Nat.succ_eq_add_one, get_succ (by omega), get_succ (by omega)]
  exact List.pairwise_iff_getElem.mp e.asc i j _ _ (by omega)

theorem run_spec (j : ℕ) (ns : List ℕ) :
    run j ns ≤ ns.length ∧ (∀ i < run j ns, ∀ h' : i < ns.length, ns[i] = j + i) ∧
      ∀ h : run j ns < ns.length, ns[run j ns] ≠ j + run j ns := by
  induction ns generalizing j with
  | nil => simp [run]
  | cons n ns ih =>
    rw [run]
    split_ifs with hn
    · obtain ⟨hle, hbelow, hat⟩ := ih (j + 1)
      refine ⟨by simpa using hle, fun i h h' => ?_, fun h => ?_⟩
      · cases i with
        | zero => simpa using hn
        | succ i =>
          have := hbelow i (by omega) (by simpa using h')
          simp only [List.getElem_cons_succ]
          omega
      · have := hat (by simpa using h)
        simp only [List.getElem_cons_succ]
        omega
    · exact ⟨Nat.zero_le _, fun i h => absurd h (Nat.not_lt_zero i), fun _ => by simpa using hn⟩

theorem counted_le : e.counted ≤ e.size := (run_spec 1 e.ns).1

theorem get_counted {j : ℕ} (hj : 0 < j) (hle : j ≤ e.counted) : e.get j = j := by
  obtain ⟨i, rfl⟩ := Nat.exists_eq_succ_of_ne_zero (Nat.ne_of_gt hj)
  have hsize := @counted_le e
  have hget := (run_spec 1 e.ns).2.1 i hle (Nat.lt_of_lt_of_le hle hsize)
  exact (get_succ (Nat.lt_of_lt_of_le hle hsize)).trans (hget.trans (Nat.add_comm 1 i))

/-- After the stops that count columns there is a gap. -/
theorem get_after_counted (h : e.counted < e.size) : e.counted + 1 < e.get (e.counted + 1) := by
  have hne : e.ns[e.counted] ≠ 1 + e.counted := (run_spec 1 e.ns).2.2 h
  have hget : e.get (e.counted + 1) = e.ns[e.counted] := get_succ h
  have hpos := e.pos e.ns[e.counted] (List.getElem_mem h)
  by_cases h0 : e.counted = 0
  · omega
  · have hlt := get_lt (e := e) (Nat.pos_of_ne_zero h0) (Nat.lt_succ_self e.counted) h
    have hself := get_counted (e := e) (Nat.pos_of_ne_zero h0) le_rfl
    rw [Nat.succ_eq_add_one, hget, hself] at hlt
    rw [hget]
    omega

theorem goal_lt {j : ℕ} (hj : j < e.size) : e.goal j < e.goal (j + 1) := by
  unfold goal
  split_ifs with h h'
  · omega
  · obtain rfl : j = e.counted := by omega
    exact get_after_counted hj
  · omega
  · exact get_lt (by omega) (Nat.lt_succ_self j) hj

theorem goal_lt_of_lt {i j : ℕ} (hij : i < j) (hj : j ≤ e.size) : e.goal i < e.goal j := by
  induction j with
  | zero => omega
  | succ j ih =>
    have hstep := goal_lt (e := e) (show j < e.size by omega)
    rcases Nat.lt_succ_iff_lt_or_eq.mp hij with h | rfl
    · exact (ih h (by omega)).trans hstep
    · exact hstep

theorem goal_le {j : ℕ} (hj : j ≤ e.size) : e.goal j ≤ e.goal e.size := by
  rcases Nat.lt_or_eq_of_le hj with hlt | rfl
  · exact (goal_lt_of_lt hlt le_rfl).le
  · exact le_rfl

theorem get_le_goal (j : ℕ) : e.get j ≤ e.goal j := by
  unfold goal
  split_ifs with h
  · cases j with
    | zero => exact le_rfl
    | succ j => rw [get_counted (Nat.succ_pos j) h]; omega
  · exact le_rfl

/-- The next stop is the first entry beyond the column. -/
theorem next_eq_some {col t : ℕ} (ht : t ≤ e.size) (hbelow : ∀ j < t, e.get j ≤ col)
    (hlt : col < e.get t) : e.next col = some (e.get t) := by
  have hlen : t < e.list.length := Nat.lt_succ_of_le ht
  have hget (j : ℕ) (hj : j < e.list.length) : e.list[j] = e.get j := by
    rw [get, List.getD_eq_getElem _ _ hj]
  refine List.find?_eq_some_iff_getElem.mpr ⟨by simpa using hlt, t, hlen, hget t hlen, ?_⟩
  intro j hj
  have hle := hbelow j hj
  rw [← hget j (hj.trans hlen)] at hle
  simpa using hle

theorem next_eq_none {col : ℕ} (h : ∀ j ≤ e.size, e.get j ≤ col) : e.next col = none := by
  refine List.find?_eq_none.mpr fun n hn => ?_
  obtain ⟨j, hj, rfl⟩ := List.getElem_of_mem hn
  have := h j (Nat.le_of_lt_succ hj)
  rw [get, List.getD_eq_getElem _ _ hj] at this
  simpa using this

end Stops

/-! ### The work area -/

/-- There is a text at an address. -/
def Has (w : Work) (p : ℕ) (l : Str) : Prop := ∀ i (h : i < l.length), w (p + i) = l[i]

theorem has_nil (w : Work) (p : ℕ) : Has w p [] := fun _ h => absurd h (Nat.not_lt_zero _)

theorem has_cons {w : Work} {p : ℕ} {c : UInt8} {l : Str} :
    Has w p (c :: l) ↔ w p = c ∧ Has w (p + 1) l := by
  constructor
  · intro h
    refine ⟨h 0 (Nat.succ_pos _), fun i hi => ?_⟩
    rw [Nat.add_assoc, Nat.add_comm 1]
    exact h (i + 1) (Nat.succ_lt_succ hi)
  · rintro ⟨h0, h⟩ i hi
    cases i with
    | zero => exact h0
    | succ i =>
      have hadd : p + (i + 1) = p + 1 + i := by omega
      exact (congrArg w hadd).trans (h i (Nat.lt_of_succ_lt_succ hi))

theorem has_append {w : Work} {p : ℕ} {l l' : Str} :
    Has w p (l ++ l') ↔ Has w p l ∧ Has w (p + l.length) l' := by
  induction l generalizing p with
  | nil => simp [has_nil]
  | cons c l ih => rw [List.cons_append, has_cons, has_cons, ih, and_assoc, List.length_cons,
      Nat.add_assoc, Nat.add_comm 1]

theorem Has.stored {w : Work} {p q : ℕ} {l : Str} (h : Has w p l) (c : UInt8)
    (hq : q < p ∨ p + l.length ≤ q) : Has (store w q c) p l := by
  intro i hi
  rw [store, Function.update_of_ne (by omega)]
  exact h i hi

theorem Has.concat {w : Work} {p : ℕ} {l : Str} (h : Has w p l) (c : UInt8) :
    Has (store w (p + l.length) c) p (l ++ [c]) := by
  refine has_append.mpr ⟨h.stored c (.inr le_rfl), has_cons.mpr ⟨?_, has_nil _ _⟩⟩
  exact Function.update_self _ _ _

/-- What `pad` does: the blanks, and nothing to what is not at its place. -/
theorem pad_spec (n : ℕ) (m : Mach) :
    (m.pad n).pfirst = m.pfirst ∧ (m.pad n).tabs = m.tabs ∧ (m.pad n).tlast = m.tlast + n ∧
      (m.pad n).logcol = m.logcol + n ∧
      (∀ p l, Has m.work p l → p + l.length = m.tlast →
        Has (m.pad n).work p (l ++ List.replicate n 32)) ∧
      ∀ p l, Has m.work p l → m.tlast + n ≤ p → Has (m.pad n).work p l := by
  induction n generalizing m with
  | zero => exact ⟨rfl, rfl, rfl, rfl, fun p l h _ => by simpa [Mach.pad] using h, fun _ _ h _ => h⟩
  | succ n ih =>
    obtain ⟨hpf, htabs, htlast, hlog, htext, hleft⟩ :=
      ih { m.put 32 with logcol := m.logcol + 1 }
    refine ⟨hpf, htabs, ?_, ?_, fun p l h heq => ?_, fun p l h hle => ?_⟩
    · exact htlast.trans (by simp only [Mach.put]; omega)
    · exact hlog.trans (by simp only; omega)
    · have hput : Has (store m.work m.tlast 32) p (l ++ [32]) := by
        rw [← heq]
        exact h.concat 32
      have := htext p (l ++ [32]) hput (by simp [Mach.put]; omega)
      rwa [List.append_assoc, List.singleton_append, ← List.replicate_succ] at this
    · exact hleft p l (h.stored 32 (.inl (by omega))) (by simp only [Mach.put]; omega)

end Unitas.Newform
