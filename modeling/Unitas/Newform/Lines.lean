import Unitas.Newform.Input

/-! `center`, and the text that `inputtabs` makes of a line. -/
namespace Unitas.Newform

/-! ### The line is moved to its place -/

theorem moveUp_spec (pfirst n : ℕ) (w : Work) (h : pfirst ≤ NCOLS) (i : ℕ) :
    moveUp pfirst n w i = if NCOLS ≤ i ∧ i < NCOLS + n then w (pfirst + (i - NCOLS)) else w i := by
  induction n generalizing w with
  | zero =>
    rw [if_neg (by omega)]
    rfl
  | succ n ih =>
    rw [moveUp, ih]
    by_cases hin : NCOLS ≤ i ∧ i < NCOLS + n
    · -- what is still to be moved is below what has been written
      rw [if_pos hin, if_pos ⟨hin.1, by omega⟩]
      exact Function.update_of_ne (by omega) _ _
    · rw [if_neg hin]
      by_cases hat : i = NCOLS + n
      · subst hat
        rw [if_pos ⟨by omega, by omega⟩, Nat.add_sub_cancel_left]
        exact Function.update_self _ _ _
      · rw [if_neg (by omega)]
        exact Function.update_of_ne hat _ _

theorem moveDown_spec (pfirst n i : ℕ) (w : Work) (h : NCOLS ≤ pfirst) (j : ℕ) :
    moveDown pfirst n i w j =
      if NCOLS + i ≤ j ∧ j < NCOLS + i + n then w (pfirst + (j - NCOLS)) else w j := by
  induction n generalizing i w with
  | zero =>
    rw [if_neg (by omega)]
    rfl
  | succ n ih =>
    rw [moveDown, ih]
    by_cases hin : NCOLS + (i + 1) ≤ j ∧ j < NCOLS + (i + 1) + n
    · rw [if_pos hin, if_pos ⟨by omega, by omega⟩]
      exact Function.update_of_ne (by omega) _ _
    · rw [if_neg hin]
      by_cases hat : j = NCOLS + i
      · subst hat
        rw [if_pos ⟨by omega, by omega⟩, Nat.add_sub_cancel_left]
        exact Function.update_self _ _ _
      · rw [if_neg (by omega)]
        exact Function.update_of_ne hat _ _

/-- A text, from `pfirst` to `plast`. -/
structure IsText (a : Area) (l : Str) : Prop where
  text : Has a.work a.pfirst l
  plast : a.plast + 1 = a.pfirst + l.length

theorem center_spec {a : Area} {l : Str} (h : IsText a l) (hlen : l.length ≤ MAXLINE + 1) :
    ∃ w, center a = some ⟨w, NCOLS, NCOLS + l.length - 1⟩ ∧ Has w NCOLS l := by
  have hplast := h.plast
  have hn : a.plast + 1 - a.pfirst = l.length := by omega
  unfold center
  rw [if_neg (by omega)]
  dsimp only
  rw [hn]
  by_cases hlt : a.pfirst < NCOLS
  · rw [if_pos hlt]
    refine ⟨_, congrArg (fun p => some (Area.mk _ NCOLS p)) (by omega), fun i hi => ?_⟩
    rw [moveUp_spec _ _ _ hlt.le, if_pos ⟨by omega, by omega⟩, Nat.add_sub_cancel_left]
    exact h.text i hi
  · rw [if_neg hlt]
    refine ⟨_, rfl, fun i hi => ?_⟩
    rw [moveDown_spec _ _ _ _ (not_lt.mp hlt), if_pos ⟨by omega, by omega⟩,
      Nat.add_sub_cancel_left]
    exact h.text i hi

variable {tabtbl : ℕ → ℕ} {q : ℕ} {e : Stops} {pre rem : Str} {m : Mach}

theorem inputstart_spec (e : Stops) {a : Area} {l : Str} (h : IsText a l)
    (hlen : l.length ≤ MAXLINE + 1) :
    ∃ m, inputstart q a = some m ∧ After e [] l m ∧ m.tabs = q := by
  obtain ⟨w, hcenter, htext⟩ := center_spec h hlen
  refine ⟨_, congrArg (Option.map _) hcenter, ⟨rfl, rfl, rfl, has_nil _ _, fun _ => htext⟩, rfl⟩

theorem good_start : Good e [] 0 := by
  have hcol : colAfter e [] = 1 := rfl
  have hgoal : e.goal 0 = 1 := if_pos (Nat.zero_le _)
  refine ⟨Nat.zero_le _, fun j hj => absurd hj (Nat.not_lt_zero j), ?_, fun _ => ⟨rfl, rfl⟩,
    fun hlt => absurd hlt (Nat.not_lt_zero _), nofun⟩
  rw [hcol, hgoal]

/-! ### Lines with tabs before the last stop only -/

def Tabbed (e : Stops) : Str → Str → Prop
  | _, [] => True
  | pre, c :: l =>
    (c = 9 → colAfter e pre < e.goal e.size ∧ e.counted ≤ pre.length) ∧ Tabbed e (pre ++ [c]) l

theorem tabbed_append (l l' : Str) :
    Tabbed e pre (l ++ l') ↔ Tabbed e pre l ∧ Tabbed e (pre ++ l) l' := by
  induction l generalizing pre with
  | nil => simp [Tabbed]
  | cons c l ih => rw [List.cons_append, Tabbed, Tabbed, ih, List.append_assoc, and_assoc]; rfl

theorem pass_eq (m : Mach) : m.pass tabtbl = { m with tabs := (m.pass tabtbl).tabs } := by
  unfold Mach.pass
  split <;> rfl

theorem colAfter_le (e : Stops) (pre l : Str) : colAfter e pre ≤ colAfter e (pre ++ l) := by
  unfold colAfter expand
  rw [expandFrom_append, List.length_append]
  omega

/-- Past the last stop the pointer does not matter: there are no tabs. -/
theorem inputloop_tabbed (hat : e.At tabtbl q) (h : After e pre rem m)
    (hphase : (∃ t, Good e pre t ∧ m.tabs = q + t) ∨ e.goal e.size ≤ colAfter e pre)
    (htabbed : Tabbed e pre rem) (h8 : 8 ∉ rem)
    (hroom : ∀ mid rem', rem = mid ++ rem' → Room e (pre ++ mid)) :
    After e (pre ++ rem) [] (m.inputloop tabtbl rem.length) := by
  induction rem generalizing pre m with
  | nil =>
    rw [List.append_nil]
    exact h
  | cons c rem ih =>
    have hc8 : c ≠ 8 := fun hc => h8 (hc ▸ List.mem_cons_self)
    have h8' : 8 ∉ rem := fun hmem => h8 (List.mem_cons_of_mem _ hmem)
    rw [split_cons] at hroom
    obtain ⟨hnow, hroom⟩ := hroom
    rw [List.append_nil] at hnow
    have hnow' := h.room_iff.mpr hnow
    obtain ⟨htab, htabbed⟩ := htabbed
    have hstep : After e (pre ++ [c]) rem (m.inputturn tabtbl) ∧
        ((∃ t, Good e (pre ++ [c]) t ∧ (m.inputturn tabtbl).tabs = q + t) ∨
          e.goal e.size ≤ colAfter e (pre ++ [c])) := by
      rcases hphase with ⟨t, hgood, htabs⟩ | hpast
      · obtain ⟨hafter, ⟨t', hgood', htabs', -⟩ | ⟨-, hcol, -⟩⟩ :=
          turn_good hat h hgood htabs hc8 hnow' htab
        · exact ⟨hafter, .inl ⟨t', hgood', htabs'⟩⟩
        · exact ⟨hafter, .inr hcol⟩
      · have h9 : c ≠ 9 := fun h9 => absurd hpast (not_le.mpr (htab h9).1)
        refine ⟨(inputturn_char h hc8 h9 hnow' (pass_eq m)).1, .inr ?_⟩
        exact hpast.trans (colAfter_le e _ _)
    have hrest := ih hstep.1 hstep.2 htabbed h8' fun mid rem' hrem => by
      rw [List.append_assoc]
      exact hroom mid rem' hrem
    rwa [List.append_assoc] at hrest

/-- What `inputtabs` returns when the text of the line is there after the loop. -/
theorem inputtabs_spec {a : Area} {l : Str} (h : IsText a l) (hne : expand e l ≠ [])
    (hstart : inputstart q a = some m)
    (htext : Has (m.inputloop tabtbl l.length).work 0 (expand e l))
    (htlast : (m.inputloop tabtbl l.length).tlast = (expand e l).length) :
    ∃ a', inputtabs tabtbl q a = some a' ∧ IsText a' (expand e l) := by
  have hn : a.plast + 1 - a.pfirst = l.length := by
    have := h.plast
    omega
  refine ⟨_, congrArg (Option.map _) hstart, ⟨?_, ?_⟩⟩
  · simp only [hn]
    exact htext
  · have hpos := List.length_pos_iff.mpr hne
    simp only [hn]
    omega

/-- A text with tabs before the last stop only is expanded. -/
theorem inputtabs_tabbed (hat : e.At tabtbl q) {a : Area} {l : Str} (h : IsText a l)
    (hlen : l.length ≤ MAXLINE + 1) (htabbed : Tabbed e [] l) (h8 : 8 ∉ l)
    (hexp : (expand e l).length ≤ NCOLS + 1) (hne : expand e l ≠ []) :
    ∃ a', inputtabs tabtbl q a = some a' ∧ IsText a' (expand e l) := by
  obtain ⟨m, hstart, hafter, htabs⟩ := inputstart_spec e h hlen
  have hroom (mid rem' : Str) (hrem : l = mid ++ rem') : Room e ([] ++ mid) := by
    rw [List.nil_append]
    cases mid with
    | nil => exact Nat.zero_le _
    | cons c mid =>
      have hle := colAfter_le e (c :: mid) rem'
      rw [← hrem] at hle
      unfold colAfter at hle
      have hlen : (c :: mid).length = mid.length + 1 := rfl
      unfold Room
      omega
  have hend := inputloop_tabbed hat hafter (.inl ⟨0, good_start, htabs⟩) htabbed h8 hroom
  rw [List.nil_append] at hend
  exact inputtabs_spec h hne hstart hend.text hend.tlast

end Unitas.Newform
