import Mathlib.Data.List.Forall2
import Unitas.Newform.Lists
import Unitas.Newform.Output

/-! The tab conversions of `newform`, for the specifications that it accepts. -/
namespace Unitas.Newform

variable {tabtbl : ℕ → ℕ} {q : ℕ} {e : Stops} {a : Area} {l : Str}

/-- What the conversions should do to a line. -/
structure Converts (tabtbl : ℕ → ℕ) (q : ℕ) (e : Stops) (a : Area) (l : Str) : Prop where
  /-- Each character becomes its text, is read before it is overwritten, and no entry is read that
  is not of the list. -/
  expands : ∃ m, inputstart q a = some m ∧ Expands tabtbl q e [] (l ++ [10]) m
  /-- The text is that of the line. -/
  text : ∃ a', inputtabs tabtbl q a = some a' ∧ IsText a' (expand e (l ++ [10]))
  /-- A line without tabs comes back. -/
  restores : 9 ∉ l →
    ∃ a', inputtabs tabtbl q (outputtabs tabtbl q a) = some a' ∧ IsText a' (l ++ [10])

/-- The conversions do it for each line that fits, and for no other. -/
theorem converts_iff_fits (hat : e.At tabtbl q) (h : IsText a (l ++ [10]))
    (hlen : l.length ≤ MAXLINE) (h8 : 8 ∉ l) :
    Converts tabtbl q e a l ↔ Fits e [] (l ++ [10]) := by
  have h8' : 8 ∉ l ++ [10] := by simpa using h8
  have hlast : (l ++ [10]).getLast? ≠ some 9 := by
    rw [List.getLast?_concat]
    decide
  obtain ⟨m, hstart, hafter, htabs⟩ :
      ∃ m, inputstart q a = some m ∧ After e [] (l ++ [10]) m ∧ m.tabs = q :=
    inputstart_spec e h (by simpa using hlen)
  have hiff := expands_iff hat hafter good_start htabs h8' hlast
  constructor
  · rintro ⟨⟨m', hstart', hexp⟩, -, -⟩
    rw [hstart] at hstart'
    cases hstart'
    exact hiff.mp hexp
  · intro hfits
    have hexp := hiff.mpr hfits
    have hholds := (hexp (l ++ [10]) [] (List.append_nil _).symm).1
    have hne : expand e (l ++ [10]) ≠ [] := by
      rw [expand_concat, cell, if_neg (by decide)]
      exact List.append_ne_nil_of_right_ne_nil _ (List.cons_ne_nil _ _)
    refine ⟨⟨m, hstart, hexp⟩, inputtabs_spec h hne hstart hholds.text hholds.tlast, fun h9 => ?_⟩
    exact restores hat h hlen h8 h9

/-- The list of a specification is the one that its stops make, and the lines that are converted by
it are those that fit. -/
def ConvertsWhenFits (lines : Lines) (s : Specs) (p : Str) (k : ℕ) : Prop :=
  ∃ e : Stops, stopsOf lines p = .ok e.ns ∧
    ∀ a l, IsText a (l ++ [10]) → l.length ≤ MAXLINE → 8 ∉ l →
      (Converts s.tabtbl (s.spectbl k) e a l ↔ Fits e [] (l ++ [10]))

/-- For each of the specifications of a command line, and each line. -/
theorem converts_iff {lines : Lines} {ps : List Str} {ks : List ℕ} {s : Specs}
    (h : cnvtspecs lines ps initial = .ok (ks, s)) :
    List.Forall₂ (ConvertsWhenFits lines s) ps ks := by
  obtain ⟨lists, hlists, -, -, hall⟩ := lists_initial.cnvtspecs h
  refine hall.imp fun p k hk => ⟨lists k, hk.2, fun a l htext hlen h8 => ?_⟩
  exact converts_iff_fits (hlists.stored k hk.1) htext hlen h8

/-- A line at the beginning of the work area. -/
def area (l : Str) : Area := ⟨fun i => (l ++ [10]).getD i 0, 0, l.length⟩

theorem isText_area (l : Str) : IsText (area l) (l ++ [10]) := by
  refine ⟨fun i hi => ?_, by simp [area]⟩
  change (l ++ [10]).getD (0 + i) 0 = (l ++ [10])[i]
  rw [Nat.zero_add]
  exact List.getD_eq_getElem _ _ hi

def noLines : Lines := ⟨none, fun _ => none⟩

/-- With `-c2` and `1,3`. -/
theorem converts_iff_two :
    ∃ s, cnvtspecs noLines [[45, 99, 50], [49, 44, 51]] initial = .ok ([4, 10], s) ∧
      List.Forall₂ (ConvertsWhenFits noLines s) [[45, 99, 50], [49, 44, 51]] [4, 10] :=
  ⟨_, rfl, converts_iff rfl⟩

/-- With `-c2`, a tab after 65 characters is past the last stop: the entries of `-c3` are used. -/
theorem not_converts :
    ¬ ∀ (lines : Lines) (ps : List Str) (ks : List ℕ) (s : Specs),
      cnvtspecs lines ps initial = .ok (ks, s) →
        List.Forall₂ (fun p k => ∃ e : Stops, stopsOf lines p = .ok e.ns ∧
          ∀ a l, IsText a (l ++ [10]) → l.length ≤ MAXLINE → 8 ∉ l →
            Converts s.tabtbl (s.spectbl k) e a l) ps ks := by
  intro h
  have hall := h noLines [[45, 99, 50]] [4] initial rfl
  obtain ⟨⟨e, hstops, hconverts⟩, -⟩ := List.forall₂_cons.mp hall
  obtain rfl : e = standardStops 4 := by
    have hns : Except.ok (standard 4) = (Except.ok e.ns : Except Fault (List ℕ)) := hstops
    cases e
    cases Except.ok.inj hns
    rfl
  have htext := isText_area (List.replicate 65 97 ++ [9])
  have hlen : (List.replicate 65 (97 : UInt8) ++ [9]).length ≤ MAXLINE := by decide
  have h8 : (8 : UInt8) ∉ List.replicate 65 97 ++ [9] := by decide
  have hfits := (converts_iff_fits (standard_stored 4 (by decide)) htext hlen h8).mp
    (hconverts _ _ htext hlen h8)
  have hlast := ((hfits (List.replicate 65 97) [9, 10] rfl).2 9 [10] rfl).last (by decide +kernel)
  rcases hlast with hnil | ⟨-, h9, -⟩
  · cases hnil
  · exact h9 rfl

end Unitas.Newform
