import Unitas.Sdiff.Walk
import Unitas.Lib.Lines

/-! What `sdiff` shows for two files and a diff of them. -/
namespace Unitas.Sdiff
open Unitas.Decimal Unitas.Lines

/-! ### Hunks -/

/-- The rows of a change: pairs as long as there are lines on both sides. -/
def changeRows (old new : List Line) : List Row :=
  (old.zip new).map (fun p => ⟨some p.1, some p.2, 124⟩) ++
    (old.drop new.length).map (fun l => ⟨some l, none, 60⟩) ++
    (new.drop old.length).map fun r => ⟨none, some r, 62⟩

def commonRows (common : List (Line × Line)) : List Row :=
  common.map fun p => ⟨some p.1, some p.2, 32⟩

def Hunk.rows (h : Hunk) : List Row := commonRows h.common ++ changeRows h.old h.new

theorem zip_fst (ls rs : List Line) :
    (ls.zip rs).map Prod.fst ++ ls.drop rs.length = ls := by
  induction ls generalizing rs with
  | nil => simp
  | cons l ls ih =>
    cases rs with
    | nil => rfl
    | cons r rs => simpa using ih rs

theorem zip_snd (ls rs : List Line) :
    (ls.zip rs).map Prod.snd ++ rs.drop ls.length = rs := by
  induction ls generalizing rs with
  | nil => simp
  | cons l ls ih =>
    cases rs with
    | nil => rfl
    | cons r rs => simpa using ih rs

theorem lines2_left_only (ls : List Line) (mark : UInt8) :
    lines2 (ls.map fun l => ⟨some l, none, mark⟩) = [] := by
  simp [lines2]

theorem lines1_append (rows rows' : List Row) :
    lines1 (rows ++ rows') = lines1 rows ++ lines1 rows' := List.filterMap_append

theorem lines2_append (rows rows' : List Row) :
    lines2 (rows ++ rows') = lines2 rows ++ lines2 rows' := List.filterMap_append

theorem lines1_right_only (ls : List Line) (mark : UInt8) :
    lines1 (ls.map fun l => ⟨none, some l, mark⟩) = [] := by
  simp [lines1]

theorem lines1_left (ls : List Line) (mark : UInt8) :
    (lines1 (ls.map fun l => ⟨some l, none, mark⟩)).map Prod.fst = ls := by
  simp [lines1, Function.comp_def]

theorem lines2_right (ls : List Line) (mark : UInt8) :
    (lines2 (ls.map fun l => ⟨none, some l, mark⟩)).map Prod.fst = ls := by
  simp [lines2, Function.comp_def]

theorem lines1_pairs (ps : List (Line × Line)) (mark : UInt8) :
    (lines1 (ps.map fun p => ⟨some p.1, some p.2, mark⟩)).map Prod.fst = ps.map Prod.fst := by
  simp [lines1, Function.comp_def]

theorem lines2_pairs (ps : List (Line × Line)) (mark : UInt8) :
    (lines2 (ps.map fun p => ⟨some p.1, some p.2, mark⟩)).map Prod.fst = ps.map Prod.snd := by
  simp [lines2, Function.comp_def]

theorem lines1_changeRows (old new : List Line) :
    (lines1 (changeRows old new)).map Prod.fst = old := by
  unfold changeRows
  rw [lines1_append, lines1_append, lines1_right_only, List.append_nil, List.map_append,
    lines1_pairs, lines1_left, zip_fst]

theorem lines2_changeRows (old new : List Line) :
    (lines2 (changeRows old new)).map Prod.fst = new := by
  unfold changeRows
  rw [lines2_append, lines2_append, lines2_left_only, List.append_nil, List.map_append,
    lines2_pairs, lines2_right, zip_snd]

theorem Hunk.lines1_rows (h : Hunk) : (Sdiff.lines1 h.rows).map Prod.fst = h.lines1 := by
  unfold Hunk.rows Hunk.lines1
  rw [lines1_append, List.map_append, commonRows, lines1_pairs, lines1_changeRows]

theorem Hunk.lines2_rows (h : Hunk) : (Sdiff.lines2 h.rows).map Prod.fst = h.lines2 := by
  unfold Hunk.rows Hunk.lines2
  rw [lines2_append, List.map_append, commonRows, lines2_pairs, lines2_changeRows]

section Walk

variable (hlen : ℕ)

/-- The walk through the lines before a change. -/
theorem catch_up {h : Hunk} {s : State} {ls1 ls2 : List Line}
    (hat : At s (h.lines1 ++ ls1) (h.lines2 ++ ls2)) (hc : s.change = 32)
    (hfirst : s.len1 = 0 ∨ h.common ≠ []) :
    let s' := both hlen h.common.length { s with rcode := 1 }
    At s' (h.old ++ ls1) (h.new ++ ls2) ∧ Wrote hlen [] s s' (commonRows h.common) ∧ s'.len1 = 0 ∧
      s'.num1 = s.num1 + h.common.length ∧ s'.num2 = s.num2 + h.common.length := by
  have hat' : At { s with rcode := 1 } (h.common.map Prod.fst ++ (h.old ++ ls1))
      (h.common.map Prod.snd ++ (h.new ++ ls2)) := by
    have h1 := hat.fdes1
    have h2 := hat.fdes2
    have p1 := hat.plain1
    have p2 := hat.plain2
    unfold Hunk.lines1 at h1 p1
    unfold Hunk.lines2 at h2 p2
    rw [List.append_assoc] at h1 h2 p1 p2
    exact ⟨h1, h2, hat.blen, hat.midflg, p1, p2⟩
  obtain ⟨hat'', hw, -, hlen1⟩ := both_eq hlen h.common hat'
  have hrows : (h.common.map fun p => (⟨some p.1, some p.2, s.change⟩ : Row)) =
      commonRows h.common := by
    unfold commonRows
    rw [hc]
  have hw' : Wrote hlen [] s (both hlen h.common.length { s with rcode := 1 })
      (commonRows h.common) := by
    rw [← hrows]
    exact ⟨hw.diffdes, hw.stdout, hw.log1, hw.log2, hw.num1, hw.num2, hw.grown⟩
  have hnum1 : (lines1 (commonRows h.common)).length = h.common.length := by
    simp [lines1, commonRows]
  have hnum2 : (lines2 (commonRows h.common)).length = h.common.length := by
    simp [lines2, commonRows]
  exact ⟨hat'', hw', hlen1 hfirst, by rw [hw'.num1, hnum1], by rw [hw'.num2, hnum2]⟩

/-- The rows of a change are written from where its first lines are. -/
theorem change_eq {old new : List Line} {s : State} {ls1 ls2 : List Line}
    (hat : At s (old ++ ls1) (new ++ ls2)) (hlen1 : s.len1 = 0) :
    ∃ s', ((lefts hlen (s.num1 + old.length -
        (both hlen (min old.length new.length) { s with change := 124 }).num1)
          { both hlen (min old.length new.length) { s with change := 124 } with change := 60 }).bind
        fun t => rights hlen (s.num2 + new.length - t.num2) { t with change := 62 }) = some s' ∧
      At s' ls1 ls2 ∧ Wrote hlen [] s s' (changeRows old new) := by
  have hat' : At { s with change := 124 }
      ((old.zip new).map Prod.fst ++ (old.drop new.length ++ ls1))
      ((old.zip new).map Prod.snd ++ (new.drop old.length ++ ls2)) := by
    rw [← List.append_assoc, ← List.append_assoc, zip_fst, zip_snd]
    exact ⟨hat.fdes1, hat.fdes2, hat.blen, hat.midflg, hat.plain1, hat.plain2⟩
  have hlenzip : (old.zip new).length = min old.length new.length := List.length_zip
  obtain ⟨hat1, hw1, -, hl1⟩ := both_eq hlen (old.zip new) hat'
  rw [hlenzip] at hat1 hw1 hl1
  generalize both hlen (min old.length new.length) { s with change := 124 } = t at hat1 hw1 hl1 ⊢
  have ht1 : t.num1 = s.num1 + min old.length new.length := by
    have h := hw1.num1
    simpa [lines1, hlenzip] using h
  have ht2 : t.num2 = s.num2 + min old.length new.length := by
    have h := hw1.num2
    simpa [lines2, hlenzip] using h
  have hcount1 : s.num1 + old.length - t.num1 = (old.drop new.length).length := by
    rw [ht1, List.length_drop]
    omega
  rw [hcount1]
  have hat1' : At { t with change := 60 } (old.drop new.length ++ ls1)
      (new.drop old.length ++ ls2) :=
    ⟨hat1.fdes1, hat1.fdes2, hat1.blen, hat1.midflg, hat1.plain1, hat1.plain2⟩
  obtain ⟨u, hu, hat2, hw2, hl2⟩ := lefts_eq hlen (old.drop new.length) hat1'
    (by change (60 : UInt8) ≠ 32; decide)
  rw [hu, Option.bind_some]
  have hu2 : u.num2 = t.num2 := by
    have h := hw2.num2
    rwa [lines2_left_only] at h
  have hcount2 : s.num2 + new.length - u.num2 = (new.drop old.length).length := by
    rw [hu2, ht2, List.length_drop]
    omega
  rw [hcount2]
  have hat2' : At { u with change := 62 } ls1 (new.drop old.length ++ ls2) :=
    ⟨hat2.fdes1, hat2.fdes2, hat2.blen, hat2.midflg, hat2.plain1, hat2.plain2⟩
  have hclean : ({ u with change := 62 } : State).len1 = 0 ∨ new.drop old.length = [] := by
    rcases le_total new.length old.length with hle | hle
    · exact Or.inr (List.drop_eq_nil_of_le hle)
    · have h0 := hl2 (List.drop_eq_nil_of_le hle)
      exact Or.inl (h0.trans (hl1 (Or.inl hlen1)))
  obtain ⟨s', hs', hat3, hw3⟩ := rights_eq hlen (new.drop old.length) hat2'
    (by change (62 : UInt8) ≠ 32; decide) hclean
  refine ⟨s', hs', hat3, ?_⟩
  have hw1' : Wrote hlen [] s t ((old.zip new).map fun p => ⟨some p.1, some p.2, 124⟩) :=
    ⟨hw1.diffdes, hw1.stdout, hw1.log1, hw1.log2, hw1.num1, hw1.num2, hw1.grown⟩
  have hw2' : Wrote hlen [] t u ((old.drop new.length).map fun l => ⟨some l, none, 60⟩) :=
    ⟨hw2.diffdes, hw2.stdout, hw2.log1, hw2.log2, hw2.num1, hw2.num2, hw2.grown⟩
  have hw3' : Wrote hlen [] u s' ((new.drop old.length).map fun r => ⟨none, some r, 62⟩) :=
    ⟨hw3.diffdes, hw3.stdout, hw3.log1, hw3.log2, hw3.num1, hw3.num2, hw3.grown⟩
  exact (hw1'.trans hw2').trans hw3'

theorem hunk_eq {h : Hunk} {s : State} {ls1 ls2 : List Line}
    (hat : At s (h.lines1 ++ ls1) (h.lines2 ++ ls2)) (hc : s.change = 32)
    (hne : h.old ≠ [] ∨ h.new ≠ []) (hfirst : s.len1 = 0 ∨ h.common ≠ []) :
    ∃ s', hunk hlen ⟨h.com, lo (s.num1 + h.common.length) h.old.length,
        s.num1 + h.common.length + h.old.length, lo (s.num2 + h.common.length) h.new.length,
        s.num2 + h.common.length + h.new.length⟩ s = some s' ∧
      At s' ls1 ls2 ∧ Wrote hlen [] s s' h.rows := by
  obtain ⟨hat1, hw1, hlen1, hnum1, hnum2⟩ := catch_up hlen hat hc hfirst
  have hcatch : (let n1 : ℤ := ((lo (s.num1 + h.common.length) h.old.length : ℕ) : ℤ) - s.num1
      let n2 : ℤ := ((lo (s.num2 + h.common.length) h.new.length : ℕ) : ℤ) - s.num2
      let n := if n1 > n2 then n2 else n1
      if h.com = 99 ∧ n > 0 then n - 1 else n).toNat = h.common.length := by
    have hold : h.old.length = 0 ↔ h.old = [] := List.length_eq_zero_iff
    have hnew : h.new.length = 0 ↔ h.new = [] := List.length_eq_zero_iff
    have hmore (k : ℕ) : ((k + h.common.length + 1 : ℕ) : ℤ) - k = h.common.length + 1 := by
      push_cast
      ring
    have hsame (k : ℕ) : ((k + h.common.length : ℕ) : ℤ) - k = h.common.length := by
      push_cast
      ring
    unfold Hunk.com lo
    simp only [hold, hnew]
    by_cases ho : h.old = []
    · have hn := hne.resolve_left (fun e => e ho)
      simp only [ho, hn, if_true, if_false, hmore, hsame]
      rw [if_neg (by simp), if_neg (by omega), Int.toNat_natCast]
    · by_cases hn : h.new = []
      · simp only [ho, hn, if_true, if_false, hmore, hsame]
        rw [if_neg (by simp), if_pos (by omega), Int.toNat_natCast]
      · simp only [ho, hn, if_false, hmore]
        rw [if_pos ⟨trivial, by omega⟩, if_neg (by omega), Int.add_sub_cancel, Int.toNat_natCast]
  unfold hunk
  dsimp only at hcatch ⊢
  rw [hcatch]
  generalize both hlen h.common.length { s with rcode := 1 } = t at hat1 hw1 hlen1 hnum1 hnum2 ⊢
  rw [← hnum1, ← hnum2]
  unfold Hunk.com
  by_cases ho : h.old = []
  · have hn := hne.resolve_left (fun e => e ho)
    rw [if_pos ho, if_pos rfl, Nat.add_sub_cancel_left]
    have hat' : At { t with change := 62 } ls1 (h.new ++ ls2) := by
      have h1 := hat1.fdes1
      have p1 := hat1.plain1
      rw [ho] at h1 p1
      exact ⟨h1, hat1.fdes2, hat1.blen, hat1.midflg, p1, hat1.plain2⟩
    obtain ⟨s', hs', hat2, hw2⟩ := rights_eq hlen h.new hat'
      (by change (62 : UInt8) ≠ 32; decide) (Or.inl hlen1)
    refine ⟨s', hs', hat2, ?_⟩
    have hw2' : Wrote hlen [] t s' (changeRows h.old h.new) := by
      rw [ho]
      simpa [changeRows] using
        (⟨hw2.diffdes, hw2.stdout, hw2.log1, hw2.log2, hw2.num1, hw2.num2, hw2.grown⟩ :
          Wrote hlen [] t s' (h.new.map fun r => ⟨none, some r, 62⟩))
    exact hw1.trans hw2'
  · rw [if_neg ho]
    by_cases hn : h.new = []
    · rw [if_pos hn, if_neg (by decide), if_pos rfl, Nat.add_sub_cancel_left]
      have hat' : At { t with change := 60 } (h.old ++ ls1) ls2 := by
        have h2 := hat1.fdes2
        have p2 := hat1.plain2
        rw [hn] at h2 p2
        exact ⟨hat1.fdes1, h2, hat1.blen, hat1.midflg, hat1.plain1, p2⟩
      obtain ⟨s', hs', hat2, hw2, -⟩ := lefts_eq hlen h.old hat'
        (by change (60 : UInt8) ≠ 32; decide)
      refine ⟨s', hs', hat2, ?_⟩
      have hw2' : Wrote hlen [] t s' (changeRows h.old h.new) := by
        rw [hn]
        simpa [changeRows] using
          (⟨hw2.diffdes, hw2.stdout, hw2.log1, hw2.log2, hw2.num1, hw2.num2, hw2.grown⟩ :
            Wrote hlen [] t s' (h.old.map fun l => ⟨some l, none, 60⟩))
      exact hw1.trans hw2'
    · rw [if_neg hn, if_neg (by decide), if_neg (by decide), if_pos rfl]
      have hturns : min (t.num1 + h.old.length - lo t.num1 h.old.length)
          (t.num2 + h.new.length - lo t.num2 h.new.length) + 1 =
          min h.old.length h.new.length := by
        have h1 := List.length_pos_iff.mpr ho
        have h2 := List.length_pos_iff.mpr hn
        unfold lo
        rw [if_neg (by omega), if_neg (by omega)]
        omega
      rw [hturns]
      obtain ⟨s', hs', hat2, hw2⟩ := change_eq hlen hat1 hlen1
      exact ⟨s', hs', hat2, hw1.trans hw2⟩

theorem not_mem_rangeText (a n : ℕ) : 10 ∉ rangeText a n := by
  have hdec (m : ℕ) : 10 ∉ decimal m := fun h => absurd (decimal_isDigit m 10 h) (by decide)
  unfold rangeText
  split_ifs
  · exact hdec a
  · exact hdec _
  · simp [hdec]

theorem not_mem_header (h : Hunk) (a1 a2 : ℕ) : 10 ∉ h.header a1 a2 := by
  have hcom : 10 ≠ h.com := by
    rcases h.com_cases with e | e | e <;> rw [e] <;> decide
  unfold Hunk.header
  simp [not_mem_rangeText, hcom]

theorem not_mem_body {h : Hunk} (h1 : ∀ l ∈ h.old, Plain l) (h2 : ∀ l ∈ h.new, Plain l) :
    ∀ l ∈ h.body, 10 ∉ l := by
  intro l hl
  unfold Hunk.body at hl
  rcases List.mem_append.mp hl with hl | hl
  · rcases List.mem_append.mp hl with hl | hl
    · obtain ⟨m, hm, rfl⟩ := List.mem_map.mp hl
      simp [(h1 m hm).no_newline]
    · split_ifs at hl
      · rw [List.mem_singleton.mp hl]
        decide
      · simp at hl
  · obtain ⟨m, hm, rfl⟩ := List.mem_map.mp hl
    simp [(h2 m hm).no_newline]

/-- The lines of a hunk after its command are passed over. -/
theorem skip_body {h : Hunk} {body more : List Line} (hbody : ∀ l ∈ body, l ∈ h.body ∧ 10 ∉ l)
    {s : State} (hd : s.diffdes = Sdiff.text (body ++ more)) (hblen : 2 ≤ s.blen) {fuel : ℕ}
    (hfuel : s.diffdes.length < fuel) (hc : body = [] → s.change = 32) :
    ∃ fuel' blen, (Sdiff.text more).length < fuel' ∧ 2 ≤ blen ∧ Grown s.blen blen body ∧
      loop hlen fuel s =
        loop hlen fuel' { s with diffdes := Sdiff.text more, blen := blen, change := 32 } := by
  induction body generalizing s fuel with
  | nil =>
    refine ⟨fuel, s.blen, ?_, hblen, .refl s.blen, ?_⟩
    · rw [hd] at hfuel
      exact hfuel
    · have hd' : s.diffdes = Sdiff.text more := hd
      rw [← hd', ← hc rfl]
  | cons l body ih =>
    obtain ⟨⟨hl, hl10⟩, hbody'⟩ := List.forall_mem_cons.mp hbody
    have hd' : s.diffdes = l ++ [10] ++ Sdiff.text (body ++ more) := hd
    obtain ⟨b, hb, hg, hget⟩ := fgetline_line hblen hl10 (Sdiff.text (body ++ more))
    obtain ⟨fuel, rfl⟩ : ∃ k, fuel = k + 1 := ⟨fuel - 1, by omega⟩
    have hless : (Sdiff.text (body ++ more)).length < fuel := by
      rw [hd'] at hfuel
      simp at hfuel
      omega
    obtain ⟨fuel', blen, hf, hbl, hgrown, heq⟩ := ih hbody'
      (s := { s with diffdes := Sdiff.text (body ++ more), blen := b, change := 32 })
      rfl hb hless (fun _ => rfl)
    refine ⟨fuel', blen, hf, hbl, hg.trans hgrown, ?_⟩
    rw [loop, hd', hget]
    dsimp only
    rw [cmd_body hl]
    exact heq

theorem loop_eq (hunks : List Hunk) {s : State} {ls1 ls2 : List Line}
    (hat : At s (hunks.flatMap Hunk.lines1 ++ ls1) (hunks.flatMap Hunk.lines2 ++ ls2))
    (hd : s.diffdes = Sdiff.text (diffLines s.num1 s.num2 hunks)) (hc : s.change = 32)
    (hne : ∀ h ∈ hunks, h.old ≠ [] ∨ h.new ≠ [])
    (hfirst : s.len1 = 0 ∨ ∀ h ∈ hunks.head?, h.common ≠ [])
    (hsep : ∀ h ∈ hunks.tail, h.common ≠ []) {fuel : ℕ} (hfuel : s.diffdes.length < fuel) :
    ∃ s', loop hlen fuel s = some s' ∧ At s' ls1 ls2 ∧
      Wrote hlen (diffLines s.num1 s.num2 hunks) { s with diffdes := [] } s'
        (hunks.flatMap Hunk.rows) ∧ s'.change = 32 := by
  induction hunks generalizing s fuel with
  | nil =>
    obtain ⟨fuel, rfl⟩ : ∃ k, fuel = k + 1 := ⟨fuel - 1, by omega⟩
    have hnil : s.diffdes = [] := hd
    have hs : ({ s with diffdes := [] } : State) = s := by rw [← hnil]
    refine ⟨s, ?_, hat, ?_, hc⟩
    · rw [loop, hnil]
      rfl
    · rw [hs]
      exact .refl s
  | cons h hs ih =>
    rw [List.flatMap_cons, List.flatMap_cons, List.append_assoc, List.append_assoc] at hat
    have hp1 : ∀ l ∈ h.old, Plain l := fun l hl =>
      hat.plain1 l (List.mem_append_left _ (List.mem_append_right _ hl))
    have hp2 : ∀ l ∈ h.new, Plain l := fun l hl =>
      hat.plain2 l (List.mem_append_left _ (List.mem_append_right _ hl))
    have hd' : s.diffdes = h.header (s.num1 + h.common.length) (s.num2 + h.common.length) ++ [10] ++
        Sdiff.text (h.body ++ diffLines (s.num1 + h.lines1.length) (s.num2 + h.lines2.length) hs) :=
      hd
    obtain ⟨b, hb, hg, hget⟩ := fgetline_line hat.blen
      (not_mem_header h (s.num1 + h.common.length) (s.num2 + h.common.length))
      (Sdiff.text (h.body ++ diffLines (s.num1 + h.lines1.length) (s.num2 + h.lines2.length) hs))
    obtain ⟨fuel, rfl⟩ : ∃ k, fuel = k + 1 := ⟨fuel - 1, by omega⟩
    have hless : (Sdiff.text (h.body ++ diffLines (s.num1 + h.lines1.length)
        (s.num2 + h.lines2.length) hs)).length < fuel := by
      rw [hd'] at hfuel
      simp at hfuel
      omega
    rw [loop, hd', hget]
    dsimp only
    rw [cmd_header]
    dsimp only
    generalize hmore : Sdiff.text (h.body ++ diffLines (s.num1 + h.lines1.length)
      (s.num2 + h.lines2.length) hs) = more at hless ⊢
    have hat0 : At { s with diffdes := more, blen := b, change := 32 }
        (h.lines1 ++ (hs.flatMap Hunk.lines1 ++ ls1)) (h.lines2 ++ (hs.flatMap Hunk.lines2 ++ ls2)) :=
      ⟨hat.fdes1, hat.fdes2, hb, hat.midflg, hat.plain1, hat.plain2⟩
    have hfirst' : s.len1 = 0 ∨ h.common ≠ [] := by
      rcases hfirst with h0 | h0
      · exact Or.inl h0
      · exact Or.inr (h0 h rfl)
    obtain ⟨t, ht, hat1, hw1⟩ := hunk_eq hlen hat0 rfl (hne h (by simp)) hfirst'
    dsimp only at ht
    rw [ht, Option.bind_some]
    have hrows1 : (lines1 h.rows).length = h.lines1.length := by
      rw [← h.lines1_rows, List.length_map]
    have hrows2 : (lines2 h.rows).length = h.lines2.length := by
      rw [← h.lines2_rows, List.length_map]
    have hn1 : t.num1 = s.num1 + h.lines1.length := by
      rw [hw1.num1, hrows1]
    have hn2 : t.num2 = s.num2 + h.lines2.length := by
      rw [hw1.num2, hrows2]
    have htd : t.diffdes = more := hw1.diffdes
    have hbodyne : h.body ≠ [] := by
      unfold Hunk.body
      rcases hne h (by simp) with ho | hn
      · simp [ho]
      · simp [hn]
    obtain ⟨fuel', blen, hf, hbl, hgrown, heq⟩ := skip_body hlen (s := t)
      (fun l hl => ⟨hl, not_mem_body hp1 hp2 l hl⟩) (htd.trans hmore.symm) hat1.blen
      (by rw [htd]; exact hless) (fun e => absurd e hbodyne)
    rw [heq, ← hn1, ← hn2]
    have hhead : ∀ h' ∈ hs.head?, h'.common ≠ [] := fun h' hh' =>
      hsep h' (List.mem_of_mem_head? hh')
    obtain ⟨s', hs', hat2, hw2, hc2⟩ := ih (s := { t with
        diffdes := Sdiff.text (diffLines t.num1 t.num2 hs), blen := blen, change := 32 })
      ⟨hat1.fdes1, hat1.fdes2, hbl, hat1.midflg, hat1.plain1, hat1.plain2⟩ rfl rfl
      (fun h' hh' => hne h' (List.mem_cons_of_mem _ hh')) (Or.inr hhead)
      (fun h' hh' => hsep h' (List.mem_of_mem_tail hh')) (by rw [hn1, hn2]; exact hf)
    refine ⟨s', hs', hat2, ?_, hc2⟩
    rw [List.flatMap_cons]
    have hgrown' : Grown s.blen blen (rowLines h.rows ++
        (h.header (s.num1 + h.common.length) (s.num2 + h.common.length) :: h.body)) := by
      refine ((hg.trans hw1.grown).trans hgrown).of_mem fun l => ?_
      simp only [List.mem_append, List.mem_cons, List.not_mem_nil, or_false]
      tauto
    have hw1' : Wrote hlen _ { s with diffdes := [] } { t with diffdes := [], blen := blen } h.rows :=
      ⟨rfl, hw1.stdout, hw1.log1, hw1.log2, hw1.num1, hw1.num2, hgrown'⟩
    have hw2' : Wrote hlen (diffLines t.num1 t.num2 hs) { t with diffdes := [], blen := blen } s'
        (hs.flatMap Hunk.rows) :=
      ⟨hw2.diffdes, hw2.stdout, hw2.log1, hw2.log2, hw2.num1, hw2.num2, hw2.grown⟩
    have hlines : diffLines s.num1 s.num2 (h :: hs) =
        (h.header (s.num1 + h.common.length) (s.num2 + h.common.length) :: h.body) ++
          diffLines t.num1 t.num2 hs := by
      rw [hn1, hn2]
      rfl
    rw [hlines]
    exact hw1'.trans hw2'

/-- The lines after the last change. -/
theorem remainder_eq (ps : List (Line × Line)) {s : State}
    (hat : At s (ps.map Prod.fst) (ps.map Prod.snd)) (hc : s.change = 32) {fuel : ℕ}
    (hfuel : ps.length < fuel) :
    ∃ s', remainder hlen fuel s = some s' ∧ s'.fdes1 = [] ∧ s'.fdes2 = [] ∧
      Wrote hlen [] s s' (commonRows ps) := by
  induction ps generalizing s fuel with
  | nil =>
    obtain ⟨fuel, rfl⟩ : ∃ k, fuel = k + 1 := ⟨fuel - 1, by omega⟩
    have hend : put1 hlen s = (s, false) := by
      have hnil : s.fdes1 = [] := hat.fdes1
      unfold put1
      rw [hnil]
      rfl
    refine ⟨s, ?_, hat.fdes1, hat.fdes2, .refl s⟩
    rw [remainder, hend]
  | cons p ps ih =>
    obtain ⟨fuel, rfl⟩ : ∃ k, fuel = k + 1 := ⟨fuel - 1, by omega⟩
    obtain ⟨hat1, hw1, hc1, -, hput⟩ := row_both hlen hat
    obtain ⟨s', hs', h1, h2, hw2⟩ := ih hat1 (hc1.trans hc) (Nat.lt_of_succ_lt_succ hfuel)
    refine ⟨s', ?_, h1, h2, ?_⟩
    · have hpair : put1 hlen s = ((put1 hlen s).1, true) := Prod.ext rfl hput
      rw [remainder, hpair]
      exact hs'
    · rw [hc] at hw1
      exact hw1.trans hw2

end Walk

/-! ### Diffs -/

/-- A diff: its hunks and the lines after the last. -/
structure Diff where
  hunks : List Hunk
  last : List (Line × Line)

namespace Diff

def lines1 (d : Diff) : List Line := d.hunks.flatMap Hunk.lines1 ++ d.last.map Prod.fst

def lines2 (d : Diff) : List Line := d.hunks.flatMap Hunk.lines2 ++ d.last.map Prod.snd

/-- The lines that are in both files. -/
def pairs (d : Diff) : List (Line × Line) := d.hunks.flatMap Hunk.common ++ d.last

/-- What `diff` writes. -/
def text (d : Diff) : Line := Sdiff.text (diffLines 0 0 d.hunks)

def rows (d : Diff) : List Row := d.hunks.flatMap Hunk.rows ++ commonRows d.last

/-- Every hunk changes something, and changes without a line between them are one. -/
structure Valid (d : Diff) : Prop where
  changes : ∀ h ∈ d.hunks, h.old ≠ [] ∨ h.new ≠ []
  apart : ∀ h ∈ d.hunks.tail, h.common ≠ []
  plain1 : ∀ l ∈ d.lines1, Plain l
  plain2 : ∀ l ∈ d.lines2, Plain l

theorem lines1_rows (d : Diff) : (Sdiff.lines1 d.rows).map Prod.fst = d.lines1 := by
  have hhunks : (Sdiff.lines1 (d.hunks.flatMap Hunk.rows)).map Prod.fst =
      d.hunks.flatMap Hunk.lines1 := by
    induction d.hunks with
    | nil => rfl
    | cons h hs ih =>
      rw [List.flatMap_cons, List.flatMap_cons, lines1_append, List.map_append, ih, h.lines1_rows]
  unfold rows lines1
  rw [lines1_append, List.map_append, hhunks, commonRows, lines1_pairs]

theorem lines2_rows (d : Diff) : (Sdiff.lines2 d.rows).map Prod.fst = d.lines2 := by
  have hhunks : (Sdiff.lines2 (d.hunks.flatMap Hunk.rows)).map Prod.fst =
      d.hunks.flatMap Hunk.lines2 := by
    induction d.hunks with
    | nil => rfl
    | cons h hs ih =>
      rw [List.flatMap_cons, List.flatMap_cons, lines2_append, List.map_append, ih, h.lines2_rows]
  unfold rows lines2
  rw [lines2_append, List.map_append, hhunks, commonRows, lines2_pairs]

/-- An `int` is enough for the number of lines, and for the size of a buffer for each of them. -/
structure Fits (d : Diff) : Prop where
  lines1 : ∀ l ∈ d.lines1, Short l
  lines2 : ∀ l ∈ d.lines2, Short l
  diff : ∀ l ∈ diffLines 0 0 d.hunks, Short l
  num1 : d.lines1.length < 2 ^ 31
  num2 : d.lines2.length < 2 ^ 31

theorem mem_rowLines (d : Diff) (l : Line) :
    l ∈ rowLines d.rows ↔ l ∈ d.lines1 ∨ l ∈ d.lines2 := by
  rw [← d.lines1_rows, ← d.lines2_rows]
  unfold rowLines Sdiff.lines1 Sdiff.lines2
  simp only [List.mem_flatMap, List.mem_append, Option.mem_toList, List.mem_map,
    List.mem_filterMap, Option.map_eq_some_iff]
  constructor
  · rintro ⟨row, hrow, hl | hr⟩
    · exact .inl ⟨(l, row.mark), ⟨row, hrow, l, hl, rfl⟩, rfl⟩
    · exact .inr ⟨(l, row.mark), ⟨row, hrow, l, hr, rfl⟩, rfl⟩
  · rintro (⟨p, ⟨row, hrow, m, hm, rfl⟩, rfl⟩ | ⟨p, ⟨row, hrow, m, hm, rfl⟩, rfl⟩)
    · exact ⟨row, hrow, .inl hm⟩
    · exact ⟨row, hrow, .inr hm⟩

/-- Both files are read to their ends, and the rows are those of the diff, if the counters are not
too small. -/
theorem main_eq (hlen : ℕ) {d : Diff} (h : d.Valid) :
    ∃ s, (d.Fits → main hlen (Sdiff.text d.lines1) (Sdiff.text d.lines2) d.text = some s) ∧
      (¬ d.Fits → main hlen (Sdiff.text d.lines1) (Sdiff.text d.lines2) d.text = none) ∧
      s.fdes1 = [] ∧ s.fdes2 = [] ∧ s.log1 = (Sdiff.lines1 d.rows).map ended ∧
      s.log2 = (Sdiff.lines2 d.rows).map ended ∧ s.stdout = d.rows.flatMap (Row.text hlen) := by
  have hat : At ⟨Sdiff.text d.lines1, Sdiff.text d.lines2, d.text, BUFSIZ, 0, 0, 0, 32, false, 0,
      [], [], []⟩ d.lines1 d.lines2 :=
    ⟨rfl, rfl, by change 2 ≤ 8192; decide, rfl, h.plain1, h.plain2⟩
  obtain ⟨s, hs, hat1, hw1, hc1⟩ := loop_eq hlen d.hunks hat rfl rfl h.changes
    (Or.inl rfl) h.apart (Nat.lt_succ_self _)
  have hfuel : d.last.length < s.fdes1.length + 1 := by
    have hle (ls : List Line) : ls.length ≤ (Sdiff.text ls).length := by
      induction ls with
      | nil => exact le_rfl
      | cons l ls ih =>
        rw [text_cons]
        simp
        omega
    rw [hat1.fdes1]
    have := hle (d.last.map Prod.fst)
    rw [List.length_map] at this
    omega
  obtain ⟨s', hs', h1, h2, hw2⟩ := remainder_eq hlen d.last hat1 hc1 hfuel
  have hw : Wrote hlen (diffLines 0 0 d.hunks ++ []) _ s' d.rows := hw1.trans hw2
  have hmain : main hlen (Sdiff.text d.lines1) (Sdiff.text d.lines2) d.text = (some s').filter
      fun s => s.blen < 2 ^ 31 && s.num1 < 2 ^ 31 && s.num2 < 2 ^ 31 := by
    unfold main
    rw [hs, Option.bind_some, hs']
  have hnum1 : s'.num1 = d.lines1.length := by
    rw [hw.num1, ← d.lines1_rows, List.length_map]
    exact Nat.zero_add _
  have hnum2 : s'.num2 = d.lines2.length := by
    rw [hw.num2, ← d.lines2_rows, List.length_map]
    exact Nat.zero_add _
  have hblen : s'.blen < 2 ^ 31 ↔ (∀ l ∈ d.lines1, Short l) ∧ (∀ l ∈ d.lines2, Short l) ∧
      ∀ l ∈ diffLines 0 0 d.hunks, Short l := by
    rw [hw.grown.fits ⟨13, rfl⟩, and_iff_right (by change 8192 < 2 ^ 31; decide)]
    simp only [List.append_nil, List.mem_append, d.mem_rowLines, or_imp, forall_and, and_assoc]
  have hfits : (s'.blen < 2 ^ 31 && s'.num1 < 2 ^ 31 && s'.num2 < 2 ^ 31) = true ↔ d.Fits := by
    simp only [Bool.and_eq_true, decide_eq_true_eq, hblen, hnum1, hnum2]
    exact ⟨fun h => ⟨h.1.1.1, h.1.1.2.1, h.1.1.2.2, h.1.2, h.2⟩,
      fun h => ⟨⟨⟨h.lines1, h.lines2, h.diff⟩, h.num1⟩, h.num2⟩⟩
  refine ⟨s', fun hyes => ?_, fun hno => ?_, h1, h2, hw.log1, hw.log2, hw.stdout⟩
  · rw [hmain, Option.filter_some, if_pos (hfits.mpr hyes)]
  · rw [hmain, Option.filter_some, if_neg fun h => hno (hfits.mp h)]

end Diff

end Unitas.Sdiff
