import Unitas.Cut.Chars
import Unitas.Lib.Lines

/-! `cut -b -n`, where every byte is a character: how far it agrees with `cut -b`. -/
namespace Unitas.Cut
open Unitas.Lines

/-- `wctomb` where every byte is a character. -/
def singleByte (_ : UInt8) : Option ℕ := some 1

/-- Whether a range holds a position. -/
def Table.covers (t : Table) (pos : ℕ) : Bool :=
  t.live.any fun r => r.rstart ≤ pos && pos ≤ r.rend

/-- Whether a range ends right before a position. `bnfunc` leaves a range there, and prints
nothing. -/
def Table.leaves (t : Table) (pos : ℕ) : Bool := t.live.any fun r => r.rend + 1 = pos

/-- What `bnfunc` prints. -/
def Table.coversInside (t : Table) (pos : ℕ) : Bool := t.covers pos && !t.leaves pos

/-- A range begins where another one has just ended. -/
def Touching (t : Table) (pos : ℕ) : Prop :=
  (∃ r ∈ t.live, r.rend + 1 = pos) ∧ ∃ r ∈ t.live, r.rstart = pos

theorem covers_iff {t : Table} {pos : ℕ} : t.covers pos = true ↔ Covers t.live pos := by
  unfold Table.covers Covers Range.Holds
  simp only [List.any_eq_true, Bool.and_eq_true, decide_eq_true_eq]

theorem leaves_iff {t : Table} {pos : ℕ} : t.leaves pos = true ↔ ∃ r ∈ t.live, r.rend + 1 = pos := by
  unfold Table.leaves
  simp only [List.any_eq_true, decide_eq_true_eq]

theorem coversInside_iff {t : Table} {pos : ℕ} :
    t.coversInside pos = true ↔ Covers t.live pos ∧ ¬ ∃ r ∈ t.live, r.rend + 1 = pos := by
  unfold Table.coversInside
  rw [Bool.and_eq_true, covers_iff, ← leaves_iff, Bool.not_eq_true', Bool.not_eq_true]

/-- Two ranges of the table, one of them behind the other if they are not the same. -/
theorem Table.Ok.apart {t : Table} (ht : t.Ok) {r u : Range} (hr : r ∈ t.live) (hu : u ∈ t.live) :
    r = u ∨ r.rend < u.rstart ∨ u.rend < r.rstart := by
  by_cases heq : r = u
  · exact Or.inl heq
  · right
    have hsym : Std.Symm fun r u : Range => r.rend < u.rstart ∨ u.rend < r.rstart :=
      ⟨fun _ _ h => h.symm⟩
    have hapart : t.live.Pairwise fun r u => r.rend < u.rstart ∨ u.rend < r.rstart :=
      ht.sorted.imp fun h => Or.inl h
    exact hapart.forall hr hu heq

/-- A position is lost where ranges touch. -/
theorem touching_iff {t : Table} (ht : t.Ok) {pos : ℕ} :
    Touching t pos ↔ t.covers pos = true ∧ t.coversInside pos = false := by
  rw [← Bool.not_eq_true, coversInside_iff, covers_iff, not_and, not_not]
  constructor
  · rintro ⟨hend, u, hu, hstart⟩
    exact ⟨⟨u, hu, hstart.le, hstart ▸ (ht.ranges u hu).2⟩, fun _ => hend⟩
  · rintro ⟨⟨u, hu, h1, h2⟩, hend⟩
    obtain ⟨r, hr, hrend⟩ := hend ⟨u, hu, h1, h2⟩
    refine ⟨⟨r, hr, hrend⟩, u, hu, ?_⟩
    have hrange := ht.ranges r hr
    rcases ht.apart hr hu with rfl | h | h <;> omega

/-- The ranges before the index have been left. The one at the index has begun, or lies ahead with
those after it; one that touches the last has begun one position ago. -/
structure Within (t : Table) (s : Cursor) (done todo : List Range) : Prop where
  live : t.live = done ++ todo
  rndx : s.rndx = done.length
  behind : ∀ r ∈ done, r.rend < s.pos
  ahead : s.inrange = false → ∀ r ∈ todo, s.pos ≤ r.rstart
  inside : s.inrange = true → ∃ r rs, todo = r :: rs ∧ r.rstart ≤ s.pos ∧ s.pos ≤ r.rend

theorem within_start (t : Table) : Within t .start [] t.live :=
  ⟨rfl, rfl, fun _ h => absurd h List.not_mem_nil, fun _ _ _ => Nat.zero_le _,
    fun h => absurd h Bool.false_ne_true⟩

/-- One character, while there is a range at the index. -/
theorem bnfunc_cons {t : Table} (ht : t.Ok) {s : Cursor} {r : Range} {done rs : List Range}
    (hs : Within t s done (r :: rs)) {c : UInt8} (hc : c ≠ 10) (hpos : s.pos < INT_MAX)
    (cs : List UInt8) :
    ∃ s' done' todo', Within t s' done' todo' ∧ s'.pos = s.pos + 1 ∧
      bnfunc singleByte t s (c :: cs) =
        (bnfunc singleByte t s' cs).map ((if t.coversInside (s.pos + 1) then [c] else []) ++ ·) := by
  obtain ⟨hlive, hrndx, hbehind, hahead, hinside⟩ := hs
  have hget : t.get s.rndx = some r := by
    rw [Table.get, hlive, hrndx, List.append_assoc, List.getElem?_append_right (Nat.le_refl _),
      Nat.sub_self]
    rfl
  have hmore : ¬ t.nranges ≤ s.rndx := by
    rw [Table.nranges, hlive, hrndx, List.length_append, List.length_cons]
    omega
  have hranges := ht.ranges
  have hsorted := ht.sorted
  rw [hlive] at hranges hsorted
  have hr := hranges r (List.mem_append_right _ List.mem_cons_self)
  have hlater : ∀ u ∈ rs, r.rend < u.rstart :=
    (List.pairwise_cons.mp (List.pairwise_append.mp hsorted).2.1).1
  have hlow : s.pos ≤ r.rend := by
    cases hin : s.inrange with
    | false => exact (hahead hin r List.mem_cons_self).trans hr.2
    | true =>
      obtain ⟨u, us, heq, -, hle⟩ := hinside hin
      obtain ⟨rfl, -⟩ := List.cons.inj heq
      exact hle
  have hmem : ∀ u, u ∈ t.live ↔ u ∈ done ∨ u = r ∨ u ∈ rs := by
    intro u
    rw [hlive, List.mem_append, List.mem_cons]
  have hbehind' : ∀ u ∈ done, u.rend < s.pos + 1 := fun u hu => (hbehind u hu).trans (Nat.lt_succ_self _)
  have hstep : bnfunc singleByte t s (c :: cs) =
      if s.inrange || r.rstart ≤ s.pos + 1 then
        if s.pos + 1 > r.rend then bnfunc singleByte t ⟨s.pos + 1, false, s.rndx + 1⟩ cs
        else (bnfunc singleByte t ⟨s.pos + 1, true, s.rndx⟩ cs).map (c :: ·)
      else bnfunc singleByte t ⟨s.pos + 1, false, s.rndx⟩ cs := by
    rw [bnfunc, if_neg hc, if_neg hmore]
    simp only [singleByte, Option.bind_eq_bind, Option.bind_some, hget]
    rw [if_neg (by omega)]
  rw [hstep]
  by_cases hin : (s.inrange || decide (r.rstart ≤ s.pos + 1)) = true
  · rw [if_pos hin]
    have hstart : r.rstart ≤ s.pos + 1 := by
      rw [Bool.or_eq_true, decide_eq_true_eq] at hin
      rcases hin with hin | hle
      · obtain ⟨u, us, heq, hle, -⟩ := hinside hin
        obtain ⟨rfl, -⟩ := List.cons.inj heq
        exact hle.trans (Nat.le_succ _)
      · exact hle
    by_cases hend : s.pos + 1 > r.rend
    · -- one position late, the range is left
      have hout : t.coversInside (s.pos + 1) = false := by
        rw [← Bool.not_eq_true, coversInside_iff]
        exact fun h => h.2 ⟨r, (hmem r).mpr (Or.inr (Or.inl rfl)), by omega⟩
      refine ⟨⟨s.pos + 1, false, s.rndx + 1⟩, done ++ [r], rs, ⟨?_, ?_, fun u hu => ?_, fun _ u hu => ?_,
        fun h => absurd h Bool.false_ne_true⟩, rfl, ?_⟩
      · rw [hlive, List.append_assoc, List.singleton_append]
      · rw [List.length_append, ← hrndx]
        rfl
      · rcases List.mem_append.mp hu with hu | hu
        · exact hbehind' u hu
        · rw [List.mem_singleton.mp hu]
          exact hend
      · have := hlater u hu
        dsimp only
        omega
      · rw [if_pos hend, hout]
        simp
    · have hprinted : t.coversInside (s.pos + 1) = true := by
        rw [coversInside_iff]
        refine ⟨⟨r, (hmem r).mpr (Or.inr (Or.inl rfl)), hstart, by omega⟩, ?_⟩
        rintro ⟨u, hu, huend⟩
        rcases (hmem u).mp hu with hu | rfl | hu
        · have := hbehind u hu
          omega
        · omega
        · have h1 := hlater u hu
          have h2 := hranges u (List.mem_append_right _ (List.mem_cons_of_mem _ hu))
          omega
      refine ⟨⟨s.pos + 1, true, s.rndx⟩, done, r :: rs, ⟨hlive, hrndx, hbehind',
        fun h => absurd h.symm Bool.false_ne_true, fun _ => ⟨r, rs, rfl, hstart, ?_⟩⟩, rfl, ?_⟩
      · dsimp only
        omega
      · rw [if_neg hend, hprinted]
        rfl
  · rw [if_neg hin]
    rw [Bool.or_eq_true, not_or, decide_eq_true_eq] at hin
    have hout : t.coversInside (s.pos + 1) = false := by
      rw [← Bool.not_eq_true, coversInside_iff]
      rintro ⟨⟨u, hu, h1, h2⟩, -⟩
      rcases (hmem u).mp hu with hu | rfl | hu
      · have := hbehind u hu
        omega
      · omega
      · have := hlater u hu
        omega
    refine ⟨⟨s.pos + 1, false, s.rndx⟩, done, r :: rs, ⟨hlive, hrndx, hbehind', fun _ u hu => ?_,
      fun h => absurd h Bool.false_ne_true⟩, rfl, ?_⟩
    · dsimp only
      rcases List.mem_cons.mp hu with rfl | hu
      · omega
      · have := hlater u hu
        omega
    · rw [hout]
      simp

theorem bnfunc_newline (t : Table) (s : Cursor) (cs : List UInt8) :
    bnfunc singleByte t s (10 :: cs) = (bnfunc singleByte t .start cs).map (10 :: ·) := by
  rw [bnfunc, if_pos rfl]

/-- Once the last range has been left, the rest of the line is skipped. -/
theorem bnfunc_skip {t : Table} {s : Cursor} {done : List Range} (hs : Within t s done [])
    {c : UInt8} (hc : c ≠ 10) (cs : List UInt8) :
    bnfunc singleByte t s (c :: cs) = bnfunc singleByte t s cs := by
  have hlast : t.nranges ≤ s.rndx := by
    rw [Table.nranges, hs.live, hs.rndx, List.append_nil]
  rw [bnfunc, if_neg hc, if_pos hlast]

theorem Within.not_covers {t : Table} {s : Cursor} {done : List Range} (hs : Within t s done [])
    {pos : ℕ} (hpos : s.pos ≤ pos) : t.coversInside pos = false := by
  rw [← Bool.not_eq_true, coversInside_iff]
  rintro ⟨⟨u, hu, -, hle⟩, -⟩
  rw [hs.live, List.append_nil] at hu
  have := hs.behind u hu
  omega

/-- The rest of the input, when `pos` characters of its first line have been read. The cursor stays
behind once the last range has been left. -/
theorem bnfunc_from {t : Table} (ht : t.Ok) (cs : List UInt8) : ∀ s done todo pos l ls,
    Within t s done todo → (s.pos = pos ∨ todo = [] ∧ s.pos ≤ pos) → cs.splitOn 10 = l :: ls →
    pos + l.length ≤ INT_MAX → (∀ l' ∈ ls, l'.length ≤ INT_MAX) →
    bnfunc singleByte t s cs = some ([10].intercalate
      (selectFrom t.coversInside pos l :: ls.map (selectFrom t.coversInside 0))) := by
  induction cs with
  | nil =>
    intro s done todo pos l ls _ _ hsplit _ _
    obtain ⟨rfl, rfl⟩ := List.cons.inj hsplit
    rfl
  | cons c cs ih =>
    intro s done todo pos l ls hs hpos hsplit hl hls
    obtain ⟨g, gs, hg⟩ := List.exists_cons_of_ne_nil (List.splitOn_ne_nil 10 cs)
    rw [List.splitOn_cons_eq_if_modifyHead, hg] at hsplit
    by_cases hc : c = 10
    · subst hc
      obtain ⟨rfl, rfl⟩ := List.cons.inj hsplit
      obtain ⟨hg', hgs⟩ := List.forall_mem_cons.mp hls
      rw [bnfunc_newline, ih .start [] t.live 0 g gs (within_start t) (Or.inl rfl) hg
        (by omega) hgs]
      rw [Option.map_some, List.map_cons, List.intercalate_cons_cons]
      rfl
    · rw [if_neg (by simpa using hc)] at hsplit
      obtain ⟨rfl, rfl⟩ := List.cons.inj hsplit
      rw [List.length_cons] at hl
      rw [selectFrom_cons]
      cases todo with
      | nil =>
        have hle : s.pos ≤ pos := hpos.elim Nat.le_of_eq (·.2)
        rw [bnfunc_skip hs hc, ih s done [] (pos + 1) g gs hs
          (Or.inr ⟨rfl, hle.trans (Nat.le_succ _)⟩) hg (by omega) hls,
          hs.not_covers (hle.trans (Nat.le_succ _))]
        rfl
      | cons r rs =>
        obtain rfl : s.pos = pos := hpos.resolve_right fun h => List.cons_ne_nil _ _ h.1
        obtain ⟨s', done', todo', hs', hpos', hstep⟩ := bnfunc_cons ht hs hc (by omega) cs
        rw [hstep, ih s' done' todo' (s.pos + 1) g gs hs' (Or.inl hpos') hg (by omega) hls,
          Option.map_some, append_intercalate]

theorem bnfunc_eq {t : Table} (ht : t.Ok) {input : List UInt8}
    (hlines : ∀ line ∈ input.splitOn (10 : UInt8), line.length ≤ INT_MAX) :
    bnfunc singleByte t .start input = some (cutLines t.coversInside input) := by
  obtain ⟨l, ls, hl⟩ := List.exists_cons_of_ne_nil (List.splitOn_ne_nil 10 input)
  rw [hl, List.forall_mem_cons] at hlines
  rw [bnfunc_from ht input .start [] t.live 0 l ls (within_start t) (Or.inl rfl) hl
    (by omega) hlines.2, cutLines, hl, List.map_cons]

theorem mem_selectFrom {sel : ℕ → Bool} {c : UInt8} {line : List UInt8} : ∀ {pos : ℕ},
    c ∈ selectFrom sel pos line → c ∈ line := by
  induction line with
  | nil => exact fun h => h
  | cons d line ih =>
    intro pos h
    rw [selectFrom_cons] at h
    rcases List.mem_append.mp h with h | h
    · split_ifs at h
      · rw [List.mem_singleton.mp h]
        exact List.mem_cons_self
      · exact absurd h List.not_mem_nil
    · exact List.mem_cons_of_mem _ (ih h)

/-- What is cut tells what is selected of each line. -/
theorem cutLines_inj {sel sel' : ℕ → Bool} {input : List UInt8}
    (h : cutLines sel input = cutLines sel' input) :
    ∀ line ∈ input.splitOn 10, selectFrom sel 0 line = selectFrom sel' 0 line := by
  have hsplit : ∀ sel : ℕ → Bool, (cutLines sel input).splitOn 10 =
      (input.splitOn 10).map (selectFrom sel 0) := by
    intro sel
    refine List.splitOn_intercalate 10 (fun l hl => ?_) ?_
    · obtain ⟨line, hline, rfl⟩ := List.mem_map.mp hl
      exact fun hmem => not_mem_of_mem_splitOn hline (mem_selectFrom hmem)
    · exact fun hnil => List.splitOn_ne_nil 10 input (List.map_eq_nil_iff.mp hnil)
  exact List.map_inj_left.mp (by rw [← hsplit, ← hsplit, h])

theorem selectFrom_congr {sel sel' : ℕ → Bool} (line : List UInt8) : ∀ pos,
    (∀ i, pos < i → i ≤ pos + line.length → sel i = sel' i) →
    selectFrom sel pos line = selectFrom sel' pos line := by
  induction line with
  | nil => exact fun _ _ => rfl
  | cons c line ih =>
    intro pos h
    rw [List.length_cons] at h
    rw [selectFrom_cons, selectFrom_cons, h (pos + 1) (by omega) (by omega),
      ih (pos + 1) fun i h1 h2 => h i (by omega) (by omega)]

/-- Selecting less prints less. -/
theorem length_selectFrom_le {sel sel' : ℕ → Bool} (hle : ∀ i, sel' i = true → sel i = true)
    (line : List UInt8) : ∀ pos,
    (selectFrom sel' pos line).length ≤ (selectFrom sel pos line).length := by
  induction line with
  | nil => exact fun _ => Nat.le_refl _
  | cons c line ih =>
    intro pos
    have h := ih (pos + 1)
    rw [selectFrom_cons, selectFrom_cons, List.length_append, List.length_append]
    refine Nat.add_le_add ?_ h
    by_cases hsel : sel' (pos + 1) = true
    · rw [if_pos hsel, if_pos (hle _ hsel)]
    · rw [if_neg hsel]
      exact Nat.zero_le _

theorem selectFrom_inj {sel sel' : ℕ → Bool} (hle : ∀ i, sel' i = true → sel i = true)
    (line : List UInt8) : ∀ pos, selectFrom sel pos line = selectFrom sel' pos line →
    ∀ i, pos < i → i ≤ pos + line.length → sel i = true → sel' i = true := by
  induction line with
  | nil =>
    intro pos _ i h1 h2
    rw [List.length_nil] at h2
    omega
  | cons c line ih =>
    intro pos h i h1 h2 hsel
    rw [List.length_cons] at h2
    rw [selectFrom_cons, selectFrom_cons] at h
    have hlen := congrArg List.length h
    rw [List.length_append, List.length_append] at hlen
    have hrest := length_selectFrom_le hle line (pos + 1)
    have hhead : sel (pos + 1) = sel' (pos + 1) := by
      cases h3 : sel' (pos + 1) with
      | true => exact hle _ h3
      | false =>
        by_contra h4
        rw [Bool.not_eq_false] at h4
        rw [h3, h4] at hlen
        simp only [if_true, Bool.false_eq_true, if_false, List.length_singleton,
          List.length_nil] at hlen
        omega
    rw [hhead] at h
    rcases Nat.lt_or_ge (pos + 1) i with hlt | hge
    · exact ih (pos + 1) (List.append_cancel_left h) i hlt (by omega) hsel
    · obtain rfl : i = pos + 1 := by omega
      rw [← hhead]
      exact hsel

/-- `cut -b -n` prints the same as `cut -b`, if and only if the lines fit and none of them reaches a
position where two ranges touch. -/
theorem bnfunc_eq_bfunc {MAX_RANGES : ℕ} {list : List UInt8} {t : Table}
    (h : process_list MAX_RANGES list = some t) (input : List UInt8) :
    (∃ out, bfunc t input = some out ∧ bnfunc singleByte t .start input = some out) ↔
      ∀ line ∈ input.splitOn 10,
        Fits t 0 line.length ∧ ∀ pos, Touching t pos → line.length < pos := by
  obtain ⟨ht, -, -⟩ := process_list_ok h
  have hle : ∀ i, t.coversInside i = true → t.covers i = true := fun i hi =>
    covers_iff.mpr (coversInside_iff.mp hi).1
  have hb := bfunc_eq ht (fun pos _ _ => @covers_iff t pos) input
  have hbn : (∀ line ∈ input.splitOn 10, Fits t 0 line.length) →
      bnfunc singleByte t .start input = some (cutLines t.coversInside input) := fun hfits =>
    bnfunc_eq ht fun line hline => by simpa using (hfits line hline).1
  constructor
  · rintro ⟨out, hout, hout'⟩
    rw [hb] at hout
    split_ifs at hout with hfits
    rw [hbn hfits] at hout'
    have hcut := Option.some.inj (hout.trans hout'.symm)
    refine fun line hline => ⟨hfits line hline, fun pos htouch => ?_⟩
    obtain ⟨hcov, hnot⟩ := (touching_iff ht).mp htouch
    have hpos : 0 < pos := by
      obtain ⟨⟨r, -, hr⟩, -⟩ := htouch
      omega
    by_contra hlt
    have := selectFrom_inj hle line 0 (cutLines_inj hcut line hline) pos hpos (by omega) hcov
    rw [hnot] at this
    exact Bool.false_ne_true this
  · intro hall
    have hfits := fun line hline => (hall line hline).1
    refine ⟨cutLines t.covers input, by rw [hb, if_pos hfits], ?_⟩
    rw [hbn hfits]
    refine congrArg some (congrArg _ (List.map_congr_left fun line hline => ?_))
    refine selectFrom_congr line 0 fun i h1 h2 => ?_
    by_contra hne
    have hi : Touching t i := by
      rw [touching_iff ht]
      have := hle i
      cases h3 : t.coversInside i <;> cases h4 : t.covers i <;> simp_all
    have := (hall line hline).2 i hi
    omega

/-- `cut -b -n 1-2,4` of a line of four characters. -/
theorem bnfunc_eq_bfunc_four :
    (∃ out, bfunc ⟨[⟨1, 2⟩, ⟨4, 4⟩], [zeroed]⟩ [97, 98, 99, 100, 10] = some out ∧
        bnfunc singleByte ⟨[⟨1, 2⟩, ⟨4, 4⟩], [zeroed]⟩ .start [97, 98, 99, 100, 10] = some out) ↔
      ∀ line ∈ ([97, 98, 99, 100, 10] : List UInt8).splitOn 10,
        Fits ⟨[⟨1, 2⟩, ⟨4, 4⟩], [zeroed]⟩ 0 line.length ∧
          ∀ pos, Touching ⟨[⟨1, 2⟩, ⟨4, 4⟩], [zeroed]⟩ pos → line.length < pos := by
  exact @bnfunc_eq_bfunc 3 [52, 44, 49, 45, 50] _ (by decide) _

/-- `cut -b -n 1-2,3-4` prints `abd` of `abcd`. -/
theorem not_bnfunc_eq_bfunc : ¬ ∀ (MAX_RANGES : ℕ) (list : List UInt8) (t : Table)
    (input : List UInt8), process_list MAX_RANGES list = some t →
    bnfunc singleByte t .start input = bfunc t input := by
  intro h
  have hlist : process_list 3 [49, 45, 50, 44, 51, 45, 52] =
      some ⟨[⟨1, 2⟩, ⟨3, 4⟩], [zeroed]⟩ := by decide
  exact absurd (h 3 _ _ [97, 98, 99, 100, 10] hlist) (by decide)

end Unitas.Cut
