import Unitas.Newform.Expand

/-! The loop of `inputtabs`: its variables after each character, and the exact condition under which
it expands a line. -/
namespace Unitas.Newform

variable {tabtbl : ℕ → ℕ} {q : ℕ} {e : Stops} {pre rem : Str} {m : Mach}

/-- The line that has been read as far as `pre`, and what has been made of it. -/
structure After (e : Stops) (pre rem : Str) (m : Mach) : Prop where
  pfirst : m.pfirst = NCOLS + pre.length
  tlast : m.tlast = (expand e pre).length
  logcol : m.logcol = colAfter e pre
  text : Has m.work 0 (expand e pre)
  left : m.tlast ≤ m.pfirst → Has m.work m.pfirst rem

/-- The pointer is in the list: the stop that it is at has not been passed. -/
structure Good (e : Stops) (pre : Str) (t : ℕ) : Prop where
  le : t ≤ e.size
  below : ∀ j < t, e.goal j ≤ colAfter e pre
  above : colAfter e pre ≤ e.goal t
  counting : t ≤ e.counted → colAfter e pre = t + 1 ∧ pre.length = t
  late : e.counted < t → e.counted ≤ pre.length
  tab : pre.getLast? = some 9 → colAfter e pre < e.goal t

/-- The pointer after the comparison at the beginning of a turn. -/
structure Passed (e : Stops) (pre : Str) (t : ℕ) : Prop where
  below : ∀ j < t, e.goal j ≤ colAfter e pre
  above : t ≤ e.size → colAfter e pre < e.goal t
  le : t ≤ e.size + 1
  counting : t ≤ e.counted → colAfter e pre = t ∧ pre.length + 1 = t
  late : e.counted < t → e.counted ≤ pre.length
  tab : t = e.size + 1 → pre.getLast? ≠ some 9

theorem Passed.get_le {t : ℕ} (h : Passed e pre t) : ∀ j < t, e.get j ≤ colAfter e pre :=
  fun j hj => (Stops.get_le_goal j).trans (h.below j hj)

/-- One comparison is enough. -/
theorem pass_good (hat : e.At tabtbl q) {t : ℕ} (hgood : Good e pre t) (htabs : m.tabs = q + t)
    (hlog : m.logcol = colAfter e pre) :
    ∃ t', m.pass tabtbl = { m with tabs := q + t' } ∧ Passed e pre t' := by
  have hget : tabtbl m.tabs = e.get t := by
    rw [htabs]
    exact hat t (Nat.le_succ_of_le hgood.le)
  have hcounted := @Stops.counted_le e
  have hcond : m.logcol ≥ tabtbl m.tabs ↔ e.get t ≤ colAfter e pre := by rw [hget, hlog]
  unfold Mach.pass
  by_cases ht : t ≤ e.counted
  · obtain ⟨hcol, hlen⟩ := hgood.counting ht
    have hle : e.get t ≤ colAfter e pre := by
      have := Stops.get_le_goal (e := e) t
      rw [Stops.goal, if_pos ht] at this
      omega
    rw [if_pos (hcond.mpr hle)]
    refine ⟨t + 1, by rw [htabs, Nat.add_assoc], fun j hj => ?_, fun hle' => ?_, by omega,
      fun _ => ⟨hcol, by omega⟩, fun _ => by omega, fun _ h9 => ?_⟩
    · rcases Nat.lt_succ_iff_lt_or_eq.mp hj with h | rfl
      · exact hgood.below j h
      · rw [Stops.goal, if_pos ht, hcol]
    · have hgoal : e.goal t = t + 1 := if_pos ht
      exact (hcol.trans hgoal.symm).trans_lt (Stops.goal_lt hle')
    · have hgoal : e.goal t = t + 1 := if_pos ht
      exact absurd (hgood.tab h9) (by omega)
  · have hgoal : e.goal t = e.get t := if_neg ht
    by_cases heq : e.get t ≤ colAfter e pre
    · rw [if_pos (hcond.mpr heq)]
      refine ⟨t + 1, by rw [htabs, Nat.add_assoc], fun j hj => ?_, fun hle' => ?_,
        Nat.succ_le_succ hgood.le, fun h => by omega, fun _ => hgood.late (not_le.mp ht),
        fun _ h9 => ?_⟩
      · rcases Nat.lt_succ_iff_lt_or_eq.mp hj with h | rfl
        · exact hgood.below j h
        · rw [hgoal]
          exact heq
      · exact lt_of_le_of_lt hgood.above (Stops.goal_lt hle')
      · exact absurd (hgood.tab h9) (by omega)
    · rw [if_neg (hcond.not.mpr heq)]
      refine ⟨t, by rw [← htabs], hgood.below, fun _ => ?_, Nat.le_succ_of_le hgood.le,
        fun h => absurd h ht, hgood.late, fun h => absurd hgood.le (by omega)⟩
      rw [hgoal]
      exact not_le.mp heq

theorem pass_end (hat : e.At tabtbl q) (htabs : m.tabs = q + (e.size + 1)) :
    m.pass tabtbl = { m with tabs := q + (e.size + 2) } := by
  have hget : tabtbl m.tabs = 0 := by
    rw [htabs, hat _ le_rfl, Stops.get_end]
  unfold Mach.pass
  rw [hget, if_pos (Nat.zero_le _), htabs]
  rfl

/-! ### Turns -/

theorem inputturn_char {c : UInt8} (h : After e pre (c :: rem) m) (h8 : c ≠ 8) (h9 : c ≠ 9)
    (hroom : m.tlast ≤ m.pfirst) {t : ℕ} (hpass : m.pass tabtbl = { m with tabs := t }) :
    After e (pre ++ [c]) rem (m.inputturn tabtbl) ∧ (m.inputturn tabtbl).tabs = t := by
  obtain ⟨hc, hleft⟩ := has_cons.mp (h.left hroom)
  have hcell : cell e (colAfter e pre) c = [c] := if_neg h9
  have hturn : m.inputturn tabtbl =
      { work := store m.work m.tlast c, pfirst := m.pfirst + 1, tlast := m.tlast + 1,
        tabs := t, logcol := m.logcol + 1 } := by
    unfold Mach.inputturn
    rw [hpass]
    dsimp only
    rw [hc, if_neg h8, if_neg h9]
    rfl
  rw [hturn]
  have hpfirst := h.pfirst
  refine ⟨⟨?_, ?_, ?_, ?_, ?_⟩, rfl⟩
  · rw [List.length_append, List.length_singleton, ← Nat.add_assoc, ← hpfirst]
  · rw [expand_concat, hcell, List.length_append, List.length_singleton, ← h.tlast]
  · rw [colAfter_concat, hcell, List.length_singleton, ← h.logcol]
  · rw [expand_concat, hcell]
    have hconcat := h.text.concat c
    rwa [Nat.zero_add, ← h.tlast] at hconcat
  · exact fun _ => hleft.stored c (.inl (Nat.lt_succ_of_le hroom))

theorem inputturn_tab (h : After e pre (9 :: rem) m) {t : ℕ}
    (hpass : m.pass tabtbl = { m with tabs := t }) (hroom : m.tlast ≤ m.pfirst)
    (hwidth : (cell e (colAfter e pre) 9).length = tabtbl t - colAfter e pre) :
    After e (pre ++ [9]) rem (m.inputturn tabtbl) ∧ (m.inputturn tabtbl).tabs = t + 1 := by
  obtain ⟨hc, hleft⟩ := has_cons.mp (h.left hroom)
  set d := tabtbl t - colAfter e pre with hd
  have hcell : cell e (colAfter e pre) 9 = List.replicate d 32 := by
    have hrep : cell e (colAfter e pre) 9 =
        List.replicate (cell e (colAfter e pre) 9).length 32 := by
      unfold cell
      rw [if_pos rfl]
      split <;> simp
    rw [hrep, hwidth]
  set m₁ : Mach := { m with tabs := t, pfirst := m.pfirst + 1 } with hm₁
  obtain ⟨hpf, htabs, htlast, hlog, htext, hkeep⟩ := pad_spec d m₁
  have hturn : m.inputturn tabtbl = { m₁.pad d with tabs := t + 1 } := by
    have hwidth' : tabtbl t - m.logcol = d := by rw [h.logcol]
    unfold Mach.inputturn
    rw [hpass]
    dsimp only
    rw [hc, if_neg (by decide), if_pos rfl, hwidth', ← hm₁, htabs]
  have hlen : (expand e (pre ++ [9])).length = m.tlast + d := by
    rw [expand_concat, hcell, List.length_append, List.length_replicate, h.tlast]
  have hpfirst := h.pfirst
  rw [hturn]
  refine ⟨⟨?_, ?_, ?_, ?_, ?_⟩, rfl⟩
  · rw [List.length_append, List.length_singleton, ← Nat.add_assoc, ← hpfirst]
    exact hpf
  · rw [hlen]
    exact htlast
  · rw [colAfter_concat, hcell, List.length_replicate, ← h.logcol]
    exact hlog
  · rw [expand_concat, hcell]
    exact htext 0 _ h.text ((Nat.zero_add _).trans h.tlast.symm)
  · intro hroom'
    change (m₁.pad d).tlast ≤ (m₁.pad d).pfirst at hroom'
    change Has (m₁.pad d).work (m₁.pad d).pfirst rem
    rw [htlast, hpf] at hroom'
    rw [hpf]
    exact hkeep (m.pfirst + 1) rem hleft hroom'

theorem Passed.char {t : ℕ} (h : Passed e pre t) (ht : t ≤ e.size) {c : UInt8} (h9 : c ≠ 9) :
    Good e (pre ++ [c]) t := by
  have hcol : colAfter e (pre ++ [c]) = colAfter e pre + 1 := by
    rw [colAfter_concat, cell, if_neg h9, List.length_singleton]
  have hlen : (pre ++ [c]).length = pre.length + 1 := by simp
  refine ⟨ht, fun j hj => ?_, ?_, fun hle => ?_, fun hlt => ?_, fun hlast => ?_⟩
  · exact (h.below j hj).trans (by omega)
  · rw [hcol]
    exact h.above ht
  · have := h.counting hle
    omega
  · have := h.late hlt
    omega
  · rw [List.getLast?_concat] at hlast
    exact absurd (Option.some.inj hlast) h9

/-- A tab that is not after the last stop, when the stops do not count columns. -/
theorem Passed.width {t : ℕ} (h : Passed e pre t) (hlate : e.counted < t) (ht : t ≤ e.size) :
    cell e (colAfter e pre) 9 = List.replicate (e.get t - colAfter e pre) 32 ∧
      colAfter e (pre ++ [9]) = e.goal t := by
  have hgoal : e.goal t = e.get t := if_neg (not_le.mpr hlate)
  have habove := h.above ht
  rw [hgoal] at habove
  have hcell : cell e (colAfter e pre) 9 = List.replicate (e.get t - colAfter e pre) 32 := by
    unfold cell
    rw [if_pos rfl, Stops.next_eq_some ht h.get_le habove]
  refine ⟨hcell, ?_⟩
  rw [colAfter_concat, hcell, List.length_replicate, hgoal]
  omega

theorem Passed.stop {t : ℕ} (h : Passed e pre t) (hlate : e.counted < t) (ht : t < e.size) :
    Good e (pre ++ [9]) (t + 1) := by
  have hcol := (h.width hlate ht.le).2
  have hlen : (pre ++ [9]).length = pre.length + 1 := by simp
  refine ⟨ht, fun j hj => ?_, ?_, fun hle => ?_, fun _ => ?_, fun _ => ?_⟩
  · rw [hcol]
    rcases Nat.lt_succ_iff_lt_or_eq.mp hj with hlt | rfl
    · exact (Stops.goal_lt_of_lt hlt ht.le).le
    · exact le_rfl
  · rw [hcol]
    exact (Stops.goal_lt ht).le
  · omega
  · have := h.late hlate
    omega
  · rw [hcol]
    exact Stops.goal_lt ht

/-! ### Lines -/

theorem split_cons {P : Str → Str → Prop} (c : UInt8) (l : Str) :
    (∀ mid rem, c :: l = mid ++ rem → P mid rem) ↔
      P [] (c :: l) ∧ ∀ mid rem, l = mid ++ rem → P (c :: mid) rem := by
  constructor
  · intro h
    exact ⟨h [] _ rfl, fun mid rem hl => h (c :: mid) rem (congrArg (c :: ·) hl)⟩
  · rintro ⟨h0, h⟩ mid rem hl
    cases mid with
    | nil =>
      rw [List.nil_append] at hl
      exact hl ▸ h0
    | cons d mid =>
      obtain ⟨rfl, hl'⟩ := List.cons.inj hl
      exact h mid rem hl'

theorem split_nil {P : Str → Str → Prop} :
    (∀ mid rem, [] = mid ++ rem → P mid rem) ↔ P [] [] := by
  constructor
  · exact fun h => h [] [] rfl
  · intro h mid rem hl
    obtain ⟨rfl, rfl⟩ := List.append_eq_nil_iff.mp hl.symm
    exact h

/-- The characters that have been read have become their text, and none has been overwritten that
has not. -/
structure Holds (e : Stops) (pre : Str) (m : Mach) : Prop where
  tlast : m.tlast = (expand e pre).length
  text : Has m.work 0 (expand e pre)
  room : m.tlast ≤ m.pfirst

/-- The entries that the next turn reads are of the list at `q`. -/
structure Reads (tabtbl : ℕ → ℕ) (q : ℕ) (e : Stops) (c : UInt8) (m : Mach) : Prop where
  first : q ≤ m.tabs
  last : m.tabs ≤ q + (e.size + 1)
  tab : c = 9 → (m.pass tabtbl).tabs ≤ q + (e.size + 1)

/-- All of it, from some place in the line on. -/
def Expands (tabtbl : ℕ → ℕ) (q : ℕ) (e : Stops) (pre l : Str) (m : Mach) : Prop :=
  ∀ mid rem, l = mid ++ rem →
    Holds e (pre ++ mid) (m.inputloop tabtbl mid.length) ∧
      ∀ c ∈ rem.head?, Reads tabtbl q e c (m.inputloop tabtbl mid.length)

/-- The text is not longer than what has been read and the area before the line. -/
def Room (e : Stops) (pre : Str) : Prop := (expand e pre).length ≤ NCOLS + pre.length

/-- Where the last stop has been reached the line ends. Where the stops count columns there is no
tab, but for one after which the line ends. -/
structure Fit (e : Stops) (pre : Str) (c : UInt8) (post : Str) : Prop where
  last : e.goal e.size ≤ colAfter e pre →
    post = [] ∨ post.length = 1 ∧ c ≠ 9 ∧ pre.getLast? ≠ some 9
  counting : c = 9 → pre.length < e.counted → e.next (colAfter e pre) = none ∧ post.length = 1

def Fits (e : Stops) (pre l : Str) : Prop :=
  ∀ mid rem, l = mid ++ rem →
    Room e (pre ++ mid) ∧ ∀ c post, rem = c :: post → Fit e (pre ++ mid) c post

theorem expands_nil : Expands tabtbl q e pre [] m ↔ Holds e pre m := by
  unfold Expands
  rw [split_nil]
  simp [Mach.inputloop]

theorem expands_cons (c : UInt8) (l : Str) :
    Expands tabtbl q e pre (c :: l) m ↔ Holds e pre m ∧ Reads tabtbl q e c m ∧
      Expands tabtbl q e (pre ++ [c]) l (m.inputturn tabtbl) := by
  unfold Expands
  rw [split_cons]
  simp [Mach.inputloop, and_assoc]

theorem fits_nil : Fits e pre [] ↔ Room e pre := by
  unfold Fits
  rw [split_nil]
  simp

theorem fits_cons (c : UInt8) (l : Str) :
    Fits e pre (c :: l) ↔ Room e pre ∧ Fit e pre c l ∧ Fits e (pre ++ [c]) l := by
  unfold Fits
  rw [split_cons]
  simp [and_assoc]

theorem After.room_iff (h : After e pre rem m) : m.tlast ≤ m.pfirst ↔ Room e pre := by
  rw [h.tlast, h.pfirst, Room]

theorem After.holds_iff (h : After e pre rem m) : Holds e pre m ↔ Room e pre :=
  ⟨fun hh => h.room_iff.mp hh.room, fun hr => ⟨h.tlast, h.text, h.room_iff.mpr hr⟩⟩

/-- Only the newline is left, or nothing. -/
def Short (e : Stops) (pre l : Str) : Prop :=
  l.length ≤ 1 ∧ ∀ mid rem, l = mid ++ rem → Room e (pre ++ mid)

theorem fits_iff_short (hlast : rem.getLast? ≠ some 9) (hlen : rem.length ≤ 1) :
    Fits e pre rem ↔ Short e pre rem := by
  refine ⟨fun h => ⟨hlen, fun mid rem' hrem => (h mid rem' hrem).1⟩, fun h mid rem' hrem => ?_⟩
  refine ⟨h.2 mid rem' hrem, fun c post hpost => ?_⟩
  subst hpost hrem
  have hpost : post = [] := by
    refine List.eq_nil_of_length_eq_zero ?_
    simp only [List.length_append, List.length_cons] at hlen
    omega
  subst hpost
  refine ⟨fun _ => .inl rfl, fun h9 => ?_⟩
  rw [List.getLast?_concat] at hlast
  exact absurd (congrArg some h9) hlast

/-- Past the last stop the pointer goes on with each turn. -/
theorem pass_le_inputturn {c : UInt8} (hc : m.work m.pfirst = c) (h8 : c ≠ 8) :
    (m.pass tabtbl).tabs ≤ (m.inputturn tabtbl).tabs := by
  have hwork : (m.pass tabtbl).work = m.work ∧ (m.pass tabtbl).pfirst = m.pfirst := by
    unfold Mach.pass
    split <;> exact ⟨rfl, rfl⟩
  unfold Mach.inputturn
  simp only [hwork.1, hwork.2, hc]
  rw [if_neg h8]
  split_ifs
  · simp only [(pad_spec _ _).2.1]
    exact Nat.le_succ _
  · exact le_rfl

theorem not_expands_past {c : UInt8} {l : Str} (h : q + (e.size + 1) < m.tabs) :
    ¬ Expands tabtbl q e pre (c :: l) m := fun hexp =>
  absurd ((expands_cons c l).mp hexp).2.1.last (not_le.mpr h)

theorem expands_end (hat : e.At tabtbl q) (h : After e pre rem m)
    (htabs : m.tabs = q + (e.size + 1)) (h8 : 8 ∉ rem) (hlast : rem.getLast? ≠ some 9) :
    Expands tabtbl q e pre rem m ↔ Short e pre rem := by
  have hpass := pass_end (e := e) hat htabs
  cases rem with
  | nil =>
    rw [expands_nil, h.holds_iff, Short, split_nil]
    simp
  | cons c rem =>
    have hc8 : c ≠ 8 := fun hc => h8 (hc ▸ List.mem_cons_self)
    rw [expands_cons, h.holds_iff]
    by_cases hroom : Room e pre
    swap
    · refine iff_of_false (fun hexp => hroom hexp.1) fun hshort => hroom ?_
      simpa using hshort.2 [] (c :: rem) rfl
    have hroom' := h.room_iff.mpr hroom
    have hc := (has_cons.mp (h.left hroom')).1
    cases rem with
    | nil =>
      have hc9 : c ≠ 9 := fun h9 => hlast (by rw [h9]; rfl)
      obtain ⟨hafter, -⟩ := inputturn_char h hc8 hc9 hroom' hpass
      have hreads : Reads tabtbl q e c m :=
        ⟨htabs ▸ Nat.le_add_right _ _, htabs.le, fun h9 => absurd h9 hc9⟩
      rw [expands_nil, hafter.holds_iff, Short, split_cons, split_nil]
      simp [hroom, hreads]
    | cons d rem =>
      refine iff_of_false (fun hexp => ?_) fun hshort => ?_
      · refine not_expands_past ?_ hexp.2.2
        have hle : (m.pass tabtbl).tabs ≤ (m.inputturn tabtbl).tabs := pass_le_inputturn hc hc8
        rw [hpass] at hle
        exact Nat.lt_of_lt_of_le (by simp only; omega) hle
      · have := hshort.1
        simp at this

/-- A turn in the list. -/
theorem turn_good (hat : e.At tabtbl q) {c : UInt8} (h : After e pre (c :: rem) m) {t : ℕ}
    (hgood : Good e pre t) (htabs : m.tabs = q + t) (h8 : c ≠ 8) (hroom : m.tlast ≤ m.pfirst)
    (h9 : c = 9 → colAfter e pre < e.goal e.size ∧ e.counted ≤ pre.length) :
    After e (pre ++ [c]) rem (m.inputturn tabtbl) ∧
      ((∃ t', Good e (pre ++ [c]) t' ∧ (m.inputturn tabtbl).tabs = q + t' ∧
          colAfter e pre < e.goal e.size) ∨
        (m.inputturn tabtbl).tabs = q + (e.size + 1) ∧
          e.goal e.size ≤ colAfter e (pre ++ [c]) ∧
          (c ≠ 9 → e.goal e.size ≤ colAfter e pre ∧ pre.getLast? ≠ some 9)) := by
  obtain ⟨t', hpass, hpassed⟩ := pass_good hat hgood htabs h.logcol
  by_cases hc : c = 9
  · subst hc
    obtain ⟨hcol, hlen⟩ := h9 rfl
    have hlate : e.counted < t' := by
      refine not_le.mp fun hle => ?_
      have := (hpassed.counting hle).2
      omega
    have ht : t' ≤ e.size := by
      refine not_lt.mp fun hlt => ?_
      exact absurd (hpassed.below e.size hlt) (not_le.mpr hcol)
    obtain ⟨hcell, hcol'⟩ := hpassed.width hlate ht
    have hwidth : (cell e (colAfter e pre) 9).length = tabtbl (q + t') - colAfter e pre := by
      rw [hcell, List.length_replicate, hat t' (by omega)]
    obtain ⟨hafter, htabs'⟩ := inputturn_tab h hpass hroom hwidth
    refine ⟨hafter, ?_⟩
    rcases Nat.lt_or_eq_of_le ht with hlt | rfl
    · exact .inl ⟨t' + 1, hpassed.stop hlate hlt, htabs'.trans (Nat.add_assoc _ _ _), hcol⟩
    · exact .inr ⟨htabs'.trans (Nat.add_assoc _ _ _), hcol'.ge, fun hne => absurd rfl hne⟩
  · obtain ⟨hafter, htabs'⟩ := inputturn_char h h8 hc hroom hpass
    refine ⟨hafter, ?_⟩
    by_cases ht : t' ≤ e.size
    · exact .inl ⟨t', hpassed.char ht hc, htabs', (hpassed.above ht).trans_le (Stops.goal_le ht)⟩
    · have heq : t' = e.size + 1 := by have := hpassed.le; omega
      have hle := hpassed.below e.size (by omega)
      have hmono : colAfter e pre ≤ colAfter e (pre ++ [c]) := by
        rw [colAfter_concat]
        exact Nat.le_add_right _ _
      exact .inr ⟨heq ▸ htabs', hle.trans hmono, fun _ => ⟨hle, hpassed.tab heq⟩⟩

theorem inputturn_tab_eq (hc : m.work m.pfirst = 9) {t : ℕ}
    (hpass : m.pass tabtbl = { m with tabs := t }) :
    (m.inputturn tabtbl).tlast = m.tlast + (tabtbl t - m.logcol) ∧
      (m.inputturn tabtbl).tabs = t + 1 := by
  unfold Mach.inputturn
  rw [hpass]
  dsimp only
  rw [hc, if_neg (by decide), if_pos rfl]
  exact ⟨(pad_spec _ _).2.2.1, congrArg (· + 1) (pad_spec _ _).2.1⟩

/-- A tab past the last stop: the pointer is out of the list in the next turn. -/
theorem expands_past (h : After e pre (9 :: rem) m) {t : ℕ}
    (hpass : m.pass tabtbl = { m with tabs := q + t }) (hpassed : Passed e pre t)
    (hroom : m.tlast ≤ m.pfirst) (hcol : e.goal e.size ≤ colAfter e pre) (hne : rem ≠ []) :
    ¬ Expands tabtbl q e (pre ++ [9]) rem (m.inputturn tabtbl) ∧ ¬ Fit e pre 9 rem := by
  have htabs := (inputturn_tab_eq (has_cons.mp (h.left hroom)).1 hpass).2
  have ht : t = e.size + 1 := by
    have := hpassed.le
    by_contra hne'
    have hle : t ≤ e.size := by omega
    exact absurd ((hpassed.above hle).trans_le (Stops.goal_le hle)) (not_lt.mpr hcol)
  constructor
  · obtain ⟨d, rem, rfl⟩ := List.exists_cons_of_ne_nil hne
    exact not_expands_past (by omega)
  · intro hfit
    rcases hfit.last hcol with hnil | ⟨-, h9, -⟩
    · exact hne hnil
    · exact h9 rfl

/-- A tab where the stops count columns: the stop that it is expanded to is the column itself. -/
theorem expands_counting (hat : e.At tabtbl q) (h : After e pre (9 :: rem) m) {t : ℕ}
    (hpass : m.pass tabtbl = { m with tabs := q + t }) (hpassed : Passed e pre t)
    (hroom : m.tlast ≤ m.pfirst) (hcol : ¬ e.goal e.size ≤ colAfter e pre)
    (hlt : pre.length < e.counted) (h8 : 8 ∉ rem) (hlast : rem.getLast? ≠ some 9)
    (hne : rem ≠ []) :
    Expands tabtbl q e (pre ++ [9]) rem (m.inputturn tabtbl) ↔
      Fit e pre 9 rem ∧ Fits e (pre ++ [9]) rem := by
  have hc := (has_cons.mp (h.left hroom)).1
  obtain ⟨htlast, htabs⟩ := inputturn_tab_eq hc hpass
  have ht : t ≤ e.counted := by
    by_contra hgt
    exact absurd (hpassed.late (not_le.mp hgt)) (not_le.mpr hlt)
  obtain ⟨hcol', hlen⟩ := hpassed.counting ht
  have hcounted := @Stops.counted_le e
  have hget : e.get t = t := Stops.get_counted (by omega) ht
  have hentry : tabtbl (q + t) = t := (hat t (by omega)).trans hget
  rw [hentry, h.logcol, hcol', Nat.sub_self, Nat.add_zero] at htlast
  have hbelow : ∀ j < t + 1, e.get j ≤ colAfter e pre := by
    intro j hj
    rcases Nat.lt_succ_iff_lt_or_eq.mp hj with hj' | rfl
    · exact hpassed.get_le j hj'
    · rw [hget, hcol']
  by_cases hsize : t < e.size
  · -- there is another stop, and no blank is written
    have hgt : t < e.get (t + 1) := by
      have := Stops.get_lt (e := e) (show 0 < t by omega) (Nat.lt_succ_self t) hsize
      rwa [hget] at this
    have hnext : e.next (colAfter e pre) = some (e.get (t + 1)) :=
      Stops.next_eq_some hsize hbelow (hcol'.trans_lt hgt)
    refine iff_of_false (fun hexp => ?_) fun hfit => ?_
    · have hholds : (m.inputturn tabtbl).tlast = (expand e (pre ++ [9] ++ [])).length :=
        (hexp [] rem rfl).1.tlast
      rw [List.append_nil, expand_concat, List.length_append] at hholds
      have hcell : (cell e (colAfter e pre) 9).length = e.get (t + 1) - t := by
        unfold cell
        rw [if_pos rfl, hnext, hcol']
        exact List.length_replicate
      have htl := h.tlast
      omega
    · have := (hfit.1.counting rfl hlt).1
      rw [hnext] at this
      cases this
  · obtain rfl : t = e.size := by omega
    have hnext : e.next (colAfter e pre) = none :=
      Stops.next_eq_none fun j hj => hbelow j (Nat.lt_succ_of_le hj)
    have hcell : cell e (colAfter e pre) 9 = [] := by
      unfold cell
      rw [if_pos rfl, hnext]
    have hafter := (inputturn_tab h hpass hroom
      (by rw [hcell, hentry, hcol', Nat.sub_self]; rfl)).1
    rw [expands_end hat hafter htabs h8 hlast]
    constructor
    · intro hshort
      have h1 : rem.length = 1 := le_antisymm hshort.1 (List.length_pos_iff.mpr hne)
      exact ⟨⟨fun hle => absurd hle hcol, fun _ _ => ⟨hnext, h1⟩⟩,
        (fits_iff_short hlast hshort.1).mpr hshort⟩
    · rintro ⟨hfit, hfits⟩
      exact (fits_iff_short hlast (hfit.counting rfl hlt).2.le).mp hfits

/-- At the end of the list, the conditions that are left say that the line ends. -/
theorem short_iff {c : UInt8} (hlast : rem.getLast? ≠ some 9)
    (h9 : c = 9 → colAfter e pre < e.goal e.size ∧ e.counted ≤ pre.length)
    (hcol : e.goal e.size ≤ colAfter e (pre ++ [c]))
    (hchar : c ≠ 9 → e.goal e.size ≤ colAfter e pre ∧ pre.getLast? ≠ some 9) :
    Short e (pre ++ [c]) rem ↔ Fit e pre c rem ∧ Fits e (pre ++ [c]) rem := by
  constructor
  · intro hshort
    refine ⟨⟨fun hle => ?_, fun hc9 hlt => ?_⟩, (fits_iff_short hlast hshort.1).mpr hshort⟩
    · have hc9 : c ≠ 9 := fun hc9 => absurd hle (not_le.mpr (h9 hc9).1)
      rcases Nat.le_one_iff_eq_zero_or_eq_one.mp hshort.1 with h0 | h1
      · exact .inl (List.eq_nil_of_length_eq_zero h0)
      · exact .inr ⟨h1, hc9, (hchar hc9).2⟩
    · exact absurd hlt (not_lt.mpr (h9 hc9).2)
  · rintro ⟨hfit, hfits⟩
    refine (fits_iff_short hlast ?_).mp hfits
    by_cases hc9 : c = 9
    · cases rem with
      | nil => exact Nat.zero_le _
      | cons d post =>
        rcases ((fits_cons d post).mp hfits).2.1.last hcol with rfl | ⟨-, -, hne⟩
        · exact le_rfl
        · rw [List.getLast?_concat] at hne
          exact absurd (congrArg some hc9) hne
    · rcases hfit.last (hchar hc9).1 with rfl | ⟨h1, -⟩
      · exact Nat.zero_le _
      · exact h1.le

/-- In the list, the condition is the exact one. -/
theorem expands_iff (hat : e.At tabtbl q) (h : After e pre rem m) {t : ℕ} (hgood : Good e pre t)
    (htabs : m.tabs = q + t) (h8 : 8 ∉ rem) (hlast : rem.getLast? ≠ some 9) :
    Expands tabtbl q e pre rem m ↔ Fits e pre rem := by
  induction rem generalizing pre m t with
  | nil => rw [expands_nil, fits_nil, h.holds_iff]
  | cons c rem ih =>
    have hc8 : c ≠ 8 := fun hc => h8 (hc ▸ List.mem_cons_self)
    have h8' : 8 ∉ rem := fun hmem => h8 (List.mem_cons_of_mem _ hmem)
    have hlast' : rem.getLast? ≠ some 9 := fun hl => hlast (by
      rw [List.getLast?_cons, hl]
      rfl)
    rw [expands_cons, fits_cons, h.holds_iff]
    by_cases hroom : Room e pre
    swap
    · exact iff_of_false (fun hexp => hroom hexp.1) fun hfits => hroom hfits.1
    have hroom' := h.room_iff.mpr hroom
    have hc := (has_cons.mp (h.left hroom')).1
    obtain ⟨t', hpass, hpassed⟩ := pass_good hat hgood htabs h.logcol
    have hreads : Reads tabtbl q e c m := by
      have := hgood.le
      have := hpassed.le
      exact ⟨by omega, by omega, fun _ => by rw [hpass]; simp only; omega⟩
    have hrem (h9 : c = 9) : rem ≠ [] := by
      rintro rfl
      exact hlast (congrArg some h9)
    suffices hsuff : Expands tabtbl q e (pre ++ [c]) rem (m.inputturn tabtbl) ↔
        Fit e pre c rem ∧ Fits e (pre ++ [c]) rem by
      rw [hsuff]
      exact ⟨fun hexp => ⟨hexp.1, hexp.2.2⟩, fun hfits => ⟨hfits.1, hreads, hfits.2⟩⟩
    by_cases hpast : c = 9 ∧ e.goal e.size ≤ colAfter e pre
    · obtain ⟨rfl, hcol⟩ := hpast
      obtain ⟨hexp, hfit⟩ := expands_past h hpass hpassed hroom' hcol (hrem rfl)
      exact iff_of_false hexp fun hfits => hfit hfits.1
    by_cases hcounting : c = 9 ∧ pre.length < e.counted
    · obtain ⟨rfl, hlt⟩ := hcounting
      exact expands_counting hat h hpass hpassed hroom' (fun hcol => hpast ⟨rfl, hcol⟩) hlt h8'
        hlast' (hrem rfl)
    have h9 (h9 : c = 9) : colAfter e pre < e.goal e.size ∧ e.counted ≤ pre.length :=
      ⟨not_le.mp fun hle => hpast ⟨h9, hle⟩, not_lt.mp fun hlt => hcounting ⟨h9, hlt⟩⟩
    obtain ⟨hafter, ⟨t'', hgood', htabs', hcol⟩ | ⟨htabs', hcol, hchar⟩⟩ :=
      turn_good hat h hgood htabs hc8 hroom' h9
    · rw [ih hafter hgood' htabs' h8' hlast']
      refine ⟨fun hfits => ⟨⟨fun hle => ?_, fun hc9 hlt => ?_⟩, hfits⟩, fun hfits => hfits.2⟩
      · exact absurd hle (not_le.mpr hcol)
      · exact absurd hlt (not_lt.mpr (h9 hc9).2)
    · rw [expands_end hat hafter htabs' h8' hlast']
      exact short_iff hlast' h9 hcol hchar

end Unitas.Newform
