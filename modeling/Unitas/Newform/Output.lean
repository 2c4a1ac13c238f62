import Unitas.Newform.Lines

/-! The tabs that `outputtabs` makes are before the last stop, and stand for the blanks that were
there. -/
namespace Unitas.Newform

variable {tabtbl : ℕ → ℕ} {q p₀ n : ℕ} {e : Stops} {pre rem out : Str} {m : Mach} {tabs lo hi : ℕ}

/-- The pointer: it has stayed behind the column for good, or is at the next stop. The columns up to
the one after `out` have been compared, those before `lo` and `hi` too. -/
def Phase (tabtbl : ℕ → ℕ) (q : ℕ) (e : Stops) (out : Str) (tabs lo hi : ℕ) : Prop :=
  tabtbl tabs < lo ∨
    ∃ t ≤ e.size, tabs = q + t ∧ (∀ j < t, e.get j ≤ colAfter e out) ∧ hi ≤ e.get t ∧
      (0 < t → e.counted = 0)

theorem Phase.mono {lo' hi' : ℕ} {out' : Str} (h : Phase tabtbl q e out tabs lo hi) (hlo : lo ≤ lo')
    (hhi : hi' ≤ hi) (hout : colAfter e out ≤ colAfter e out') :
    Phase tabtbl q e out' tabs lo' hi' := by
  rcases h with hlt | ⟨t, ht, htabs, hbelow, hle, hcounted⟩
  · exact .inl (hlt.trans_le hlo)
  · exact .inr ⟨t, ht, htabs, fun j hj => (hbelow j hj).trans hout, hhi.trans hle, hcounted⟩

theorem phase_start : Phase tabtbl q e [] q 1 1 :=
  .inr ⟨0, Nat.zero_le _, rfl, fun j hj => absurd hj (Nat.not_lt_zero j), le_rfl,
    fun h => absurd h (Nat.lt_irrefl 0)⟩

theorem colAfter_pos (e : Stops) (pre : Str) : 0 < colAfter e pre :=
  Nat.lt_of_lt_of_le Nat.one_pos (Nat.le_add_right _ _)

/-- After a stop comes a greater one, or zero. -/
theorem phase_next (hat : e.At tabtbl q) {t : ℕ} (hpos : 0 < t) (ht : t ≤ e.size)
    (hcol : colAfter e out = e.get t) (hbelow : ∀ j < t, e.get j ≤ colAfter e out)
    (hcounted : e.counted = 0) :
    Phase tabtbl q e out (q + t + 1) (colAfter e out) (colAfter e out + 1) := by
  rcases Nat.lt_or_eq_of_le ht with hlt | rfl
  · have hnext := Stops.get_lt (e := e) hpos (Nat.lt_succ_self t) hlt
    refine .inr ⟨t + 1, hlt, rfl, fun j hj => ?_, hcol ▸ hnext, fun _ => hcounted⟩
    rcases Nat.lt_succ_iff_lt_or_eq.mp hj with hj' | rfl
    · exact hbelow j hj'
    · exact hcol.ge
  · have hentry : tabtbl (q + e.size + 1) = e.get (e.size + 1) := hat _ le_rfl
    rw [Stops.get_end] at hentry
    exact .inl (hentry ▸ colAfter_pos e out)

/-- The second entry comes up in the first column. -/
theorem phase_first (hat : e.At tabtbl q) (hcol : colAfter e out = 1) :
    Phase tabtbl q e out (q + 1) (colAfter e out + 1) (colAfter e out + 1) := by
  rw [hcol]
  by_cases hsize : 0 < e.size
  · have hentry : tabtbl (q + 1) = e.get 1 := hat 1 (Nat.succ_le_succ (Nat.zero_le _))
    by_cases hcounted : e.counted = 0
    · have hgap := Stops.get_after_counted (e := e) (hcounted ▸ hsize)
      rw [hcounted] at hgap
      refine .inr ⟨1, hsize, rfl, fun j hj => ?_, hgap, fun _ => hcounted⟩
      obtain rfl := Nat.lt_one_iff.mp hj
      exact hcol.ge
    · have hself := Stops.get_counted (e := e) Nat.one_pos (Nat.pos_of_ne_zero hcounted)
      exact .inl (by omega)
  · have hentry : tabtbl (q + (e.size + 1)) = e.get (e.size + 1) := hat _ le_rfl
    rw [Stops.get_end, Nat.eq_zero_of_not_pos hsize] at hentry
    exact .inl (by rw [hentry]; exact Nat.succ_pos 1)

/-- The comparison at the beginning of a turn. -/
theorem phase_check (hat : e.At tabtbl q)
    (h : Phase tabtbl q e out tabs (colAfter e out) (colAfter e out)) :
    Phase tabtbl q e out (if colAfter e out = tabtbl tabs then tabs + 1 else tabs)
      (colAfter e out + 1) (colAfter e out + 1) := by
  rcases h with hlt | ⟨t, ht, rfl, hbelow, hle, hcounted⟩
  · rw [if_neg (by omega)]
    exact .inl (by omega)
  · rw [hat t (Nat.le_succ_of_le ht)]
    split_ifs with heq
    · cases t with
      | zero => exact phase_first hat heq
      | succ t =>
        have hpos := Nat.succ_pos t
        exact (phase_next hat hpos ht heq hbelow (hcounted hpos)).mono (Nat.le_succ _) le_rfl le_rfl
    · exact .inr ⟨t, ht, rfl, hbelow, by omega, hcounted⟩

/-- Blanks up to a stop become a tab. -/
theorem phase_blank (hat : e.At tabtbl q) {base : Str} {col : ℕ} (hcol : colAfter e base ≤ col)
    (h : Phase tabtbl q e base tabs (col + 1) (col + 1)) (heq : col + 1 = tabtbl tabs) :
    cell e (colAfter e base) 9 = List.replicate (col + 1 - colAfter e base) 32 ∧
      (colAfter e base < e.goal e.size ∧ e.counted ≤ base.length) ∧
        Phase tabtbl q e (base ++ [9]) (tabs + 1) (col + 1) (col + 2) := by
  rcases h with hlt | ⟨t, ht, rfl, hbelow, hle, hcounted⟩
  · omega
  · have hget : tabtbl (q + t) = e.get t := hat t (Nat.le_succ_of_le ht)
    rw [hget] at heq
    have hpos : 0 < t := by
      refine Nat.pos_of_ne_zero fun h0 => ?_
      rw [h0, Stops.get_zero] at heq
      have : 1 ≤ colAfter e base := Nat.le_add_right _ _
      omega
    have hcell : cell e (colAfter e base) 9 = List.replicate (col + 1 - colAfter e base) 32 := by
      unfold cell
      rw [if_pos rfl, Stops.next_eq_some ht hbelow (by omega), heq]
    have hcol' : colAfter e (base ++ [9]) = col + 1 := by
      rw [colAfter_concat, hcell, List.length_replicate]
      omega
    have hgoal := (Stops.get_le_goal (e := e) t).trans (Stops.goal_le ht)
    refine ⟨hcell, ⟨by omega, ?_⟩, ?_⟩
    · rw [hcounted hpos]
      exact Nat.zero_le _
    · have hnext : Phase tabtbl q e (base ++ [9]) _ _ _ :=
        phase_next hat hpos ht (hcol'.trans heq)
          (fun j hj => (hbelow j hj).trans (colAfter_le e _ _)) (hcounted hpos)
      rwa [hcol'] at hnext

theorem phase_gap (hat : e.At tabtbl q) {base : Str} {col : ℕ}
    (h : Phase tabtbl q e base tabs (col + 1) (col + 1)) (hne : col + 1 ≠ tabtbl tabs) :
    Phase tabtbl q e base tabs (col + 1) (col + 2) := by
  rcases h with hlt | ⟨t, ht, rfl, hbelow, hle, hcounted⟩
  · exact .inl hlt
  · rw [hat t (Nat.le_succ_of_le ht)] at hne
    exact .inr ⟨t, ht, rfl, hbelow, by omega, hcounted⟩

/-! ### The loop over blanks -/

/-- What has been made of what has been read, and what is left of the line. -/
structure Packed (p₀ : ℕ) (e : Stops) (pre rem out : Str) (m : Mach) : Prop where
  pfirst : m.pfirst = p₀ + pre.length
  tlast : m.tlast = p₀ + out.length
  logcol : m.logcol = 1 + pre.length
  text : Has m.work p₀ out
  left : Has m.work m.pfirst rem
  room : out.length ≤ pre.length
  expand : expand e out = pre
  tabbed : Tabbed e [] out
  noBack : 8 ∉ out

theorem Packed.col (h : Packed p₀ e pre rem out m) : colAfter e out = m.logcol := by
  rw [h.logcol, colAfter, h.expand]

theorem expand_blanks (e : Stops) (base : Str) (k : ℕ) :
    expand e (base ++ List.replicate k 32) = expand e base ++ List.replicate k 32 := by
  induction k with
  | zero => simp
  | succ k ih =>
    rw [List.replicate_succ', ← List.append_assoc, expand_concat, ih, cell, if_neg (by decide),
      List.append_assoc]

/-- A character that is neither a tab nor a backspace stays. -/
theorem Packed.char {c : UInt8} (h : Packed p₀ e pre (c :: rem) out m) (h8 : c ≠ 8) (h9 : c ≠ 9)
    (t : ℕ) :
    Packed p₀ e (pre ++ [c]) rem (out ++ [c])
      { work := store m.work m.tlast c, pfirst := m.pfirst + 1, tlast := m.tlast + 1, tabs := t,
        logcol := m.logcol + 1 } := by
  obtain ⟨-, hleft⟩ := has_cons.mp h.left
  have hpfirst := h.pfirst
  have htlast := h.tlast
  have hlogcol := h.logcol
  have hroom := h.room
  refine ⟨?_, ?_, ?_, ?_, ?_, ?_, ?_, ?_, ?_⟩
  · simp only [List.length_append, List.length_singleton]
    omega
  · simp only [List.length_append, List.length_singleton]
    omega
  · simp only [List.length_append, List.length_singleton]
    omega
  · have hconcat := h.text.concat c
    rwa [← htlast] at hconcat
  · exact hleft.stored c (.inl (by omega))
  · simpa using hroom
  · rw [expand_concat, h.expand, cell, if_neg h9]
  · exact (tabbed_append out [c]).mpr ⟨h.tabbed, fun hc => absurd hc h9, trivial⟩
  · intro hmem
    rcases List.mem_append.mp hmem with hmem | hmem
    · exact h.noBack hmem
    · exact h8 (List.mem_singleton.mp hmem).symm

/-- A tab in the place of the blanks. -/
theorem Packed.tab {base : Str} {k : ℕ}
    (h : Packed p₀ e pre rem (base ++ List.replicate (k + 1) 32) m)
    (hcell : cell e (colAfter e base) 9 = List.replicate (k + 1) 32)
    (hok : colAfter e base < e.goal e.size ∧ e.counted ≤ base.length) (t : ℕ) :
    Packed p₀ e pre rem (base ++ [9])
      { m with work := store m.work (p₀ + base.length) 9, tlast := p₀ + base.length + 1,
               tabs := t } := by
  have hroom := h.room
  have hpfirst := h.pfirst
  simp only [List.length_append, List.length_replicate] at hroom
  refine ⟨hpfirst, ?_, h.logcol, ?_, ?_, ?_, ?_, ?_, ?_⟩
  · simp only [List.length_append, List.length_singleton]
    omega
  · exact (has_append.mp h.text).1.concat 9
  · exact h.left.stored 9 (.inl (by omega))
  · simp only [List.length_append, List.length_singleton]
    omega
  · have hexp := h.expand
    rw [expand_blanks] at hexp
    rw [expand_concat, hcell, hexp]
  · exact (tabbed_append base [9]).mpr ⟨((tabbed_append _ _).mp h.tabbed).1, fun _ => hok, trivial⟩
  · intro hmem
    rcases List.mem_append.mp hmem with hmem | hmem
    · exact h.noBack (List.mem_append_left _ hmem)
    · exact absurd (List.mem_singleton.mp hmem) (by decide)

theorem Packed.blank {base : Str} {k : ℕ}
    (h : Packed p₀ e pre (32 :: rem) (base ++ List.replicate k 32) m) :
    colAfter e base + k = m.logcol ∧
      Packed p₀ e (pre ++ [32]) rem (base ++ List.replicate (k + 1) 32)
        { m.put 32 with pfirst := m.pfirst + 1, logcol := m.logcol + 1 } := by
  constructor
  · rw [← h.col, colAfter, colAfter, expand_blanks, List.length_append, List.length_replicate,
      Nat.add_assoc]
  · have hchar := h.char (by decide) (by decide) m.tabs
    rwa [List.append_assoc, ← List.replicate_succ'] at hchar

theorem getLast?_tail {c d : UInt8} {l : Str} (h : (c :: l).getLast? = some d) (hne : c ≠ d) :
    l.getLast? = some d := by
  cases l with
  | nil => exact absurd (Option.some.inj h) hne
  | cons c' l => rwa [List.getLast?_cons_cons] at h

/-- The loop ends before the first character that is not a blank. -/
theorem blanks_spec (hat : e.At tabtbl q) (base : Str) (k : ℕ)
    (h : Packed p₀ e pre (32 :: rem) (base ++ List.replicate k 32) m)
    (hphase : Phase tabtbl q e base m.tabs (m.logcol + 1) (m.logcol + 1)) (hn : rem.length ≤ n)
    (hlast : rem.getLast? = some 10) :
    ∃ mid rem' out' m', rem = mid ++ rem' ∧
      Mach.blanks tabtbl n (p₀ + base.length) { m with pfirst := m.pfirst + 1 } = m' ∧
      Packed p₀ e (pre ++ 32 :: mid) rem' out' m' ∧
      Phase tabtbl q e out' m'.tabs m'.logcol m'.logcol := by
  induction rem generalizing pre base k m n with
  | nil => cases hlast
  | cons d rem ih =>
    obtain ⟨n, rfl⟩ := Nat.exists_eq_succ_of_ne_zero (Nat.ne_of_gt ((Nat.succ_pos _).trans_le hn))
    -- after this blank, whether it has become a tab or not
    have hrest (base' : Str) (k' : ℕ) (m' : Mach)
        (h' : Packed p₀ e (pre ++ [32]) (d :: rem) (base' ++ List.replicate k' 32) m')
        (hphase' : Phase tabtbl q e base' m'.tabs m'.logcol (m'.logcol + 1)) :
        ∃ mid rem' out' m'', d :: rem = mid ++ rem' ∧
          (if m'.work m'.pfirst = 32 then
            Mach.blanks tabtbl n (p₀ + base'.length) { m' with pfirst := m'.pfirst + 1 }
          else m') = m'' ∧
          Packed p₀ e (pre ++ 32 :: mid) rem' out' m'' ∧
          Phase tabtbl q e out' m''.tabs m''.logcol m''.logcol := by
      have hd := (has_cons.mp h'.left).1
      rw [hd]
      by_cases hblank : d = 32
      · subst hblank
        rw [if_pos rfl]
        obtain ⟨mid, rem', out', m'', rfl, hm, hpacked, hph⟩ :=
          ih base' k' h' (hphase'.mono (Nat.le_succ _) le_rfl le_rfl) (Nat.le_of_succ_le_succ hn)
            (getLast?_tail hlast (by decide))
        refine ⟨32 :: mid, rem', out', m'', rfl, hm, ?_, hph⟩
        rwa [List.append_assoc] at hpacked
      · rw [if_neg hblank]
        refine ⟨[], d :: rem, _, m', rfl, rfl, h', ?_⟩
        exact hphase'.mono le_rfl (Nat.le_succ _) (colAfter_le e _ _)
    obtain ⟨hcol, hblank⟩ := h.blank
    rw [Nat.succ_eq_add_one, Mach.blanks]
    by_cases heq : m.logcol + 1 = tabtbl m.tabs
    · obtain ⟨hcell, hok, hph⟩ := phase_blank hat (by omega) hphase heq
      have hwidth : m.logcol + 1 - colAfter e base = k + 1 := by omega
      rw [hwidth] at hcell
      have htab := hblank.tab hcell hok (m.tabs + 1)
      have hgo := hrest (base ++ [9]) 0 _ (by simpa using htab) hph
      rw [List.length_append, List.length_singleton] at hgo
      simp only [Mach.put, heq, ↓reduceIte] at hgo ⊢
      exact hgo
    · have hgo := hrest base (k + 1) _ hblank (phase_gap hat hphase heq)
      simp only [Mach.put, heq, ↓reduceIte] at hgo ⊢
      exact hgo

/-! ### The line -/

theorem turn_spec (hat : e.At tabtbl q) {c : UInt8} (h : Packed p₀ e pre (c :: rem) out m)
    (hphase : Phase tabtbl q e out m.tabs m.logcol m.logcol) (h8 : c ≠ 8) (h9 : c ≠ 9)
    (hlast : (c :: rem).getLast? = some 10) (hn : rem.length ≤ n) :
    ∃ mid rem' out', rem = mid ++ rem' ∧
      Packed p₀ e (pre ++ c :: mid) rem' out' (m.outputturn tabtbl n) ∧
      Phase tabtbl q e out' (m.outputturn tabtbl n).tabs (m.outputturn tabtbl n).logcol
        (m.outputturn tabtbl n).logcol := by
  obtain ⟨t, htabs⟩ : ∃ t, t = if m.logcol = tabtbl m.tabs then m.tabs + 1 else m.tabs := ⟨_, rfl⟩
  have hcheck : (if m.logcol = tabtbl m.tabs then { m with tabs := m.tabs + 1 } else m) =
      { m with tabs := t } := by
    rw [htabs]
    split_ifs <;> rfl
  have hph : Phase tabtbl q e out t (m.logcol + 1) (m.logcol + 1) := by
    rw [← h.col] at hphase
    have := phase_check hat hphase
    rw [h.col] at this
    rwa [htabs]
  have hc := (has_cons.mp h.left).1
  have hpacked : Packed p₀ e pre (c :: rem) out { m with tabs := t } :=
    ⟨h.pfirst, h.tlast, h.logcol, h.text, h.left, h.room, h.expand, h.tabbed, h.noBack⟩
  by_cases hblank : c = 32
  · subst hblank
    have hmark : m.tlast = p₀ + out.length := h.tlast
    have hturn : m.outputturn tabtbl n =
        Mach.blanks tabtbl n (p₀ + out.length) { m with tabs := t, pfirst := m.pfirst + 1 } := by
      unfold Mach.outputturn
      simp only [hcheck, hc]
      rw [if_neg (by decide), if_true, hmark]
    obtain ⟨mid, rem', out', m', hrem, hm, hpacked', hphase'⟩ :=
      blanks_spec hat out 0 (by simpa using hpacked) hph hn (getLast?_tail hlast (by decide))
    rw [hturn]
    subst hm
    exact ⟨mid, rem', out', hrem, hpacked', hphase'⟩
  · have hturn : m.outputturn tabtbl n =
        { work := store m.work m.tlast c, pfirst := m.pfirst + 1, tlast := m.tlast + 1, tabs := t,
          logcol := m.logcol + 1 } := by
      unfold Mach.outputturn
      simp only [hcheck, hc]
      rw [if_neg h8, if_neg hblank]
      rfl
    rw [hturn]
    exact ⟨[], rem, _, rfl, h.char h8 h9 t, hph.mono le_rfl le_rfl (colAfter_le e _ _)⟩

theorem outputloop_spec (hat : e.At tabtbl q) {plast : ℕ}
    (h : Packed p₀ e pre rem out m) (hphase : Phase tabtbl q e out m.tabs m.logcol m.logcol)
    (h8 : 8 ∉ rem) (h9 : 9 ∉ rem) (hlast : rem ≠ [] → rem.getLast? = some 10)
    (hplast : plast + 1 = m.pfirst + rem.length) (hn : rem.length ≤ n) :
    ∃ out', Packed p₀ e (pre ++ rem) [] out' (m.outputloop tabtbl plast n) := by
  induction n generalizing pre rem out m with
  | zero =>
    obtain rfl := List.eq_nil_of_length_eq_zero (Nat.le_zero.mp hn)
    rw [List.append_nil]
    exact ⟨out, h⟩
  | succ n ih =>
    rw [Mach.outputloop]
    cases rem with
    | nil =>
      rw [if_neg (by simp at hplast; omega), List.append_nil]
      exact ⟨out, h⟩
    | cons c rem =>
      have hlen : (c :: rem).length = rem.length + 1 := rfl
      rw [if_pos (by omega)]
      obtain ⟨mid, rem', out', rfl, hpacked, hphase'⟩ :=
        turn_spec (n := n + 1) hat h hphase (fun hc => h8 (hc ▸ List.mem_cons_self))
          (fun hc => h9 (hc ▸ List.mem_cons_self)) (hlast (List.cons_ne_nil _ _)) (by omega)
      have hpf := hpacked.pfirst
      have hpf₀ := h.pfirst
      simp only [List.length_append, List.length_cons] at hpf hplast hlen hn
      obtain ⟨out'', hout⟩ := ih hpacked hphase'
        (fun hmem => h8 (List.mem_cons_of_mem _ (List.mem_append_right _ hmem)))
        (fun hmem => h9 (List.mem_cons_of_mem _ (List.mem_append_right _ hmem)))
        (fun hne => by
          have hl := hlast (List.cons_ne_nil _ _)
          rwa [← List.cons_append, List.getLast?_append_of_ne_nil _ hne] at hl)
        (by omega) (by omega)
      refine ⟨out'', ?_⟩
      rwa [List.append_assoc] at hout

/-- A line without tabs and backspaces is restored. -/
theorem restores (hat : e.At tabtbl q) {a : Area} {l : Str} (h : IsText a (l ++ [10]))
    (hlen : l.length ≤ MAXLINE) (h8 : 8 ∉ l) (h9 : 9 ∉ l) :
    ∃ a', inputtabs tabtbl q (outputtabs tabtbl q a) = some a' ∧ IsText a' (l ++ [10]) := by
  have hmem (c : UInt8) (hc : c ∉ l) (hne : c ≠ 10) : c ∉ l ++ [10] := by
    simpa [hc] using hne
  have hplast := h.plast
  have hstart : Packed a.pfirst e [] (l ++ [10]) [] ⟨a.work, a.pfirst, a.pfirst, q, 1⟩ :=
    ⟨rfl, rfl, rfl, has_nil _ _, h.text, le_rfl, rfl, trivial, List.not_mem_nil⟩
  obtain ⟨out, hout⟩ := outputloop_spec (n := a.plast + 1 - a.pfirst) hat hstart phase_start
    (hmem 8 h8 (by decide)) (hmem 9 h9 (by decide)) (fun _ => List.getLast?_concat) hplast
    (by omega)
  rw [List.nil_append] at hout
  have hexp := hout.expand
  have hne : out ≠ [] := by
    rintro rfl
    exact absurd hexp.symm (List.append_ne_nil_of_right_ne_nil _ (List.cons_ne_nil _ _))
  have hpos := List.length_pos_iff.mpr hne
  have htext : IsText (outputtabs tabtbl q a) out := by
    refine ⟨hout.text, ?_⟩
    have htlast := hout.tlast
    simp only [outputtabs]
    omega
  have hroom := hout.room
  simp only [List.length_append, List.length_singleton] at hroom
  have hlen' : (expand e out).length ≤ NCOLS + 1 := by
    rw [hexp, List.length_append, List.length_singleton]
    exact Nat.succ_le_succ hlen
  have hne' : expand e out ≠ [] := by
    rw [hexp]
    exact List.append_ne_nil_of_right_ne_nil _ (List.cons_ne_nil _ _)
  obtain ⟨a', ha', htext'⟩ :=
    inputtabs_tabbed hat htext (by omega) hout.tabbed hout.noBack hlen' hne'
  exact ⟨a', ha', hexp ▸ htext'⟩

end Unitas.Newform
