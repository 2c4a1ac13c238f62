import Unitas.Cut.List

/-! `cut -c` and `cut -b`: one pass over each line with one index into the table. -/
namespace Unitas.Cut

/-- The variables that `cfunc` and `bfunc` reset for each line. -/
structure Cursor where
  pos : ℕ
  inrange : Bool
  rndx : ℕ

def Cursor.start : Cursor := ⟨0, false, 0⟩

/-- Whether the next position is in a range, when `r` is the entry at the index. -/
def Cursor.next (r : Range) (s : Cursor) : Bool × Cursor :=
  let pos := s.pos + 1
  if s.inrange || pos = r.rstart then
    (true, if pos = r.rend then ⟨pos, false, s.rndx + 1⟩ else ⟨pos, true, s.rndx⟩)
  else (false, ⟨pos, false, s.rndx⟩)

/-- One character: what is printed for it. `pos` must not overflow, and `rndx` not leave the
arrays. -/
def putSelected (t : Table) (c : UInt8) (s : Cursor) : Option (List UInt8 × Cursor) :=
  if c = 10 then some ([10], .start)
  else if s.pos = INT_MAX then none
  else (t.get s.rndx).map fun r => (if (s.next r).1 then [c] else [], (s.next r).2)

def charLoop (t : Table) : Cursor → List UInt8 → Option (List UInt8)
  | _, [] => some []
  | s, c :: cs => (putSelected t c s).bind fun (printed, s) => (charLoop t s cs).map (printed ++ ·)

def cfunc (t : Table) (input : List UInt8) : Option (List UInt8) := charLoop t .start input

/-- The same as `cfunc`. -/
def bfunc (t : Table) (input : List UInt8) : Option (List UInt8) := charLoop t .start input

/-- `bnfunc`, where `wctomb` tells the length of a character, if it is one. -/
def bnfunc (wctomb : UInt8 → Option ℕ) (t : Table) : Cursor → List UInt8 → Option (List UInt8)
  | _, [] => some []
  | s, c :: cs =>
    if c = 10 then (bnfunc wctomb t .start cs).map (10 :: ·)
    else if t.nranges ≤ s.rndx then bnfunc wctomb t s cs
    else do
      let pos := s.pos + (← wctomb c)
      if INT_MAX < pos then none
      let r ← t.get s.rndx
      if s.inrange || r.rstart ≤ pos then
        if pos > r.rend then bnfunc wctomb t ⟨pos, false, s.rndx + 1⟩ cs
        else (bnfunc wctomb t ⟨pos, true, s.rndx⟩ cs).map (c :: ·)
      else bnfunc wctomb t ⟨pos, false, s.rndx⟩ cs

/-- The characters whose positions are selected, when the first one is at `pos + 1`. -/
def selectFrom (sel : ℕ → Bool) (pos : ℕ) (line : List UInt8) : List UInt8 :=
  (line.zipIdx (pos + 1)).filterMap fun (c, i) => if sel i then some c else none

/-- The selected characters of each line. -/
def cutLines (sel : ℕ → Bool) (input : List UInt8) : List UInt8 :=
  [10].intercalate ((input.splitOn 10).map (selectFrom sel 0))

/-- The ranges before the index are over. The one at the index has begun, or lies ahead with those
after it. -/
structure At (t : Table) (s : Cursor) (done todo : List Range) : Prop where
  live : t.live = done ++ todo
  rndx : s.rndx = done.length
  behind : ∀ r ∈ done, r.rend ≤ s.pos
  ahead : s.inrange = false → ∀ r ∈ todo, s.pos < r.rstart
  inside : s.inrange = true → ∃ r rs, todo = r :: rs ∧ r.rstart ≤ s.pos ∧ s.pos < r.rend

theorem at_start {t : Table} (ht : t.Ok) : At t .start [] t.live :=
  ⟨rfl, rfl, fun _ h => absurd h List.not_mem_nil, fun _ r hr => (ht.ranges r hr).1,
    fun h => absurd h Bool.false_ne_true⟩

/-- Positions beyond the last range. -/
theorem At.not_covers {t : Table} {s : Cursor} {done : List Range} (hs : At t s done []) {pos : ℕ}
    (hpos : s.pos < pos) : ¬ Covers t.live pos := by
  rw [hs.live, List.append_nil]
  rintro ⟨r, hr, -, hle⟩
  have := hs.behind r hr
  omega

theorem At.get {t : Table} {s : Cursor} {done rs : List Range} {r : Range}
    (hs : At t s done (r :: rs)) : t.get s.rndx = some r := by
  rw [Table.get, hs.live, hs.rndx, List.append_assoc,
    List.getElem?_append_right (Nat.le_refl _), Nat.sub_self]
  rfl

/-- The next position is in a range when the table holds it. -/
theorem next_spec {t : Table} (ht : t.Ok) {s : Cursor} {done rs : List Range} {r : Range}
    (hs : At t s done (r :: rs)) :
    ((s.next r).1 = true ↔ Covers t.live (s.pos + 1)) ∧ (s.next r).2.pos = s.pos + 1 ∧
      ∃ done' todo', At t (s.next r).2 done' todo' := by
  obtain ⟨hlive, hrndx, hover, hahead, hinside⟩ := hs
  have hsorted := ht.sorted
  have hranges := ht.ranges
  rw [hlive] at hsorted hranges ⊢
  have hr := hranges r (List.mem_append_right _ List.mem_cons_self)
  have hlater : ∀ u ∈ rs, r.rend < u.rstart :=
    (List.pairwise_cons.mp (List.pairwise_append.mp hsorted).2.1).1
  have hover' : ∀ u ∈ done, u.rend ≤ s.pos + 1 := fun u hu => (hover u hu).trans (Nat.le_succ _)
  by_cases hin : (s.inrange || decide (s.pos + 1 = r.rstart)) = true
  · have hhold : r.rstart ≤ s.pos + 1 ∧ s.pos + 1 ≤ r.rend := by
      rw [Bool.or_eq_true, decide_eq_true_eq] at hin
      rcases hin with h | h
      · obtain ⟨u, us, heq, h1, h2⟩ := hinside h
        obtain ⟨rfl, -⟩ := List.cons.inj heq
        omega
      · omega
    have hcov : Covers (done ++ r :: rs) (s.pos + 1) :=
      ⟨r, List.mem_append_right _ List.mem_cons_self, hhold⟩
    by_cases hend : s.pos + 1 = r.rend
    · have hnext : s.next r = (true, ⟨s.pos + 1, false, s.rndx + 1⟩) := by
        rw [Cursor.next]
        exact (if_pos hin).trans (by rw [if_pos hend])
      rw [hnext]
      refine ⟨iff_of_true rfl hcov, rfl, done ++ [r], rs, ?_, ?_, fun u hu => ?_, fun _ u hu => ?_,
        fun h => absurd h Bool.false_ne_true⟩
      · rw [hlive, List.append_assoc, List.singleton_append]
      · rw [List.length_append, ← hrndx]
        rfl
      · rcases List.mem_append.mp hu with hu | hu
        · exact hover' u hu
        · rw [List.mem_singleton.mp hu]
          exact hend.ge
      · have := hlater u hu
        dsimp only
        omega
    · have hnext : s.next r = (true, ⟨s.pos + 1, true, s.rndx⟩) := by
        rw [Cursor.next]
        exact (if_pos hin).trans (by rw [if_neg hend])
      rw [hnext]
      refine ⟨iff_of_true rfl hcov, rfl, done, r :: rs, hlive, hrndx, hover',
        fun h => absurd h.symm Bool.false_ne_true, fun _ => ⟨r, rs, rfl, hhold.1, ?_⟩⟩
      dsimp only
      omega
  · have hnext : s.next r = (false, ⟨s.pos + 1, false, s.rndx⟩) := by
      rw [Cursor.next]
      exact if_neg hin
    rw [Bool.or_eq_true, not_or, decide_eq_true_eq] at hin
    have hahead := hahead (by simpa using hin.1)
    have hrahead := hahead r List.mem_cons_self
    rw [hnext]
    refine ⟨iff_of_false Bool.false_ne_true ?_, rfl, done, r :: rs, hlive, hrndx, hover',
      fun _ u hu => ?_, fun h => absurd h Bool.false_ne_true⟩
    · rintro ⟨u, hu, h1, h2⟩
      rcases List.mem_append.mp hu with hu | hu
      · have := hover u hu
        omega
      · rcases List.mem_cons.mp hu with rfl | hu
        · omega
        · have := hlater u hu
          omega
    · dsimp only
      rcases List.mem_cons.mp hu with rfl | hu
      · omega
      · have := hlater u hu
        omega

/-- One character is printed when a range holds its position. -/
theorem putSelected_spec {t : Table} (ht : t.Ok) {s : Cursor} {done todo : List Range}
    (hroom : todo = [] → t.stale ≠ []) (hs : At t s done todo) {c : UInt8} (hc : c ≠ 10)
    (hpos : s.pos < INT_MAX) {b : Bool} (hb : b = true ↔ Covers t.live (s.pos + 1)) :
    ∃ s' done' todo', putSelected t c s = some (if b then [c] else [], s') ∧
      s'.pos = s.pos + 1 ∧ At t s' done' todo' := by
  have hput : ∀ r, t.get s.rndx = some r →
      putSelected t c s = some (if (s.next r).1 then [c] else [], (s.next r).2) := by
    intro r hr
    rw [putSelected, if_neg hc, if_neg (by omega), hr]
    rfl
  cases todo with
  | nil =>
    -- past the last range: what is left behind it never starts here
    have hbfalse : b = false := by
      by_contra h
      exact hs.not_covers (Nat.lt_succ_self s.pos) (hb.mp (by simpa using h))
    obtain ⟨hlive, hrndx, hover, hahead, hinside⟩ := hs
    have hout : s.inrange = false := by
      by_contra h
      obtain ⟨r, rs, hnil, -⟩ := hinside (by simpa using h)
      exact absurd hnil (List.cons_ne_nil _ _).symm
    obtain ⟨r, rs, hstale⟩ := List.exists_cons_of_ne_nil (hroom rfl)
    have hget : t.get s.rndx = some r := by
      rw [Table.get, hlive, hrndx, hstale, List.append_nil,
        List.getElem?_append_right (Nat.le_refl _), Nat.sub_self]
      rfl
    have hr : s.pos + 1 ≠ r.rstart := by
      rcases ht.stale r (hstale ▸ List.mem_cons_self) with rfl | hmem
      · exact Nat.succ_ne_zero _
      · have h1 := ht.ranges r hmem
        rw [hlive, List.append_nil] at hmem
        have h2 := hover r hmem
        omega
    have hnext : s.next r = (false, ⟨s.pos + 1, false, s.rndx⟩) := by
      rw [Cursor.next]
      exact if_neg (by simpa [hout] using hr)
    refine ⟨⟨s.pos + 1, false, s.rndx⟩, done, [], ?_, rfl, hlive, hrndx, fun r hr => ?_,
      fun _ r hr => absurd hr List.not_mem_nil, fun h => absurd h Bool.false_ne_true⟩
    · rw [hput r hget, hnext, hbfalse]
    · exact (hover r hr).trans (Nat.le_succ _)
  | cons r rs =>
    obtain ⟨hsel, hpos', done', todo', hs'⟩ := next_spec ht hs
    refine ⟨(s.next r).2, done', todo', ?_, hpos', hs'⟩
    have hbeq : (s.next r).1 = b := Bool.eq_iff_iff.mpr (hsel.trans hb.symm)
    rw [hput r hs.get, hbeq]

theorem selectFrom_cons (sel : ℕ → Bool) (pos : ℕ) (c : UInt8) (line : List UInt8) :
    selectFrom sel pos (c :: line) =
      (if sel (pos + 1) then [c] else []) ++ selectFrom sel (pos + 1) line := by
  rw [selectFrom, List.zipIdx_cons, List.filterMap_cons, selectFrom]
  cases h : sel (pos + 1)
  · simp [h]
  · simp [h]

theorem append_intercalate (sep l l' : List UInt8) (ls : List (List UInt8)) :
    l ++ sep.intercalate (l' :: ls) = sep.intercalate ((l ++ l') :: ls) := by
  cases ls with
  | nil => simp
  | cons l'' ls => rw [List.intercalate_cons_cons, List.intercalate_cons_cons, List.append_assoc,
      List.append_assoc, List.append_assoc]

/-- The next `n` characters of a line, after `pos` of them, keep `pos` an `int` and the index within
the arrays: when these are full, the line ends with the last range. -/
def Fits (t : Table) (pos n : ℕ) : Prop :=
  pos + n ≤ INT_MAX ∧ (t.stale = [] → n = 0 ∨ ∃ r ∈ t.live, pos + n ≤ r.rend)

instance (t : Table) (pos n : ℕ) : Decidable (Fits t pos n) :=
  inferInstanceAs (Decidable (_ ∧ (_ → _)))

theorem fits_iff {t : Table} (hroom : t.stale ≠ []) (pos n : ℕ) :
    Fits t pos n ↔ pos + n ≤ INT_MAX :=
  and_iff_left fun h => absurd h hroom

theorem fits_zero (t : Table) {pos : ℕ} (hpos : pos ≤ INT_MAX) : Fits t pos 0 :=
  ⟨hpos, fun _ => Or.inl rfl⟩

/-- Past the last range of arrays that are full, `rndx` leaves them. -/
theorem putSelected_full {t : Table} (hfull : t.stale = []) {s : Cursor} {done : List Range}
    (hs : At t s done []) {c : UInt8} (hc : c ≠ 10) : putSelected t c s = none := by
  have hget : t.get s.rndx = none := by
    rw [Table.get, hs.live, hs.rndx, hfull, List.append_nil, List.append_nil]
    exact List.getElem?_eq_none (Nat.le_refl _)
  rw [putSelected, if_neg hc, hget]
  split_ifs <;> rfl

/-- Whether a line fits is known one character later. -/
theorem fits_succ {t : Table} {s : Cursor} {done todo : List Range} (hs : At t s done todo)
    (ht : t.Ok) (hroom : todo = [] → t.stale ≠ []) (n : ℕ) :
    Fits t s.pos (n + 1) ↔ s.pos < INT_MAX ∧ Fits t (s.pos + 1) n := by
  unfold Fits
  rw [show s.pos + (n + 1) = s.pos + 1 + n by omega]
  cases todo with
  | nil =>
    simp only [hroom rfl, false_implies, and_true]
    omega
  | cons r rs =>
    have hmem : r ∈ t.live := by
      rw [hs.live]
      exact List.mem_append_right _ List.mem_cons_self
    have hr : s.pos + 1 ≤ r.rend := by
      have hrange := ht.ranges r hmem
      cases hin : s.inrange with
      | false =>
        have := hs.ahead hin r List.mem_cons_self
        omega
      | true =>
        obtain ⟨u, us, heq, -, hlt⟩ := hs.inside hin
        obtain ⟨rfl, -⟩ := List.cons.inj heq
        omega
    constructor
    · rintro ⟨h1, h2⟩
      exact ⟨by omega, h1, fun h => Or.inr ((h2 h).resolve_left (Nat.succ_ne_zero n))⟩
    · rintro ⟨-, h1, h2⟩
      refine ⟨h1, fun h => Or.inr ?_⟩
      rcases h2 h with rfl | h
      · exact ⟨r, hmem, hr⟩
      · exact h

/-- The rest of the input, when `pos` characters of its first line have been read. -/
theorem charLoop_eq {t : Table} (ht : t.Ok) {sel : ℕ → Bool}
    (hsel : ∀ pos, 1 ≤ pos → pos ≤ INT_MAX → (sel pos = true ↔ Covers t.live pos))
    (cs : List UInt8) : ∀ s done todo l ls, At t s done todo → s.pos ≤ INT_MAX →
      cs.splitOn 10 = l :: ls →
      charLoop t s cs =
        if Fits t s.pos l.length ∧ ∀ l' ∈ ls, Fits t 0 l'.length then
          some ([10].intercalate (selectFrom sel s.pos l :: ls.map (selectFrom sel 0)))
        else none := by
  induction cs with
  | nil =>
    intro s done todo l ls _ hpos hsplit
    obtain ⟨rfl, rfl⟩ := List.cons.inj hsplit
    rw [if_pos ⟨fits_zero t hpos, fun _ h => absurd h List.not_mem_nil⟩]
    rfl
  | cons c cs ih =>
    intro s done todo l ls hs hpos hsplit
    obtain ⟨g, gs, hg⟩ := List.exists_cons_of_ne_nil (List.splitOn_ne_nil 10 cs)
    rw [List.splitOn_cons_eq_if_modifyHead, hg] at hsplit
    by_cases hc : c = 10
    · subst hc
      obtain ⟨rfl, rfl⟩ := List.cons.inj hsplit
      rw [charLoop, putSelected, if_pos rfl, Option.bind_some]
      dsimp only
      rw [ih .start [] t.live g gs (at_start ht) (Nat.zero_le _) hg]
      have hiff : (Fits t s.pos ([] : List UInt8).length ∧
          ∀ l' ∈ g :: gs, Fits t 0 l'.length) ↔
          Fits t Cursor.start.pos g.length ∧ ∀ l' ∈ gs, Fits t 0 l'.length := by
        rw [List.forall_mem_cons]
        exact and_iff_right (fits_zero t hpos)
      split_ifs with h1 h2 h2
      · rw [Option.map_some, List.map_cons, List.intercalate_cons_cons]
        rfl
      · exact absurd (hiff.mpr h1) h2
      · exact absurd (hiff.mp h2) h1
      · rfl
    · rw [if_neg (by simpa using hc)] at hsplit
      obtain ⟨rfl, rfl⟩ := List.cons.inj hsplit
      rw [charLoop, List.length_cons]
      by_cases hfull : todo = [] ∧ t.stale = []
      · obtain ⟨rfl, hfull⟩ := hfull
        have hnot : ¬ Fits t s.pos (g.length + 1) := by
          rintro ⟨-, h⟩
          obtain ⟨r, hr, hle⟩ := (h hfull).resolve_left (Nat.succ_ne_zero _)
          rw [hs.live, List.append_nil] at hr
          have := hs.behind r hr
          omega
        rw [putSelected_full hfull hs hc, if_neg fun h => hnot h.1]
        rfl
      · have hroom : todo = [] → t.stale ≠ [] := fun h h' => hfull ⟨h, h'⟩
        simp only [fits_succ hs ht hroom]
        by_cases hmax : s.pos < INT_MAX
        · obtain ⟨s', done', todo', hput, hpos', hs'⟩ := putSelected_spec ht hroom hs hc hmax
            (hsel (s.pos + 1) (by omega) (by omega))
          rw [hput, Option.bind_some]
          dsimp only
          rw [ih s' done' todo' g gs hs' (by omega) hg, hpos']
          simp only [hmax, true_and]
          by_cases hlines : Fits t (s.pos + 1) g.length ∧ ∀ l' ∈ gs, Fits t 0 l'.length
          · rw [if_pos hlines, if_pos hlines, Option.map_some, append_intercalate,
              ← selectFrom_cons]
          · rw [if_neg hlines, if_neg hlines, Option.map_none]
        · rw [putSelected, if_neg hc, if_pos (by omega), if_neg fun h => hmax h.1.1]
          rfl

/-- The lines that fit are cut. -/
theorem bfunc_eq {t : Table} (ht : t.Ok) {sel : ℕ → Bool}
    (hsel : ∀ pos, 1 ≤ pos → pos ≤ INT_MAX → (sel pos = true ↔ Covers t.live pos))
    (input : List UInt8) :
    bfunc t input =
      if ∀ line ∈ input.splitOn (10 : UInt8), Fits t 0 line.length then some (cutLines sel input)
      else none := by
  obtain ⟨l, ls, hl⟩ := List.exists_cons_of_ne_nil (List.splitOn_ne_nil 10 input)
  rw [bfunc, charLoop_eq ht hsel input .start [] t.live l ls (at_start ht) (Nat.zero_le _) hl,
    cutLines, hl, List.map_cons]
  have hfits : (∀ line ∈ l :: ls, Fits t 0 line.length) ↔
      Fits t 0 l.length ∧ ∀ line ∈ ls, Fits t 0 line.length := List.forall_mem_cons
  exact if_congr hfits.symm rfl rfl

theorem cfunc_eq {t : Table} (ht : t.Ok) (hroom : t.stale ≠ []) {sel : ℕ → Bool}
    (hsel : ∀ pos, 1 ≤ pos → pos ≤ INT_MAX → (sel pos = true ↔ Covers t.live pos))
    (input : List UInt8) :
    cfunc t input =
      if ∀ line ∈ input.splitOn (10 : UInt8), line.length ≤ INT_MAX then some (cutLines sel input)
      else none := by
  have hb : cfunc t input = bfunc t input := rfl
  rw [hb, bfunc_eq ht hsel]
  simp only [fits_iff hroom, Nat.zero_add]

/-- `cut -c` and `cut -b` print the selected characters of every line, if and only if each line
has at most `INT_MAX` characters. -/
theorem cfunc_selects {MAX_RANGES : ℕ} {list : List UInt8} {t : Table}
    (h : process_list MAX_RANGES list = some t) (hfew : (fields list).length < MAX_RANGES) (input : List UInt8) :
    (cfunc t input = some (cutLines (selected list) input) ∧
      bfunc t input = some (cutLines (selected list) input)) ↔
      ∀ line ∈ input.splitOn 10, line.length ≤ INT_MAX := by
  obtain ⟨ht, hroom, hsel⟩ := process_list_ok h
  have hc := cfunc_eq ht (hroom hfew) hsel input
  have hb : bfunc t input = cfunc t input := rfl
  rw [hb, hc, and_self]
  split_ifs with hlines
  · exact ⟨fun _ => hlines, fun _ => rfl⟩
  · exact ⟨fun h => absurd h (by simp), fun h => absurd h hlines⟩

/-- `cut -c 3,1-2` of a line of four characters. -/
theorem cfunc_selects_four :
    (cfunc ⟨[⟨1, 2⟩, ⟨3, 3⟩], [zeroed]⟩ [97, 98, 99, 100, 10] =
        some (cutLines (selected [51, 44, 49, 45, 50]) [97, 98, 99, 100, 10]) ∧
      bfunc ⟨[⟨1, 2⟩, ⟨3, 3⟩], [zeroed]⟩ [97, 98, 99, 100, 10] =
        some (cutLines (selected [51, 44, 49, 45, 50]) [97, 98, 99, 100, 10])) ↔
      ∀ line ∈ ([97, 98, 99, 100, 10] : List UInt8).splitOn 10, line.length ≤ INT_MAX := by
  exact @cfunc_selects 3 [51, 44, 49, 45, 50] _ (by decide) (by decide) _

/-- A line of `2 ^ 31` characters: `pos` overflows. -/
theorem not_cfunc_selects : ¬ ∀ (MAX_RANGES : ℕ) (list : List UInt8) (t : Table)
    (input : List UInt8), process_list MAX_RANGES list = some t →
    (fields list).length < MAX_RANGES → cfunc t input = some (cutLines (selected list) input) := by
  intro h
  have hlist : process_list 2 [49] = some ⟨[⟨1, 1⟩], [zeroed]⟩ := by decide
  have hall := h 2 [49] _ (List.replicate (INT_MAX + 1) 97) hlist (by decide)
  obtain ⟨ht, hroom, hsel⟩ := process_list_ok hlist
  rw [cfunc_eq ht (hroom (by decide)) hsel, if_neg] at hall
  · exact absurd hall (by simp)
  · intro hshort
    have hsplit : (List.replicate (INT_MAX + 1) (97 : UInt8)).splitOn 10 =
        [List.replicate (INT_MAX + 1) 97] := by
      refine List.splitOn_eq_singleton fun hmem => ?_
      exact absurd (List.eq_of_mem_replicate hmem) (by decide)
    rw [hsplit] at hshort
    have := hshort _ List.mem_cons_self
    rw [List.length_replicate] at this
    omega

end Unitas.Cut
