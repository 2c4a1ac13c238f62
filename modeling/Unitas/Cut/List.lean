import Mathlib.Data.List.TakeWhile
import Unitas.Lib.Decimal
import Unitas.Lib.ExchangeSort

/-! `cut`: the list of ranges, as `process_list` leaves it in `rstart` and `rend`. -/
namespace Unitas.Cut
open Unitas.Decimal Unitas.ExchangeSort

def INT_MAX : ℕ := 2147483647

/-- An entry of `rstart` and `rend`. -/
structure Range where
  rstart : ℕ
  rend : ℕ
  deriving DecidableEq, Repr

/-- An entry that is free. -/
def zeroed : Range := ⟨0, 0⟩

/-- The arrays `rstart` and `rend`: the first `nranges` entries, and what is left in the others. -/
structure Table where
  live : List Range
  stale : List Range
  deriving DecidableEq, Repr

def Table.nranges (t : Table) : ℕ := t.live.length

/-- The entry at an index, which must lie within the arrays. -/
def Table.get (t : Table) (i : ℕ) : Option Range := (t.live ++ t.stale)[i]?

/-- Where the parser stands in a range. -/
structure Scan where
  inrange : Bool
  start : ℕ
  num : ℕ

def Scan.init : Scan := ⟨false, 0, 0⟩

/-- At a minus sign. -/
def Scan.minus (s : Scan) : Scan := ⟨true, if s.num = 0 then 1 else s.num, 0⟩

/-- `atoi`, which must not overflow. -/
def atoi (s : List UInt8) : Option ℕ :=
  let n := decValue (s.takeWhile isDigit)
  if n ≤ INT_MAX then some n else none

def isSep (c : UInt8) : Bool := c = 44 || c = 32 || c = 9

/-- What is stored at the end of a range. -/
def Scan.range (s : Scan) : Option Range :=
  if s.inrange then
    let num := if s.num = 0 then INT_MAX else s.num
    if num < s.start then none else some ⟨s.start, num⟩
  else some ⟨s.num, s.num⟩

/-- The first loop of `process_list`, after `n` ranges. With `skip` it stands behind a digit, and
the digits that follow have been read. -/
def scanList (MAX_RANGES : ℕ) : Bool → Scan → ℕ → List UInt8 → Option (List Range)
  | _, s, n, [] => if n = MAX_RANGES then none else s.range.map ([·])
  | skip, s, n, c :: cs =>
    if skip && isDigit c then scanList MAX_RANGES true s n cs
    else if c = 45 then
      if s.inrange then none
      else scanList MAX_RANGES false s.minus n cs
    else if isSep c then
      if n = MAX_RANGES then none
      else s.range.bind fun r => (scanList MAX_RANGES false .init (n + 1) cs).map (r :: ·)
    else if isDigit c then
      (atoi (c :: cs)).bind fun num => scanList MAX_RANGES true { s with num } n cs
    else none

def overlap (r t : Range) : Bool :=
  r.rstart ≠ 0 && r.rend ≠ 0 && !(r.rend < t.rstart || r.rstart > t.rend)

/-- The inner loop of the consolidation: the first later range that `r` overlaps takes it in. -/
def absorb (r : Range) : List Range → Option (List Range)
  | [] => none
  | t :: ts =>
    if overlap r t then
      some (⟨if r.rstart < t.rstart then r.rstart else t.rstart,
        if r.rend > t.rend then r.rend else t.rend⟩ :: ts)
    else (absorb r ts).map (t :: ·)

def consolidate : ℕ → List Range → List Range
  | 0, l => l
  | _ + 1, [] => []
  | n + 1, r :: rs =>
    match absorb r rs with
    | some rs => zeroed :: consolidate n rs
    | none => r :: consolidate n rs

/-- The entries behind a zeroed one move up; the last of them keeps its place as well. -/
def weed (kept : List Range) : List Range → List Range → Option Table
  | [], stale => some ⟨kept, stale⟩
  | r :: rs, stale =>
    if r.rstart = 0 ∧ r.rend = 0 then weed kept rs (rs.getLastD r :: stale)
    else if r.rstart = 0 ∨ r.rend = 0 then none
    else weed (kept ++ [r]) rs stale

def process_list (MAX_RANGES : ℕ) (list : List UInt8) : Option Table := do
  let ranges ← scanList MAX_RANGES false .init 0 list
  let ranges := consolidate ranges.length ranges
  let t ← weed [] ranges (List.replicate (MAX_RANGES - ranges.length) zeroed)
  return { t with live := exchangeSort (fun r t => r.rstart > t.rend) t.live }

/-- The fields of a list. -/
def fields (list : List UInt8) : List (List UInt8) := list.splitOnP isSep

/-- Whether a field selects a position: as `N`, `N-`, `-M`, `N-M` or `-`. A number that is missing
counts as 0, and no position is 0. -/
def inField (field : List UInt8) (pos : ℕ) : Bool :=
  match field.splitOn 45 with
  | [n] => pos = decValue n
  | [n, m] => decValue n ≤ pos && (decValue m = 0 || pos ≤ decValue m)
  | _ => false

/-- The union of the ranges. -/
def selected (list : List UInt8) (pos : ℕ) : Bool := (fields list).any (inField · pos)

/-- The parser within one field. -/
def scanField : Bool → Scan → List UInt8 → Option Scan
  | _, s, [] => some s
  | skip, s, c :: cs =>
    if skip && isDigit c then scanField true s cs
    else if c = 45 then
      if s.inrange then none
      else scanField false s.minus cs
    else if isDigit c then
      (atoi (c :: cs)).bind fun num => scanField true { s with num } cs
    else none

theorem not_isDigit_of_isSep {c : UInt8} (h : isSep c = true) : isDigit c = false := by
  simp only [isSep, Bool.or_eq_true, decide_eq_true_eq] at h
  rcases h with (rfl | rfl) | rfl <;> decide

theorem not_isSep_of_isDigit {c : UInt8} (h : isDigit c = true) : isSep c = false := by
  by_contra hsep
  rw [not_isDigit_of_isSep (by simpa using hsep)] at h
  exact Bool.false_ne_true h

theorem atoi_append {s rest : List UInt8} (h : ∀ c cs, rest = c :: cs → isDigit c = false) :
    atoi (s ++ rest) = atoi s := by
  have htake : (s ++ rest).takeWhile isDigit = s.takeWhile isDigit := by
    cases rest with
    | nil => rw [List.append_nil]
    | cons c cs =>
      rw [List.takeWhile_append]
      split_ifs with hall
      · rw [List.takeWhile_cons_of_neg (by simp [h c cs rfl]), List.append_nil]
        exact ((List.takeWhile_prefix isDigit).eq_of_length hall).symm
      · rfl
  rw [atoi, htake, atoi]

/-- Behind the first field there is a separator. -/
theorem splitOnP_head {cs f : List UInt8} {fs : List (List UInt8)}
    (h : cs.splitOnP isSep = f :: fs) :
    ∃ rest, cs = f ++ rest ∧ ∀ c cs', rest = c :: cs' → isDigit c = false := by
  induction cs generalizing f fs with
  | nil =>
    obtain ⟨rfl, rfl⟩ := List.cons.inj h
    exact ⟨[], rfl, fun _ _ h => absurd h (List.cons_ne_nil _ _).symm⟩
  | cons c cs ih =>
    rw [List.splitOnP_cons_eq_if_modifyHead] at h
    split_ifs at h with hsep
    · obtain ⟨rfl, rfl⟩ := List.cons.inj h
      refine ⟨c :: cs, rfl, fun c' cs' heq => ?_⟩
      obtain ⟨rfl, -⟩ := List.cons.inj heq
      exact not_isDigit_of_isSep hsep
    · obtain ⟨g, gs, hg⟩ := List.exists_cons_of_ne_nil (List.splitOnP_ne_nil isSep cs)
      rw [hg] at h
      obtain ⟨rfl, rfl⟩ := List.cons.inj h
      obtain ⟨rest, hcs, hrest⟩ := ih hg
      exact ⟨rest, congrArg (c :: ·) hcs, hrest⟩

/-- An entry is what the parser stores for a field. -/
def FieldEntry (field : List UInt8) (entry : Range) : Prop :=
  ∃ s, scanField false .init field = some s ∧ s.range = some entry

/-- Each field has its entry, and all of them fit. -/
theorem scanList_fields {MAX_RANGES : ℕ} (cs : List UInt8) : ∀ skip s n es, n ≤ MAX_RANGES →
    scanList MAX_RANGES skip s n cs = some es → ∃ f fs e es',
      cs.splitOnP isSep = f :: fs ∧ es = e :: es' ∧
      (∃ s', scanField skip s f = some s' ∧ s'.range = some e) ∧
      List.Forall₂ FieldEntry fs es' ∧ n + es.length ≤ MAX_RANGES := by
  induction cs with
  | nil =>
    intro skip s n es hn h
    rw [scanList] at h
    split_ifs at h with hfull
    obtain ⟨e, he, rfl⟩ := Option.map_eq_some_iff.mp h
    refine ⟨[], [], e, [], rfl, rfl, ⟨s, rfl, he⟩, List.Forall₂.nil, ?_⟩
    rw [List.length_singleton]
    omega
  | cons c cs ih =>
    intro skip s n es hn h
    have hhead : isSep c = false → ∀ f fs, cs.splitOnP isSep = f :: fs →
        (c :: cs).splitOnP isSep = (c :: f) :: fs := by
      intro hsep f fs hf
      rw [List.splitOnP_cons_eq_if_modifyHead, hsep, hf]
      rfl
    rw [scanList] at h
    split_ifs at h with hskip hminus hrange hsep hfull hdigit
    · obtain ⟨f, fs, e, es', hf, hes, ⟨s', hs', he⟩, hall, hlen⟩ := ih _ _ _ _ hn h
      have hdig : isDigit c = true := by simp_all
      refine ⟨c :: f, fs, e, es', hhead (not_isSep_of_isDigit hdig) f fs hf, hes,
        ⟨s', ?_, he⟩, hall, hlen⟩
      rw [scanField, if_pos hskip, hs']
    · obtain ⟨f, fs, e, es', hf, hes, ⟨s', hs', he⟩, hall, hlen⟩ := ih _ _ _ _ hn h
      refine ⟨c :: f, fs, e, es', hhead (by rw [hminus]; decide) f fs hf, hes,
        ⟨s', ?_, he⟩, hall, hlen⟩
      rw [scanField, if_neg hskip, if_pos hminus, if_neg hrange, hs']
    · obtain ⟨r, hr, h⟩ := Option.bind_eq_some_iff.mp h
      obtain ⟨es₁, hes₁, rfl⟩ := Option.map_eq_some_iff.mp h
      obtain ⟨f, fs, e, es', hf, rfl, hentry, hall, hlen⟩ := ih _ _ _ _ (by omega) hes₁
      refine ⟨[], f :: fs, r, e :: es', ?_, rfl, ⟨s, rfl, hr⟩, List.Forall₂.cons hentry hall, ?_⟩
      · rw [List.splitOnP_cons_eq_if_modifyHead, if_pos hsep, hf]
      · rw [List.length_cons]
        omega
    · obtain ⟨num, hnum, h⟩ := Option.bind_eq_some_iff.mp h
      obtain ⟨f, fs, e, es', hf, hes, ⟨s', hs', he⟩, hall, hlen⟩ := ih _ _ _ _ hn h
      obtain ⟨rest, hcs, hrest⟩ := splitOnP_head hf
      have hnum' : atoi (c :: f) = some num := by
        rw [← hnum, hcs, ← List.cons_append, atoi_append hrest]
      refine ⟨c :: f, fs, e, es', hhead (by simpa using hsep) f fs hf, hes,
        ⟨s', ?_, he⟩, hall, hlen⟩
      rw [scanField, if_neg hskip, if_neg hminus, if_pos hdigit, hnum', Option.bind_some, hs']

theorem scanField_skip (cs : List UInt8) (s : Scan) :
    scanField true s cs = scanField false s (cs.dropWhile isDigit) := by
  induction cs with
  | nil => rfl
  | cons c cs ih =>
    by_cases hdigit : isDigit c = true
    · rw [List.dropWhile_cons_of_pos hdigit, scanField, if_pos (by simp [hdigit]), ih]
    · rw [List.dropWhile_cons_of_neg hdigit]
      simp only [scanField, hdigit, Bool.and_false, Bool.false_eq_true, if_false]

/-- The digits that come first are the number. -/
theorem scanField_digits {cs : List UInt8} {s s' : Scan} (hnum : s.num = 0)
    (h : scanField false s cs = some s') :
    scanField false { s with num := decValue (cs.takeWhile isDigit) } (cs.dropWhile isDigit) =
      some s' := by
  obtain ⟨inrange, start, num⟩ := s
  obtain rfl : num = 0 := hnum
  cases cs with
  | nil => exact h
  | cons c cs =>
    by_cases hdigit : isDigit c = true
    · have hminus : c ≠ 45 := by
        rintro rfl
        exact absurd hdigit (by decide)
      rw [scanField, if_neg (by simp), if_neg hminus, if_pos hdigit] at h
      obtain ⟨num, hatoi, h⟩ := Option.bind_eq_some_iff.mp h
      rw [atoi] at hatoi
      split_ifs at hatoi
      obtain rfl := Option.some.inj hatoi
      rw [List.dropWhile_cons_of_pos hdigit, ← scanField_skip]
      exact h
    · rw [List.takeWhile_cons_of_neg hdigit, List.dropWhile_cons_of_neg hdigit]
      exact h

theorem not_mem_digits (f : List UInt8) : 45 ∉ f.takeWhile isDigit := by
  intro hmem
  exact absurd (List.mem_takeWhile_imp hmem) (by decide)

/-- The fields that the parser takes. -/
theorem scanField_init {f : List UInt8} {s : Scan} (h : scanField false .init f = some s) :
    (∃ n, f.splitOn 45 = [n] ∧ s = ⟨false, 0, decValue n⟩) ∨
      ∃ n m, f.splitOn 45 = [n, m] ∧
        s = ⟨true, if decValue n = 0 then 1 else decValue n, decValue m⟩ := by
  have hf := List.takeWhile_append_dropWhile (p := isDigit) (l := f)
  have h := scanField_digits rfl h
  generalize hn : f.takeWhile isDigit = n at h hf
  have hnmem : 45 ∉ n := hn ▸ not_mem_digits f
  cases hr : f.dropWhile isDigit with
  | nil =>
    left
    rw [hr] at h hf
    rw [List.append_nil] at hf
    refine ⟨n, ?_, (Option.some.inj h).symm⟩
    rw [← hf, List.splitOn_eq_singleton hnmem]
  | cons c cs =>
    right
    have hc : isDigit c = false := by
      have := List.head_dropWhile_not isDigit (l := f) (by rw [hr]; exact List.cons_ne_nil _ _)
      simpa only [hr, List.head_cons] using this
    rw [hr] at h hf
    rw [scanField, if_neg (by simp)] at h
    by_cases hminus : c = 45
    · subst hminus
      rw [if_pos rfl, if_neg (by simp [Scan.init])] at h
      have h := scanField_digits rfl h
      have hcs := List.takeWhile_append_dropWhile (p := isDigit) (l := cs)
      generalize hm : cs.takeWhile isDigit = m at h hcs
      have hmmem : 45 ∉ m := hm ▸ not_mem_digits cs
      cases hr' : cs.dropWhile isDigit with
      | nil =>
        rw [hr'] at h hcs
        rw [List.append_nil] at hcs
        refine ⟨n, m, ?_, (Option.some.inj h).symm⟩
        rw [← hf, List.splitOn_append_cons_self_of_not_mem hnmem, ← hcs,
          List.splitOn_eq_singleton hmmem]
      | cons c' cs' =>
        have hc' : isDigit c' = false := by
          have := List.head_dropWhile_not isDigit (l := cs) (by rw [hr']; exact List.cons_ne_nil _ _)
          simpa only [hr', List.head_cons] using this
        rw [hr', scanField, if_neg (by simp)] at h
        by_cases hminus' : c' = 45
        · have hinrange : (Scan.minus ⟨Scan.init.inrange, Scan.init.start, decValue n⟩).inrange =
              true := rfl
          rw [if_pos hminus', if_pos hinrange] at h
          exact absurd h (by simp)
        · rw [if_neg hminus', if_neg (by simp [hc'])] at h
          exact absurd h (by simp)
    · rw [if_neg hminus, if_neg (by simp [hc])] at h
      exact absurd h (by simp)

def Range.Holds (r : Range) (pos : ℕ) : Prop := r.rstart ≤ pos ∧ pos ≤ r.rend

/-- An entry is free or a range. -/
def Range.Ok (r : Range) : Prop := r = zeroed ∨ 1 ≤ r.rstart ∧ r.rstart ≤ r.rend

theorem not_holds_zeroed {pos : ℕ} (hpos : 1 ≤ pos) : ¬ zeroed.Holds pos := by
  intro h
  have : pos ≤ 0 := h.2
  omega

/-- The entry of a field holds the positions that the field selects. -/
theorem fieldEntry_spec {f : List UInt8} {r : Range} (hf : FieldEntry f r) :
    r.Ok ∧ ∀ pos, 1 ≤ pos → pos ≤ INT_MAX → (inField f pos = true ↔ r.Holds pos) := by
  obtain ⟨s, hs, hr⟩ := hf
  rcases scanField_init hs with ⟨n, hsplit, rfl⟩ | ⟨n, m, hsplit, rfl⟩
  · obtain rfl : ⟨decValue n, decValue n⟩ = r := Option.some.inj hr
    simp only [inField, hsplit, decide_eq_true_eq, Range.Holds, Range.Ok, zeroed, Range.mk.injEq]
    exact ⟨by omega, fun pos _ _ => by omega⟩
  · have hmax : 1 ≤ INT_MAX := by decide
    simp only [Scan.range, if_true] at hr
    split_ifs at hr with hmzero hlt hlt hlt hlt
    all_goals
      obtain rfl := Option.some.inj hr
      simp only [inField, hsplit, Bool.and_eq_true, Bool.or_eq_true, decide_eq_true_eq,
        Range.Holds, Range.Ok]
      exact ⟨Or.inr ⟨by omega, by omega⟩, fun pos hpos hle => by omega⟩

/-- A position that some entry holds. -/
def Covers (l : List Range) (pos : ℕ) : Prop := ∃ r ∈ l, r.Holds pos

theorem covers_cons {r : Range} {l : List Range} {pos : ℕ} :
    Covers (r :: l) pos ↔ r.Holds pos ∨ Covers l pos := by
  simp only [Covers, List.mem_cons, exists_eq_or_imp]

/-- Two entries have no position in common. -/
def Apart (r t : Range) : Prop := ∀ pos, 1 ≤ pos → r.Holds pos → ¬ t.Holds pos

theorem apart_of_not_overlap {r t : Range} (hr : r.Ok) (h : overlap r t = false) : Apart r t := by
  rcases hr with rfl | hr
  · exact fun pos hpos h => absurd h (not_holds_zeroed hpos)
  · rintro pos hpos ⟨h1, h2⟩ ⟨h3, h4⟩
    simp only [overlap, Bool.and_eq_false_iff, Bool.not_eq_false', Bool.or_eq_true,
      decide_eq_false_iff_not, decide_eq_true_eq] at h
    omega

theorem absorb_none {r : Range} {ts : List Range} (h : absorb r ts = none) :
    ∀ t ∈ ts, overlap r t = false := by
  induction ts with
  | nil => exact fun t ht => absurd ht List.not_mem_nil
  | cons t ts ih =>
    rw [absorb] at h
    split_ifs at h with hover
    rw [Option.map_eq_none_iff] at h
    exact List.forall_mem_cons.mpr ⟨by simpa using hover, ih h⟩

/-- An entry that is taken in leaves the union as it was. -/
theorem absorb_some {r : Range} (hr : r.Ok) {ts : List Range} : ∀ {ts' : List Range},
    (∀ t ∈ ts, t.Ok) → absorb r ts = some ts' →
      (∀ t ∈ ts', t.Ok) ∧ ts'.length = ts.length ∧
        ∀ pos, 1 ≤ pos → (Covers ts' pos ↔ r.Holds pos ∨ Covers ts pos) := by
  induction ts with
  | nil => exact fun _ h => absurd h (by simp [absorb])
  | cons t ts ih =>
    intro ts' hts h
    obtain ⟨ht, hts⟩ := List.forall_mem_cons.mp hts
    rw [absorb] at h
    by_cases hover : overlap r t = true
    · rw [if_pos hover] at h
      obtain rfl := Option.some.inj h
      have hov := hover
      simp only [overlap, Bool.and_eq_true, Bool.not_eq_true', Bool.or_eq_false_iff,
        decide_eq_false_iff_not, decide_eq_true_eq] at hov
      have hrange : 1 ≤ r.rstart ∧ r.rstart ≤ r.rend := by
        rcases hr with rfl | hr
        · exact absurd rfl hov.1.1
        · exact hr
      have htrange : 1 ≤ t.rstart ∧ t.rstart ≤ t.rend := by
        rcases ht with rfl | ht
        · have : ¬ r.rend < 0 ∧ ¬ r.rstart > 0 := hov.2
          omega
        · exact ht
      refine ⟨List.forall_mem_cons.mpr ⟨Or.inr ?_, hts⟩, rfl, fun pos hpos => ?_⟩
      · dsimp only
        split_ifs <;> omega
      · rw [covers_cons, covers_cons, ← or_assoc]
        refine or_congr_left ?_
        simp only [Range.Holds]
        split_ifs <;> omega
    · rw [if_neg hover] at h
      obtain ⟨ts'', habs, rfl⟩ := Option.map_eq_some_iff.mp h
      obtain ⟨hok, hlen, hcov⟩ := ih hts habs
      refine ⟨List.forall_mem_cons.mpr ⟨ht, hok⟩, congrArg (· + 1) hlen, fun pos hpos => ?_⟩
      rw [covers_cons, covers_cons, hcov pos hpos]
      exact or_left_comm

/-- The consolidation keeps the union, and no two entries overlap after it. -/
theorem consolidate_spec (n : ℕ) : ∀ l : List Range, l.length ≤ n → (∀ r ∈ l, r.Ok) →
    (∀ r ∈ consolidate n l, r.Ok) ∧ (consolidate n l).length = l.length ∧
      (∀ pos, 1 ≤ pos → (Covers (consolidate n l) pos ↔ Covers l pos)) ∧
      (consolidate n l).Pairwise Apart := by
  induction n with
  | zero =>
    intro l hl hok
    obtain rfl := List.length_eq_zero_iff.mp (Nat.le_zero.mp hl)
    exact ⟨hok, rfl, fun _ _ => Iff.rfl, List.Pairwise.nil⟩
  | succ n ih =>
    intro l hl hok
    cases l with
    | nil => exact ⟨hok, rfl, fun _ _ => Iff.rfl, List.Pairwise.nil⟩
    | cons r rs =>
      obtain ⟨hr, hrs⟩ := List.forall_mem_cons.mp hok
      have hlen : rs.length ≤ n := Nat.le_of_succ_le_succ hl
      rw [consolidate]
      cases habs : absorb r rs with
      | some rs' =>
        obtain ⟨hok', hlen', hcov'⟩ := absorb_some hr hrs habs
        obtain ⟨h1, h2, h3, h4⟩ := ih rs' (hlen'.trans_le hlen) hok'
        refine ⟨List.forall_mem_cons.mpr ⟨Or.inl rfl, h1⟩, congrArg (· + 1) (h2.trans hlen'),
          fun pos hpos => ?_, List.pairwise_cons.mpr ⟨fun t _ pos hpos h => ?_, h4⟩⟩
        · rw [covers_cons, covers_cons, h3 pos hpos, hcov' pos hpos]
          exact or_iff_right (not_holds_zeroed hpos)
        · exact absurd h (not_holds_zeroed hpos)
      | none =>
        obtain ⟨h1, h2, h3, h4⟩ := ih rs hlen hrs
        refine ⟨List.forall_mem_cons.mpr ⟨hr, h1⟩, congrArg (· + 1) h2, fun pos hpos => ?_,
          List.pairwise_cons.mpr ⟨fun t ht pos hpos hhold hhold' => ?_, h4⟩⟩
        · rw [covers_cons, covers_cons, h3 pos hpos]
        · obtain ⟨u, hu, huhold⟩ := (h3 pos hpos).mp ⟨t, ht, hhold'⟩
          exact apart_of_not_overlap hr (absorb_none habs u hu) pos hpos hhold huhold

/-- What an entry that is not in use may hold: nothing, or the same as one that is. -/
def Stale (live : List Range) (r : Range) : Prop := r = zeroed ∨ r ∈ live

theorem weed_spec (l : List Range) : ∀ kept stale, (∀ r ∈ l, r.Ok) →
    (∀ r ∈ stale, Stale (kept ++ l) r) → ∃ t, weed kept l stale = some t ∧
      t.live = kept ++ l.filter (· ≠ zeroed) ∧ (∀ r ∈ t.stale, Stale t.live r) ∧
      stale.length ≤ t.stale.length := by
  induction l with
  | nil =>
    intro kept stale _ hstale
    refine ⟨⟨kept, stale⟩, rfl, (List.append_nil _).symm, ?_, le_rfl⟩
    rwa [List.append_nil] at hstale
  | cons r rs ih =>
    intro kept stale hok hstale
    obtain ⟨hr, hrs⟩ := List.forall_mem_cons.mp hok
    rw [weed]
    by_cases hzero : r = zeroed
    · have hrest : ∀ t, Stale (kept ++ r :: rs) t → Stale (kept ++ rs) t := by
        rintro t (rfl | ht)
        · exact Or.inl rfl
        · rcases List.mem_append.mp ht with ht | ht
          · exact Or.inr (List.mem_append_left _ ht)
          · rcases List.mem_cons.mp ht with rfl | ht
            · exact Or.inl hzero
            · exact Or.inr (List.mem_append_right _ ht)
      have hlast : Stale (kept ++ r :: rs) (rs.getLastD r) := by
        right
        refine List.mem_append_right _ ?_
        rw [List.getLastD_eq_getLast?]
        cases hlast : rs.getLast? with
        | none => exact List.mem_cons_self
        | some t => exact List.mem_cons_of_mem _ (List.mem_of_getLast? hlast)
      obtain ⟨t, hweed, hlive, hst, hlen⟩ := ih kept (rs.getLastD r :: stale) hrs
        (List.forall_mem_cons.mpr ⟨hrest _ hlast, fun t ht => hrest t (hstale t ht)⟩)
      refine ⟨t, ?_, ?_, hst, (Nat.le_succ _).trans hlen⟩
      · rw [if_pos (by rw [hzero]; exact ⟨rfl, rfl⟩), hweed]
      · rw [hlive, List.filter_cons_of_neg (by simp [hzero])]
    · have hpos : 1 ≤ r.rstart ∧ r.rstart ≤ r.rend := hr.resolve_left hzero
      obtain ⟨t, hweed, hlive, hst, hlen⟩ := ih (kept ++ [r]) stale hrs (by
        rwa [List.append_assoc, List.singleton_append])
      refine ⟨t, ?_, ?_, hst, hlen⟩
      · rw [if_neg (by omega), if_neg (by omega), hweed]
      · rw [hlive, List.filter_cons_of_pos (by simp [hzero]), List.append_assoc,
          List.singleton_append]

theorem exists_forall₂ {α β : Type} {R : α → β → Prop} {p : α → Bool} {q : β → Prop}
    {l : List α} {l' : List β} (h : List.Forall₂ R l l') (hpq : ∀ a b, R a b → (p a = true ↔ q b)) :
    (∃ a ∈ l, p a = true) ↔ ∃ b ∈ l', q b := by
  induction h with
  | nil => simp
  | cons hab _ ih => simp only [List.mem_cons, exists_eq_or_imp, hpq _ _ hab, ih]

/-- What the printing functions need of the table: the ranges in order and apart, nothing behind
them that comes later, and at least one entry there. -/
structure Table.Ok (t : Table) : Prop where
  ranges : ∀ r ∈ t.live, 1 ≤ r.rstart ∧ r.rstart ≤ r.rend
  sorted : t.live.Pairwise fun r u => r.rend < u.rstart
  stale : ∀ r ∈ t.stale, Stale t.live r

theorem process_list_ok {MAX_RANGES : ℕ} {list : List UInt8} {t : Table}
    (h : process_list MAX_RANGES list = some t) :
    t.Ok ∧ ((fields list).length < MAX_RANGES → t.stale ≠ []) ∧
      ∀ pos, 1 ≤ pos → pos ≤ INT_MAX → (selected list pos = true ↔ Covers t.live pos) := by
  obtain ⟨es, hscan, h⟩ := Option.bind_eq_some_iff.mp h
  obtain ⟨f, fs, e, es', hfields, rfl, hentry, hall, hlen⟩ :=
    scanList_fields list false .init 0 es (Nat.zero_le _) hscan
  have hentries : List.Forall₂ FieldEntry (fields list) (e :: es') := by
    rw [fields, hfields]
    exact List.Forall₂.cons hentry hall
  have hspec : List.Forall₂ (fun f r => r.Ok ∧ ∀ pos, 1 ≤ pos → pos ≤ INT_MAX →
      (inField f pos = true ↔ r.Holds pos)) (fields list) (e :: es') := by
    refine List.forall₂_iff_get.mpr ⟨hentries.length_eq, fun i h1 h2 => ?_⟩
    exact fieldEntry_spec ((List.forall₂_iff_get.mp hentries).2 i h1 h2)
  have hok : ∀ r ∈ e :: es', r.Ok := by
    intro r hr
    obtain ⟨i, rfl⟩ := List.get_of_mem hr
    exact ((List.forall₂_iff_get.mp hspec).2 i (hspec.length_eq.trans_gt i.isLt) i.isLt).1
  have hselected : ∀ pos, 1 ≤ pos → pos ≤ INT_MAX →
      (selected list pos = true ↔ Covers (e :: es') pos) := fun pos hpos hle => by
    rw [selected, List.any_eq_true]
    exact exists_forall₂ hspec fun f r h => h.2 pos hpos hle
  obtain ⟨hok', hlen', hcov, hapart⟩ := consolidate_spec _ (e :: es') le_rfl hok
  obtain ⟨t₀, hweed, hlive, hstale, hroom⟩ := weed_spec (consolidate (e :: es').length (e :: es'))
    [] (List.replicate (MAX_RANGES - (consolidate (e :: es').length (e :: es')).length) zeroed)
    hok' fun r hr => Or.inl (List.eq_of_mem_replicate hr)
  dsimp only at h
  rw [hweed] at h
  obtain rfl : (⟨exchangeSort (fun r t => r.rstart > t.rend) t₀.live, t₀.stale⟩ : Table) = t :=
    Option.some.inj h
  rw [List.nil_append] at hlive
  have hperm := exchangeSort_perm (fun r t : Range => r.rstart > t.rend) t₀.live
  have hvalid : ∀ r ∈ t₀.live, 1 ≤ r.rstart ∧ r.rstart ≤ r.rend := by
    intro r hr
    rw [hlive] at hr
    obtain ⟨hr, hne⟩ := List.mem_filter.mp hr
    exact (hok' r hr).resolve_left (by simpa using hne)
  refine ⟨⟨fun r hr => hvalid r (hperm.mem_iff.mp hr), ?_, fun r hr => ?_⟩, fun hlt => ?_,
    fun pos hpos hle => ?_⟩
  · have hsorted := @exchangeSort_sorted _ (fun r t : Range => r.rstart > t.rend)
      (fun r => 1 ≤ r.rstart ∧ r.rstart ≤ r.rend) (fun hy hxy hyz => by
        simp only [decide_eq_true_eq] at hxy hyz ⊢
        omega) _ hvalid (by
        rw [hlive]
        refine (hapart.filter _).imp_of_mem fun {r u} hr hu h => ?_
        have hr := hvalid r (hlive ▸ hr)
        have hu := hvalid u (hlive ▸ hu)
        simp only [decide_eq_true_eq]
        by_contra hnot
        exact h (max r.rstart u.rstart) (by omega) ⟨by omega, by omega⟩ ⟨by omega, by omega⟩)
    exact hsorted.imp fun h => by simpa using h
  · exact (hstale r hr).imp_right hperm.mem_iff.mpr
  · have hcount := hentries.length_eq
    rw [List.length_replicate] at hroom
    intro hnil
    dsimp only at hnil
    rw [hnil, List.length_nil] at hroom
    omega
  · rw [hselected pos hpos hle, ← hcov pos hpos]
    have hmem : ∀ r, r ∈ exchangeSort (fun r t => decide (r.rstart > t.rend)) t₀.live ↔
        r ∈ consolidate (e :: es').length (e :: es') ∧ decide (r ≠ zeroed) = true := by
      intro r
      rw [hperm.mem_iff, hlive, List.mem_filter]
    simp only [Covers, hmem]
    constructor
    · rintro ⟨r, hr, hhold⟩
      refine ⟨r, ⟨hr, ?_⟩, hhold⟩
      have hne : r ≠ zeroed := by
        rintro rfl
        exact not_holds_zeroed hpos hhold
      simpa using hne
    · rintro ⟨r, ⟨hr, -⟩, hhold⟩
      exact ⟨r, hr, hhold⟩

end Unitas.Cut
