import Unitas.Sccs.Entry

/-! An entry of the delta table is read as it was written. -/
namespace Unitas.Sccs.Edit
open Unitas.Decimal

/-! ### Local time -/

def leap (y : ℕ) : Bool := y % 4 = 0 && (y % 100 ≠ 0 || y % 400 = 0)

def yearDays (y : ℕ) : ℕ := if leap y then 366 else 365

def monthDays (y t : ℕ) : ℕ := if t = 2 ∧ leap y then 29 else dmsize.getD (t - 1) 0

/-- A local time from 1970 through 2068, as `localtime` gives it. -/
structure LocalTime where
  year : ℕ
  mon : ℕ
  mday : ℕ
  hour : ℕ
  min : ℕ
  sec : ℕ
  year_ge : 1970 ≤ year
  year_le : year ≤ 2068
  mon_pos : 1 ≤ mon
  mon_le : mon ≤ 12
  mday_pos : 1 ≤ mday
  mday_le : mday ≤ monthDays year mon
  hour_lt : hour < 24
  min_lt : min < 60
  sec_lt : sec < 60

/-- The seconds from the beginning of 1970 by the calendar. -/
def LocalTime.seconds (l : LocalTime) : ℕ :=
  clock (((List.range (l.year - 1970)).map fun i => yearDays (1970 + i)).sum +
    ((List.range (l.mon - 1)).map fun i => monthDays l.year (i + 1)).sum + (l.mday - 1))
    l.hour l.min l.sec

/-- That `localtime` gives `l` for a time, so many seconds west of Greenwich. -/
def LocalTime.Shows (l : LocalTime) (timezone time : ℤ) : Prop := time = l.seconds + timezone

theorem leap_iff {y : ℕ} (h1 : 1970 ≤ y) (h2 : y ≤ 2068) : leap y = true ↔ y % 4 = 0 := by
  simp only [leap, Bool.and_eq_true, Bool.or_eq_true, decide_eq_true_eq]
  omega

theorem dysize_eq {y : ℕ} (h1 : 1970 ≤ y) (h2 : y ≤ 2068) : dysize y = yearDays y := by
  unfold dysize yearDays
  exact if_congr (leap_iff h1 h2).symm rfl rfl

theorem dysize_eq_366 (y : ℕ) : dysize y = 366 ↔ y % 4 = 0 := by
  unfold dysize
  split_ifs with h
  · exact iff_of_true rfl h
  · exact iff_of_false (by decide) h

theorem mosize_eq {y : ℕ} (h1 : 1970 ≤ y) (h2 : y ≤ 2068) (t : ℕ) :
    mosize y t = monthDays y t := by
  unfold mosize monthDays
  exact if_congr (and_congr_right fun _ => (dysize_eq_366 y).trans (leap_iff h1 h2).symm) rfl rfl

/-- `tm_year` counts from 1900, and `date_ba` takes a century off where there is one. -/
def LocalTime.tm_year (l : LocalTime) : ℕ :=
  let tm_year := l.year - 1900
  if tm_year ≥ 100 then tm_year - 100 else tm_year

/-- What `date_ba` writes of a local time. -/
def LocalTime.date (l : LocalTime) : Date where
  year := l.tm_year
  mon := l.mon
  mday := l.mday
  hour := l.hour
  min := l.min
  sec := l.sec
  year_lt := by
    have := l.year_le
    unfold LocalTime.tm_year
    dsimp only
    split_ifs <;> omega
  mon_pos := l.mon_pos
  mon_le := l.mon_le
  mday_pos := l.mday_pos
  mday_le := by
    have h := l.mday_le
    have hyear : l.tm_year % 4 = l.year % 4 := by
      have := l.year_ge
      unfold LocalTime.tm_year
      dsimp only
      split_ifs <;> omega
    rw [← mosize_eq l.year_ge l.year_le] at h
    unfold mosize dysize at h ⊢
    rw [hyear]
    exact h
  hour_lt := l.hour_lt
  min_lt := l.min_lt
  sec_le := l.sec_lt.le

/-- The two digits of the year tell the century. -/
theorem full_date (l : LocalTime) : l.date.full = l.year := by
  have := l.year_ge
  have := l.year_le
  unfold Date.full LocalTime.date LocalTime.tm_year
  dsimp only
  split_ifs <;> omega

theorem seconds_date (l : LocalTime) : l.date.seconds = l.seconds := by
  have hyears : (List.range (l.year - 1970)).map (fun i => dysize (1970 + i)) =
      (List.range (l.year - 1970)).map fun i => yearDays (1970 + i) := by
    refine List.map_congr_left fun i hi => dysize_eq (Nat.le_add_right _ _) ?_
    have := List.mem_range.mp hi
    have := l.year_le
    omega
  have hmonths : (List.range (l.mon - 1)).map (fun i => mosize l.year (i + 1)) =
      (List.range (l.mon - 1)).map fun i => monthDays l.year (i + 1) :=
    List.map_congr_left fun i _ => mosize_eq l.year_ge l.year_le (i + 1)
  have hdays : ((List.range (l.year - 1970)).map fun i => dysize (1970 + i)).sum +
      ((List.range (l.mon - 1)).map fun i => mosize l.year (i + 1)).sum + l.mday - 1 =
      ((List.range (l.year - 1970)).map fun i => yearDays (1970 + i)).sum +
        ((List.range (l.mon - 1)).map fun i => monthDays l.year (i + 1)).sum + (l.mday - 1) := by
    rw [hyears, hmonths, Nat.add_sub_assoc l.mday_pos]
  unfold Date.seconds LocalTime.seconds
  rw [full_date, ← hdays]
  rfl

/-- A zone of constant offset. -/
def constant (timezone : ℤ) : Zone := ⟨timezone, fun _ => false⟩

theorem date_ab_local {l : LocalTime} {timezone time : ℤ} (h : l.Shows timezone time) {rest : Line}
    (hrest : ∀ c ∈ rest.head?, isDigit c = false) :
    date_ab (constant timezone) (date_ba l.date ++ rest) = (some time, rest) := by
  have hsec : ¬ 59 < l.date.sec := by
    have := l.sec_lt
    change ¬ 59 < l.sec
    omega
  rw [date_ab_eq _ _ hrest, if_neg hsec, seconds_date, h]
  rfl

/-! ### The entry -/

/-- `del_ba`, where `date` is what `localtime` gives for `d_datetime`. -/
def del_ba (dt : Deltab) (date : Date) : Line :=
  [CTLCHAR, BDELTAB, 32, dt.d_type, 32] ++ sid_ba dt.d_sid ++ 32 :: date_ba date ++
    32 :: dt.d_pgmr ++ 32 :: decimal dt.d_serial ++ 32 :: decimal dt.d_pred ++ [10]

theorem NONBLANK_blank (p : Line) : NONBLANK (32 :: p) = NONBLANK p :=
  List.dropWhile_cons_of_pos (by decide)

theorem NONBLANK_cons {c : UInt8} (h32 : c ≠ 32) (h9 : c ≠ 9) (p : Line) :
    NONBLANK (c :: p) = c :: p :=
  List.dropWhile_cons_of_neg (by simp [h32, h9])

/-- Before a digit there is nothing to skip. -/
theorem NONBLANK_decimal (n : ℕ) (p : Line) : NONBLANK (decimal n ++ p) = decimal n ++ p := by
  obtain ⟨c, ds, hcons⟩ := List.exists_cons_of_ne_nil (decimal_ne_nil n)
  have hc := decimal_isDigit n c (hcons ▸ List.mem_cons_self)
  rw [hcons, List.cons_append]
  refine NONBLANK_cons ?_ ?_ _
  · rintro rfl
    exact absurd hc (by decide)
  · rintro rfl
    exact absurd hc (by decide)

theorem NONBLANK_sid_ba (s : Sid) (p : Line) : NONBLANK (sid_ba s ++ p) = sid_ba s ++ p := by
  unfold sid_ba
  rw [List.append_assoc, List.append_assoc]
  exact NONBLANK_decimal _ _

theorem NONBLANK_date_ba (d : Date) (p : Line) : NONBLANK (date_ba d ++ p) = date_ba d ++ p := by
  unfold date_ba
  simp only [List.append_assoc, List.cons_append]
  exact NONBLANK_DO2 d.year d.year_lt _

/-- A name that `del_ab` finds again: not empty, without a blank, and no tab comes first. -/
structure NameOk (pgmr : Line) : Prop where
  ne_nil : pgmr ≠ []
  no_blank : 32 ∉ pgmr
  no_tab : pgmr.head? ≠ some 9

theorem NONBLANK_name {pgmr : Line} (h : NameOk pgmr) (p : Line) :
    NONBLANK (pgmr ++ p) = pgmr ++ p := by
  obtain ⟨c, cs, rfl⟩ := List.exists_cons_of_ne_nil h.ne_nil
  refine NONBLANK_cons ?_ ?_ _
  · rintro rfl
    exact h.no_blank List.mem_cons_self
  · rintro rfl
    exact h.no_tab rfl

/-- The fields behind the type letter. -/
theorem del_fields_eq {dt dt' : Deltab} {timezone : ℤ} {l : LocalTime}
    (hl : l.Shows timezone dt.d_datetime) (hsid : SidOk dt.d_sid) (hname : NameOk dt.d_pgmr)
    (htype : dt'.d_type = dt.d_type) :
    del_fields (constant timezone) (32 :: (sid_ba dt.d_sid ++ 32 :: (date_ba l.date ++
      32 :: (dt.d_pgmr ++ 32 :: (decimal dt.d_serial ++ 32 :: (decimal dt.d_pred ++ [10])))))) dt' =
      some dt := by
  unfold del_fields
  rw [NONBLANK_blank, NONBLANK_sid_ba, sid_ab_sid_ba hsid (by decide) (by decide)]
  dsimp only
  rw [NONBLANK_blank, NONBLANK_date_ba, date_ab_local hl (by simp [isDigit])]
  dsimp only
  rw [NONBLANK_blank, NONBLANK_name hname]
  have htake : (dt.d_pgmr ++ 32 :: (decimal dt.d_serial ++ 32 :: (decimal dt.d_pred ++ [10]))).takeWhile
      (· ≠ 32) = dt.d_pgmr := by
    rw [List.takeWhile_append_of_pos (fun c hc => ?_), List.takeWhile_cons_of_neg (by simp),
      List.append_nil]
    simpa using fun h : c = 32 => hname.no_blank (h ▸ hc)
  have hdrop : (dt.d_pgmr ++ 32 :: (decimal dt.d_serial ++ 32 :: (decimal dt.d_pred ++ [10]))).drop
      (dt.d_pgmr.length + 1) = decimal dt.d_serial ++ 32 :: (decimal dt.d_pred ++ [10]) := by
    rw [← List.drop_drop, List.drop_left, List.drop_one, List.tail_cons]
  rw [if_neg (by simp), htake, hdrop, NONBLANK_decimal, satoi_decimal _ (by decide)]
  dsimp only
  rw [NONBLANK_blank, NONBLANK_decimal, satoi_decimal _ (by decide)]
  dsimp only
  rw [if_neg (by simp [chr]), htype]
  rfl

/-- `del_ab` recovers what `del_ba` writes. -/
theorem del_ab_del_ba (dt dt' : Deltab) (timezone : ℤ) (l : LocalTime)
    (hl : l.Shows timezone dt.d_datetime) (htype : dt.d_type ≠ 32 ∧ dt.d_type ≠ 9)
    (hsid : SidOk dt.d_sid) (hname : NameOk dt.d_pgmr) :
    del_ab (constant timezone) (del_ba dt l.date) dt' = some (BDELTAB, dt) := by
  unfold del_ab del_ba
  simp only [List.append_assoc, List.cons_append, List.nil_append]
  rw [if_neg (by simp [chr]), if_neg (by simp [chr])]
  dsimp only [List.tail_cons]
  rw [NONBLANK_blank, NONBLANK_cons htype.1 htype.2]
  dsimp only [List.tail_cons]
  exact congrArg (Option.map (BDELTAB, ·)) (del_fields_eq hl hsid hname (by rfl))

/-- The first second of 2000. -/
def newYear : LocalTime where
  year := 2000
  mon := 1
  mday := 1
  hour := 0
  min := 0
  sec := 0
  year_ge := by decide
  year_le := by decide
  mon_pos := one_le_one
  mon_le := one_le_twelve
  mday_pos := one_le_one
  mday_le := by decide
  hour_lt := zero_lt_hours
  min_lt := zero_lt_minutes
  sec_lt := zero_lt_minutes

def firstDelta (pgmr : Line) : Deltab := ⟨⟨1, 1, 0, 0⟩, 1, 0, 946684800, pgmr, 68⟩

theorem del_ab_del_ba_firstDelta :
    del_ab (constant 0) (del_ba (firstDelta [109, 101]) newYear.date) (firstDelta []) =
      some (BDELTAB, firstDelta [109, 101]) := by
  refine del_ab_del_ba _ _ 0 newYear ?_ (by decide) (by decide) ⟨by decide, by decide, by decide⟩
  have hseconds : newYear.seconds = 946684800 := by decide +kernel
  unfold LocalTime.Shows
  rw [hseconds]
  rfl

/-- Without a name the serial is read for it. -/
theorem not_del_ab_del_ba : ¬ ∀ (dt dt' : Deltab) (timezone : ℤ) (l : LocalTime),
    l.Shows timezone dt.d_datetime → dt.d_type ≠ 32 ∧ dt.d_type ≠ 9 → SidOk dt.d_sid →
    (∀ c ∈ dt.d_pgmr, c ≠ 32 ∧ c ≠ 9) → dt.d_pgmr.length < LOGSIZE →
    del_ab (constant timezone) (del_ba dt l.date) dt' = some (BDELTAB, dt) := by
  intro h
  have hseconds : newYear.seconds = 946684800 := by decide +kernel
  have hall := h (firstDelta []) (firstDelta []) 0 newYear
    (by unfold LocalTime.Shows; rw [hseconds]; rfl) (by decide) (by decide)
    (fun c hc => absurd hc List.not_mem_nil) (by decide)
  have hpgmr : (del_ab (constant 0) (del_ba (firstDelta []) newYear.date) (firstDelta [])).map
      (fun r => r.2.d_pgmr) = some [49] := by decide +kernel
  rw [hall] at hpgmr
  exact absurd (Option.some.inj hpgmr) (by decide)

end Unitas.Sccs.Edit
