import Mathlib
import Unitas.Sccs.Pfile

/-! An entry of the p-file is read as it was written. -/
namespace Unitas.Sccs.Edit
open Unitas.Decimal

/-- A number ends at any other character. -/
theorem satoi_decimal (n : ℕ) {c : UInt8} (hc : isDigit c = false) (rest : Line) :
    satoi (decimal n ++ c :: rest) = (n, c :: rest) := by
  unfold satoi
  rw [takeWhile_decimal n hc, dropWhile_decimal n hc, decValue_decimal]

theorem sidNumber_dot (n : ℕ) (rest : Line) :
    sidNumber (decimal n ++ 46 :: rest) = (n, rest) := by
  unfold sidNumber
  rw [satoi_decimal n (by decide)]
  rfl

theorem sidNumber_end (n : ℕ) {c : UInt8} (hc : isDigit c = false) (hdot : c ≠ 46) (rest : Line) :
    sidNumber (decimal n ++ c :: rest) = (n, c :: rest) := by
  unfold sidNumber
  rw [satoi_decimal n hc]
  simp [chr, hdot]

theorem sidNumber_none {c : UInt8} (hc : isDigit c = false) (hdot : c ≠ 46) (rest : Line) :
    sidNumber (c :: rest) = (0, c :: rest) := by
  unfold sidNumber satoi
  simp [hc, chr, hdot, decValue]

/-- The SIDs that `chksid` lets through. -/
def SidOk (s : Sid) : Prop := s.s_br = 0 → s.s_seq = 0
deriving Decidable

theorem sid_ab_sid_ba {s : Sid} (h : SidOk s) {c : UInt8} (hc : isDigit c = false)
    (hdot : c ≠ 46) (rest : Line) : sid_ab (sid_ba s ++ c :: rest) = (s, c :: rest) := by
  unfold sid_ba sid_ab
  by_cases hbr : s.s_br = 0
  · have hseq := h hbr
    rw [if_pos hbr, List.append_nil, List.append_assoc, List.cons_append, sidNumber_dot]
    dsimp only
    rw [sidNumber_end _ hc hdot]
    dsimp only
    rw [sidNumber_none hc hdot]
    dsimp only
    have hlast : satoi (c :: rest) = (0, c :: rest) := by
      unfold satoi
      simp [hc, decValue]
    rw [hlast]
    cases s
    simp_all
  · rw [if_neg hbr]
    simp only [List.append_assoc, List.cons_append]
    rw [sidNumber_dot]
    dsimp only
    rw [sidNumber_dot]
    dsimp only
    rw [sidNumber_dot]
    dsimp only
    rw [satoi_decimal _ hc]

theorem isDigit_ofNat {d : ℕ} (h : d < 10) : isDigit (UInt8.ofNat (48 + d)) = true := by
  have hval := toNat_digit h
  simp only [isDigit, Bool.and_eq_true, decide_eq_true_eq, UInt8.le_iff_toNat_le, hval]
  exact ⟨Nat.le_add_right _ _, by change 48 + d ≤ 57; omega⟩

/-- A number of two digits, behind characters that are none. -/
theorem gN_DO2 (pre : Line) {rest : Line} (hpre : ∀ c ∈ pre, isDigit c = false) {n : ℕ} (hn : n < 100)
    {k : ℕ} (hk : 2 ≤ k) (hrest : ∀ c ∈ rest.head?, isDigit c = false) :
    gN (pre ++ DO2 n ++ rest) k = (some n, rest, 2) := by
  have h1 := isDigit_ofNat (d := n / 10) (by omega)
  have h2 := isDigit_ofNat (d := n % 10) (by omega)
  have hdrop : (pre ++ DO2 n ++ rest).dropWhile (fun c => !isDigit c) = DO2 n ++ rest := by
    rw [List.append_assoc, List.dropWhile_append_of_pos (by simpa using hpre)]
    unfold DO2
    rw [List.cons_append, List.dropWhile_cons_of_neg (by rw [h1]; decide)]
  have htake : (DO2 n ++ rest).takeWhile isDigit = DO2 n := by
    unfold DO2
    rw [List.cons_append, List.takeWhile_cons_of_pos h1, List.cons_append,
      List.takeWhile_cons_of_pos h2, List.nil_append]
    cases rest with
    | nil => rfl
    | cons c rest =>
      rw [List.takeWhile_cons_of_neg (by simpa using hrest c (by simp))]
  have hvalue : decValue (DO2 n) = n := by
    have hd1 := toNat_digit (d := n / 10) (by omega)
    have hd2 := toNat_digit (d := n % 10) (by omega)
    unfold DO2 decValue
    rw [List.foldl_cons, List.foldl_cons, List.foldl_nil, hd1, hd2]
    omega
  have hlen : (DO2 n).take k = DO2 n := List.take_of_length_le hk
  unfold gN
  dsimp only
  rw [hdrop, htake, hlen, hvalue, if_neg (by simp [DO2])]
  rfl

theorem NONBLANK_DO2 (n : ℕ) (hn : n < 100) (rest : Line) :
    NONBLANK (DO2 n ++ rest) = DO2 n ++ rest := by
  have h1 := isDigit_ofNat (d := n / 10) (by omega)
  unfold NONBLANK DO2
  rw [List.cons_append, List.dropWhile_cons_of_neg]
  intro hblank
  simp only [Bool.or_eq_true, beq_iff_eq] at hblank
  rcases hblank with h | h
  · rw [h] at h1
    exact absurd h1 (by decide)
  · rw [h] at h1
    exact absurd h1 (by decide)

theorem Date.mday_lt (d : Date) : d.mday < 100 := by
  have h1 := d.mday_le
  have h2 : mosize d.year d.mon ≤ 31 := by
    have := d.mon_le
    have := d.mon_pos
    unfold mosize
    split_ifs
    · omega
    · interval_cases d.mon <;> decide
  omega

/-- The year of a date of two digits. -/
def Date.full (d : Date) : ℕ := if d.year < 69 then d.year + 2000 else d.year + 1900

def clock (days hour min sec : ℕ) : ℕ := ((days * 24 + hour) * 60 + min) * 60 + sec

/-- The seconds that `date_ab` makes of a date. -/
def Date.seconds (d : Date) : ℕ :=
  clock (((List.range (d.full - 1970)).map fun i => dysize (1970 + i)).sum +
    ((List.range (d.mon - 1)).map fun i => mosize d.full (i + 1)).sum + d.mday - 1)
    d.hour d.min d.sec

/-- A date is read as the time that it says, and `Datep` is left at its end. -/
theorem date_ab_eq (zone : Zone) (d : Date) {rest : Line}
    (hrest : ∀ c ∈ rest.head?, isDigit c = false) :
    date_ab zone (date_ba d ++ rest) =
      (if 59 < d.sec then none
        else some (if zone.isdst (d.seconds + zone.timezone) then d.seconds + zone.timezone - 3600
          else d.seconds + zone.timezone), rest) := by
  have hdot (c : UInt8) (hc : isDigit c = false) (r : Line) :
      ∀ e ∈ (c :: r).head?, isDigit e = false := by simpa using hc
  have hone (c : UInt8) (hc : isDigit c = false) : ∀ e ∈ [c], isDigit e = false := by
    simpa using hc
  have hsize (y : ℕ) (hy : y % 4 = d.year % 4) : mosize y d.mon = mosize d.year d.mon := by
    unfold mosize dysize
    rw [hy]
  have hyear := gN_DO2 [] (by simp) d.year_lt (k := 4) (by decide)
    (hdot 47 (by decide) (DO2 d.mon ++ 47 :: (DO2 d.mday ++ 32 :: (DO2 d.hour ++
      58 :: (DO2 d.min ++ 58 :: (DO2 d.sec ++ rest))))))
  have hmon := gN_DO2 [47] (hone 47 (by decide)) (show d.mon < 100 by have := d.mon_le; omega)
    (k := 2) le_rfl (hdot 47 (by decide) (DO2 d.mday ++ 32 :: (DO2 d.hour ++
      58 :: (DO2 d.min ++ 58 :: (DO2 d.sec ++ rest)))))
  have hday := gN_DO2 [47] (hone 47 (by decide)) d.mday_lt
    (k := 2) le_rfl (hdot 32 (by decide) (DO2 d.hour ++ 58 :: (DO2 d.min ++ 58 :: (DO2 d.sec ++ rest))))
  have hhour := gN_DO2 [] (by simp) (show d.hour < 100 by have := d.hour_lt; omega)
    (k := 2) le_rfl (hdot 58 (by decide) (DO2 d.min ++ 58 :: (DO2 d.sec ++ rest)))
  have hmin := gN_DO2 [58] (hone 58 (by decide)) (show d.min < 100 by have := d.min_lt; omega)
    (k := 2) le_rfl (hdot 58 (by decide) (DO2 d.sec ++ rest))
  have hsec := gN_DO2 [58] (hone 58 (by decide)) (show d.sec < 100 by have := d.sec_le; omega)
    (k := 2) le_rfl hrest
  have hblank : NONBLANK (32 :: (DO2 d.hour ++ 58 :: (DO2 d.min ++ 58 :: (DO2 d.sec ++ rest)))) =
      DO2 d.hour ++ 58 :: (DO2 d.min ++ 58 :: (DO2 d.sec ++ rest)) := by
    have h := NONBLANK_DO2 d.hour (by have := d.hour_lt; omega)
      (58 :: (DO2 d.min ++ 58 :: (DO2 d.sec ++ rest)))
    unfold NONBLANK at h ⊢
    rw [List.dropWhile_cons_of_pos (by decide), h]
  simp only [List.nil_append, List.cons_append] at hyear hmon hday hhour hmin hsec
  unfold date_ba
  simp only [List.append_assoc, List.cons_append]
  unfold date_ab
  rw [NONBLANK_DO2 _ d.year_lt, hyear]
  dsimp only
  rw [if_neg (by omega), hmon]
  dsimp only
  have := d.mon_pos
  have := d.mon_le
  rw [if_neg (by omega), hday]
  dsimp only
  have := d.mday_pos
  have := d.mday_le
  have hy : mosize (if 2 ≤ 2 then if d.year < 69 then d.year + 2000 else d.year + 1900 else d.year)
      d.mon = mosize d.year d.mon := by
    apply hsize
    split_ifs <;> omega
  rw [hy, if_neg (by omega), hblank, hhour]
  dsimp only
  have := d.hour_lt
  rw [if_neg (by omega), hmin]
  dsimp only
  have := d.min_lt
  rw [if_neg (by omega), hsec]
  dsimp only
  by_cases hsec60 : 59 < d.sec
  · rw [if_pos hsec60, if_pos hsec60]
  · rw [if_neg hsec60, if_neg hsec60]
    rfl

theorem date_ab_date_ba (zone : Zone) (d : Date) {rest : Line}
    (hrest : ∀ c ∈ rest.head?, isDigit c = false) :
    (date_ab zone (date_ba d ++ rest)).2 = rest := by
  rw [date_ab_eq zone d hrest]

/-! ### Entries -/

/-- The characters of the lists that `dolist` lets through. Which of them it takes is for the delta
table to say: `enter` ends with an error at a SID of the table that is named a second time. -/
def ListOk (l : Line) : Prop := ∀ c ∈ l, isDigit c = true ∨ c = 46 ∨ c = 45 ∨ c = 44
deriving Decidable

/-- A login name that finds room in `pf_user`. -/
def UserOk (user : Line) : Prop :=
  user ≠ [] ∧ user.length < LOGSIZE ∧ ∀ c ∈ user, c ≠ 32 ∧ c ≠ 10 ∧ c ≠ 0
deriving Decidable

/-- What the programs promise of an entry. -/
structure Reservation.Proper (r : Reservation) : Prop where
  gsid : SidOk r.gsid
  nsid : SidOk r.nsid
  inc : ∀ l ∈ r.inc, ListOk l
  exc : ∀ l ∈ r.exc, ListOk l
  cmr : ∀ l ∈ r.cmr, ∀ c ∈ l, c ≠ 10 ∧ c ≠ 0

instance (r : Reservation) : Decidable r.Proper :=
  decidable_of_iff (SidOk r.gsid ∧ SidOk r.nsid ∧ (∀ l ∈ r.inc, ListOk l) ∧
      (∀ l ∈ r.exc, ListOk l) ∧ ∀ l ∈ r.cmr, ∀ c ∈ l, c ≠ 10 ∧ c ≠ 0)
    ⟨fun ⟨a, b, c, d, e⟩ => ⟨a, b, c, d, e⟩, fun ⟨a, b, c, d, e⟩ => ⟨a, b, c, d, e⟩⟩

/-- Characters that can stand in a line. -/
def Inside (l : Line) : Prop := ∀ c ∈ l, c ≠ 10 ∧ c ≠ 0

theorem Inside.append {l m : Line} (hl : Inside l) (hm : Inside m) : Inside (l ++ m) :=
  fun c hc => (List.mem_append.mp hc).elim (hl c) (hm c)

theorem Inside.cons {c : UInt8} {l : Line} (h10 : c ≠ 10) (h0 : c ≠ 0) (hl : Inside l) :
    Inside (c :: l) := List.forall_mem_cons.mpr ⟨⟨h10, h0⟩, hl⟩

theorem inside_of_digits {l : Line} (h : ∀ c ∈ l, isDigit c = true) : Inside l := by
  intro c hc
  have hd := h c hc
  constructor
  · rintro rfl
    exact absurd hd (by decide)
  · rintro rfl
    exact absurd hd (by decide)

theorem inside_sid_ba (s : Sid) : Inside (sid_ba s) := by
  have hdec (n : ℕ) : Inside (decimal n) := inside_of_digits (decimal_isDigit n)
  unfold sid_ba
  split_ifs
  · rw [List.append_nil]
    exact (hdec _).append (.cons (by decide) (by decide) (hdec _))
  · exact ((hdec _).append (.cons (by decide) (by decide) (hdec _))).append
      (.cons (by decide) (by decide) ((hdec _).append (.cons (by decide) (by decide) (hdec _))))

theorem DO2_isDigit {n : ℕ} (hn : n < 100) : ∀ c ∈ DO2 n, isDigit c = true := by
  unfold DO2
  intro c hc
  simp only [List.mem_cons, List.not_mem_nil, or_false] at hc
  rcases hc with rfl | rfl
  · exact isDigit_ofNat (by omega)
  · exact isDigit_ofNat (by omega)

theorem inside_date_ba (d : Date) : Inside (date_ba d) := by
  have hdo {n : ℕ} (hn : n < 100) : Inside (DO2 n) := inside_of_digits (DO2_isDigit hn)
  have := d.mon_le
  have := d.hour_lt
  have := d.min_lt
  have := d.sec_le
  unfold date_ba
  exact ((((((hdo d.year_lt).append (.cons (by decide) (by decide) (hdo (by omega)))).append
    (.cons (by decide) (by decide) (hdo d.mday_lt))).append
    (.cons (by decide) (by decide) (hdo (by omega)))).append
    (.cons (by decide) (by decide) (hdo (by omega)))).append
    (.cons (by decide) (by decide) (hdo (by omega))))

theorem inside_listArg {key : UInt8} (h10 : key ≠ 10) (h0 : key ≠ 0) {list : Option Line}
    (h : ∀ l ∈ list, Inside l) : Inside (listArg key list) := by
  cases list with
  | none => simp [listArg, Inside]
  | some l => exact .cons (by decide) (by decide) (.cons (by decide) (by decide)
      (.cons h10 h0 (h l rfl)))

theorem ListOk.inside {l : Line} (h : ListOk l) : Inside l := by
  intro c hc
  rcases h c hc with hd | rfl | rfl | rfl
  · exact inside_of_digits (l := [c]) (by simpa using hd) c (by simp)
  · decide
  · decide
  · decide

theorem ListOk.no_blank {l : Line} (h : ListOk l) : ∀ c ∈ l, c ≠ 32 := by
  intro c hc
  rcases h c hc with hd | rfl | rfl | rfl
  · rintro rfl
    exact absurd hd (by decide)
  · decide
  · decide
  · decide

/-- The line without its newline. -/
def Reservation.text (r : Reservation) : Line :=
  sid_ba r.gsid ++ 32 :: sid_ba r.nsid ++ 32 :: r.user ++ 32 :: date_ba r.date ++
    listArg 105 r.inc ++ listArg 120 r.exc ++ listArg 122 r.cmr

theorem Reservation.line_eq (r : Reservation) : r.line = r.text ++ [10] := rfl

theorem Reservation.inside_text {r : Reservation} (h : r.Proper) (hu : UserOk r.user) :
    Inside r.text := by
  have huser : Inside r.user := fun c hc => (hu.2.2 c hc).2
  have hinc : Inside (listArg 105 r.inc) :=
    inside_listArg (by decide) (by decide) fun l hl => (h.inc l hl).inside
  have hexc : Inside (listArg 120 r.exc) :=
    inside_listArg (by decide) (by decide) fun l hl => (h.exc l hl).inside
  have hcmr : Inside (listArg 122 r.cmr) := inside_listArg (by decide) (by decide) h.cmr
  unfold Reservation.text
  exact ((((((inside_sid_ba _).append (.cons (by decide) (by decide) (inside_sid_ba _))).append
    (.cons (by decide) (by decide) huser)).append
    (.cons (by decide) (by decide) (inside_date_ba _))).append hinc).append hexc).append hcmr

/-! ### Reading -/

theorem listField_none {key : UInt8} {p : Line} (h : chr p ≠ key ∨ p = []) :
    listField key p = .ok (none, p) := by
  unfold listField
  rw [if_neg]
  rintro ⟨hkey, hne⟩
  rcases h with h | h
  · exact h hkey
  · exact hne h

theorem listField_some {key : UInt8} {l : Line} (hl : ∀ c ∈ l, c ≠ 32) {more : Line}
    (hmore : more = [] ∨ ∃ k m, more = 32 :: 45 :: k :: m) :
    listField key (key :: (l ++ more)) = .ok (some l, more.drop 2) := by
  have hall : ∀ c ∈ l, decide (c ≠ 32) = true := by simpa using hl
  unfold listField
  rw [if_pos ⟨rfl, List.cons_ne_nil _ _⟩, List.tail_cons, List.dropWhile_append_of_pos hall,
    List.takeWhile_append_of_pos hall]
  rcases hmore with rfl | ⟨k, m, rfl⟩
  · simp
  · simp

theorem listArg_shape (key : UInt8) (list : Option Line) (more : Line)
    (hmore : more = [] ∨ ∃ k m, more = 32 :: 45 :: k :: m) :
    listArg key list ++ more = [] ∨ ∃ k m, listArg key list ++ more = 32 :: 45 :: k :: m := by
  cases list with
  | none => exact hmore
  | some l => exact Or.inr ⟨key, l ++ more, rfl⟩

/-- One list after the other is read. -/
theorem listField_eq (key : UInt8) {list : Option Line} (hl : ∀ l ∈ list, ∀ c ∈ l, c ≠ 32)
    {more : Line} (hmore : more = [] ∨ ∃ k m, more = 32 :: 45 :: k :: m ∧ k ≠ key) :
    listField key ((listArg key list ++ more).drop 2) = .ok (list, more.drop 2) := by
  cases list with
  | none =>
    apply listField_none
    rcases hmore with rfl | ⟨k, m, rfl, hk⟩
    · exact Or.inr rfl
    · exact Or.inl hk
  | some l =>
    apply listField_some (hl l rfl)
    rcases hmore with h | ⟨k, m, h, -⟩
    · exact Or.inl h
    · exact Or.inr ⟨k, m, h⟩

theorem pf_lists_eq {inc exc : Option Line} (cmr : Option Line) (hinc : ∀ l ∈ inc, ListOk l)
    (hexc : ∀ l ∈ exc, ListOk l) :
    pf_lists (listArg 105 inc ++ (listArg 120 exc ++ listArg 122 cmr)) = .ok (inc, exc, cmr) := by
  have hC : listArg 122 cmr = [] ∨ ∃ k m, listArg 122 cmr = 32 :: 45 :: k :: m ∧ k = 122 := by
    cases cmr with
    | none => exact Or.inl rfl
    | some l => exact Or.inr ⟨122, l, rfl, rfl⟩
  have hE : listArg 120 exc ++ listArg 122 cmr = [] ∨
      ∃ k m, listArg 120 exc ++ listArg 122 cmr = 32 :: 45 :: k :: m ∧ k ≠ 105 := by
    cases exc with
    | none =>
      rcases hC with h | ⟨k, m, h, rfl⟩
      · exact Or.inl h
      · exact Or.inr ⟨122, m, h, by decide⟩
    | some l => exact Or.inr ⟨120, _, rfl, by decide⟩
  have h1 := listField_eq 105 (fun l hl => (hinc l hl).no_blank) hE
  have hZ : listArg 122 cmr = [] ∨ ∃ k m, listArg 122 cmr = 32 :: 45 :: k :: m ∧ k ≠ 120 := by
    rcases hC with h | ⟨k, m, h, rfl⟩
    · exact Or.inl h
    · exact Or.inr ⟨122, m, h, by decide⟩
  have h2 := listField_eq 120 (fun l hl => (hexc l hl).no_blank) hZ
  have hshape := listArg_shape 105 inc (listArg 120 exc ++ listArg 122 cmr) (by
    rcases hE with h | ⟨k, m, h, -⟩
    · exact Or.inl h
    · exact Or.inr ⟨k, m, h⟩)
  rcases hshape with hnil | ⟨k, m, hcons⟩
  · have hi : inc = none := by
      cases inc with
      | none => rfl
      | some l => simp [listArg] at hnil
    have he : exc = none := by
      cases exc with
      | none => rfl
      | some l => simp [listArg] at hnil
    have hz : cmr = none := by
      cases cmr with
      | none => rfl
      | some l => simp [listArg] at hnil
    subst hi he hz
    rfl
  · have hdrop : (listArg 105 inc ++ (listArg 120 exc ++ listArg 122 cmr)).drop 2 = k :: m := by
      rw [hcons]
      rfl
    rw [hdrop] at h1
    rw [hcons]
    unfold pf_lists
    simp only [h1, h2, bind, Except.bind]
    cases cmr with
    | none => rfl
    | some l => rfl

theorem takeWhile_newline {l : Line} (h : Inside l) (rest : Line) :
    (l ++ 10 :: rest).takeWhile (· ≠ 10) = l := by
  rw [List.takeWhile_append_of_pos (by simpa using fun c hc => (h c hc).1)]
  simp

/-- What is read of an entry: everything that was written. -/
def Reservation.parsed (zone : Zone) (r : Reservation) (all : Bool) : Pfile where
  pf_gsid := r.gsid
  pf_nsid := r.nsid
  pf_user := r.user
  pf_date := (date_ab zone (date_ba r.date ++
    (listArg 105 r.inc ++ (listArg 120 r.exc ++ listArg 122 r.cmr)))).1
  pf_ilist := if all then r.inc else none
  pf_elist := if all then r.exc else none
  pf_cmrlist := if all then r.cmr else none

theorem pf_ab_text (zone : Zone) {r : Reservation} (h : r.Proper) (hu : UserOk r.user)
    (all : Bool) {s : Line} (hs : s.takeWhile (· ≠ 10) = r.text) :
    pf_ab zone s all = .ok (r.parsed zone all) := by
  obtain ⟨hune, hulen, huser⟩ := hu
  have hlists := pf_lists_eq r.cmr h.inc h.exc
  have hrest : ∀ c ∈ (listArg 105 r.inc ++ (listArg 120 r.exc ++ listArg 122 r.cmr)).head?,
      isDigit c = false := by
    cases r.inc <;> cases r.exc <;> cases r.cmr <;> simp [listArg] <;> decide
  have hdate := date_ab_date_ba zone r.date hrest
  have htext : r.text = sid_ba r.gsid ++ 32 :: (sid_ba r.nsid ++ 32 :: (r.user ++ 32 ::
      (date_ba r.date ++ (listArg 105 r.inc ++ (listArg 120 r.exc ++ listArg 122 r.cmr))))) := by
    unfold Reservation.text
    simp only [List.append_assoc, List.cons_append]
  have hall : ∀ c ∈ r.user, decide (c ≠ 32) = true := by
    simpa using fun c hc => (huser c hc).1
  unfold pf_ab
  rw [hs, htext, sid_ab_sid_ba h.gsid (by decide) (by decide)]
  dsimp only
  rw [if_neg (List.cons_ne_nil _ _), List.tail_cons, sid_ab_sid_ba h.nsid (by decide) (by decide)]
  dsimp only
  rw [if_neg (List.cons_ne_nil _ _), List.tail_cons, List.takeWhile_append_of_pos hall,
    List.takeWhile_cons_of_neg (by decide), List.append_nil, if_neg (by simp; omega)]
  generalize hR : date_ba r.date ++ (listArg 105 r.inc ++ (listArg 120 r.exc ++
    listArg 122 r.cmr)) = R at hdate
  have hdrop : (r.user ++ 32 :: R).drop (r.user.length + 1) = R := by
    rw [List.drop_append]
    simp
  have htake : (r.user ++ 32 :: R).take r.user.length = r.user := by
    rw [List.take_append]
    simp
  rw [hdrop, htake, hdate, hlists]
  unfold Reservation.parsed
  rw [hR]
  cases all <;> rfl

/-- `pf_ab` recovers what `wrtpfile` wrote. -/
theorem pf_ab_line (zone : Zone) {r : Reservation} (h : r.Proper) (hu : UserOk r.user)
    (all : Bool) : pf_ab zone r.line all = .ok (r.parsed zone all) :=
  pf_ab_text zone h hu all (takeWhile_newline (r.inside_text h hu) [])

theorem pf_ab_dropLast (zone : Zone) {r : Reservation} (h : r.Proper) (hu : UserOk r.user)
    (all : Bool) : pf_ab zone r.line.dropLast all = .ok (r.parsed zone all) := by
  apply pf_ab_text zone h hu all
  rw [r.line_eq, List.dropLast_concat, List.takeWhile_eq_self_iff]
  intro c hc
  simpa using (r.inside_text h hu c hc).1

theorem fgets_line {n : ℕ} {l : Line} (h : Inside l) (hlen : l.length + 1 ≤ n) (rest : Line) :
    fgets n (l ++ [10] ++ rest) = (l ++ [10], rest) := by
  induction l generalizing n with
  | nil =>
    obtain ⟨n, rfl⟩ := Nat.exists_eq_add_of_le' hlen
    simp [fgets]
  | cons c l ih =>
    obtain ⟨n, rfl⟩ : ∃ k, n = k + 1 := ⟨n - 1, by simp at hlen; omega⟩
    obtain ⟨hc, hl⟩ := List.forall_mem_cons.mp h
    rw [List.cons_append, List.cons_append, fgets, if_neg hc.1,
      ih hl (by simpa using hlen)]

/-- The lines of a p-file are read one by one if they have room in the buffer. -/
theorem bufs_eq {n : ℕ} {rs : List Reservation}
    (hrs : ∀ r ∈ rs, r.Proper ∧ UserOk r.user ∧ r.line.length < n) :
    bufs n (rs.flatMap Reservation.line) = rs.map Reservation.line := by
  have hfrom (fuel : ℕ) (hfuel : (rs.flatMap Reservation.line).length ≤ fuel) :
      bufsFrom n fuel (rs.flatMap Reservation.line) = rs.map Reservation.line := by
    induction rs generalizing fuel with
    | nil => cases fuel <;> simp [bufsFrom]
    | cons r rs ih =>
      obtain ⟨⟨hr, hu, hlen⟩, hrs⟩ := List.forall_mem_cons.mp hrs
      rw [List.flatMap_cons, List.length_append] at hfuel
      have hline := r.line_eq
      have hpos : r.line.length = r.text.length + 1 := by rw [hline]; simp
      obtain ⟨fuel, rfl⟩ : ∃ k, fuel = k + 1 := ⟨fuel - 1, by omega⟩
      have hzero : cstr (r.text ++ [10]) = r.text ++ [10] := by
        unfold cstr
        rw [List.takeWhile_eq_self_iff]
        intro c hc
        rcases List.mem_append.mp hc with hc | hc
        · simpa using (r.inside_text hr hu c hc).2
        · rw [List.mem_singleton.mp hc]
          decide
      unfold bufsFrom
      rw [List.flatMap_cons, if_neg (by rw [hline]; simp), hline,
        fgets_line (r.inside_text hr hu) (by omega), hzero, List.map_cons, hline,
        ih hrs fuel (by omega)]
  exact hfrom _ le_rfl

end Unitas.Sccs.Edit
