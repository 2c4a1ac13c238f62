import Unitas.Sccs.Dodelt

/-! Well-formed s-files. -/
namespace Unitas.Sccs

/-- A line of the delta table that belongs to the delta before it. -/
def IsDeltaLine (l : Line) : Prop :=
  chr l = CTLCHAR ∧ (chr l.tail = COMMENTS ∨ chr l.tail = MRNUM ∨ chr l.tail = INCLUDE ∨
    chr l.tail = EXCLUDE ∨ chr l.tail = IGNORE)

/-- A delta of the table, with the statistics before it. -/
structure TableEntry (zone : Zone) where
  stats : Line
  first : Line
  dt : Deltab
  lines : List Line
  last : Line
  isStats : chr stats = CTLCHAR ∧ chr stats.tail = STATS
  isFirst : ∀ dt₀, del_ab zone first dt₀ = some (BDELTAB, dt)
  isLine : ∀ l ∈ lines, IsDeltaLine l
  isLast : chr last = CTLCHAR ∧ chr last.tail = EDELTAB

variable {zone : Zone}

/-- A delta that has not been removed. -/
def TableEntry.Live (e : TableEntry zone) : Prop := e.dt.d_type = 68

instance (e : TableEntry zone) : Decidable e.Live := inferInstanceAs (Decidable (_ = _))

def TableEntry.text (e : TableEntry zone) : List Line :=
  e.stats :: e.first :: (e.lines ++ [e.last])

/-- An s-file in its parts. The deltas are from the last to the first, and each comes after its
predecessor. -/
structure Sfile (zone : Zone) where
  hash : ℕ
  deltas : List (TableEntry zone)
  bUsers : Line
  users : List Line
  eUsers : Line
  flags : List Line
  bText : Line
  comments : List Line
  eText : Line
  body : List Line
  hash_lt : hash < 65536
  deltas_ne_nil : deltas ≠ []
  descending : deltas.Pairwise fun e e' => e'.dt.d_serial < e.dt.d_serial
  serial_pos : ∀ e ∈ deltas, 0 < e.dt.d_serial
  pred_lt : ∀ e ∈ deltas, e.Live → e.dt.d_pred < e.dt.d_serial
  rel_pos : ∀ e ∈ deltas, e.Live → 0 < e.dt.d_sid.s_rel
  sid_inj : ∀ e ∈ deltas, ∀ e' ∈ deltas, e.Live → e'.Live → e.dt.d_sid = e'.dt.d_sid →
    e.dt.d_serial = e'.dt.d_serial
  isBUsers : chr bUsers ≠ CTLCHAR ∨ chr bUsers.tail ≠ STATS
  isUser : ∀ l ∈ users, chr l ≠ CTLCHAR
  isEUsers : chr eUsers = CTLCHAR ∧ chr eUsers.tail = EUSERNAM
  isFlag : ∀ l ∈ flags, chr l = CTLCHAR ∧ chr l.tail = FLAG
  isBText : ¬ (chr bText = CTLCHAR ∧ chr bText.tail = FLAG)
  isComment : ∀ l ∈ comments, ¬ (chr l = CTLCHAR ∧ chr l.tail = EUSERTXT)
  isEText : chr eText = CTLCHAR ∧ chr eText.tail = EUSERTXT

/-- What comes after the delta table. -/
def Sfile.rest (S : Sfile zone) : List Line :=
  S.bUsers :: (S.users ++ S.eUsers :: (S.flags ++ S.bText :: (S.comments ++ S.eText :: S.body)))

/-- All lines but the first. -/
def Sfile.tail (S : Sfile zone) : List Line := S.deltas.flatMap TableEntry.text ++ S.rest

def Sfile.lines (S : Sfile zone) : List Line := headLine S.hash :: S.tail

def IsIxg (l : Line) : Prop :=
  chr l.tail = INCLUDE ∨ chr l.tail = EXCLUDE ∨ chr l.tail = IGNORE

instance (l : Line) : Decidable (IsIxg l) := inferInstanceAs (Decidable (_ ∨ _))

/-- A list is entered into the table. -/
def enterList (serial : ℕ) (idel : ℕ → Idel) (l : Line) : ℕ → Idel :=
  if IsIxg l then
    Function.update idel serial { idel serial with i_ixg := doixg l (idel serial).i_ixg }
  else idel

/-- What a delta is in the table of the packet. -/
def TableEntry.enter (idel : Option (ℕ → Idel)) (e : TableEntry zone) : Option (ℕ → Idel) :=
  let idel := idel.getD (newIdel e.dt.d_serial)
  some (if e.Live then e.lines.foldl (enterList e.dt.d_serial) (enterDelta e.dt idel) else idel)

def Sfile.idel (S : Sfile zone) : Option (ℕ → Idel) := S.deltas.foldl TableEntry.enter none

theorem foldl_enter_some (e : TableEntry zone) (es : List (TableEntry zone))
    (idel : Option (ℕ → Idel)) : ∃ idel', (e :: es).foldl TableEntry.enter idel = some idel' := by
  induction es generalizing e idel with
  | nil => exact ⟨_, rfl⟩
  | cons e' es ih => exact ih e' (e.enter idel)

end Unitas.Sccs

/-! The table that the deltas of an s-file make, and the one after a delta is removed. -/
namespace Unitas.Sccs

variable {zone : Zone}

def addList (ixg : List (UInt8 × ℤ × List ℕ)) (l : Line) : List (UInt8 × ℤ × List ℕ) :=
  if IsIxg l then doixg l ixg else ixg

/-- The entry of a delta. -/
def TableEntry.idel (e : TableEntry zone) : Idel :=
  ⟨e.dt.d_sid, e.lines.foldl addList [], e.dt.d_pred, e.dt.d_datetime⟩

theorem foldl_enterList (serial : ℕ) (lines : List Line) (idel : ℕ → Idel) :
    lines.foldl (enterList serial) idel = Function.update idel serial
      { idel serial with i_ixg := lines.foldl addList (idel serial).i_ixg } := by
  induction lines generalizing idel with
  | nil => exact (Function.update_eq_self serial idel).symm
  | cons l lines ih =>
    rw [List.foldl_cons, ih, List.foldl_cons, enterList, addList]
    split_ifs
    · simp
    · rfl

theorem enter_some (e : TableEntry zone) {idel : ℕ → Idel} (h : (idel e.dt.d_serial).i_ixg = []) :
    e.enter (some idel) =
      some (if e.Live then Function.update idel e.dt.d_serial e.idel else idel) := by
  rw [TableEntry.enter, Option.getD_some, foldl_enterList, enterDelta]
  split_ifs
  · simp [h, TableEntry.idel]
  · rfl

/-- The live delta with a serial number. -/
def liveAt (n : ℕ) (deltas : List (TableEntry zone)) : Option (TableEntry zone) :=
  deltas.find? fun e => e.Live ∧ e.dt.d_serial = n

/-- The entries of some deltas over others. -/
def overlay (deltas : List (TableEntry zone)) (idel : ℕ → Idel) (n : ℕ) : Idel :=
  match liveAt n deltas with
  | some e => e.idel
  | none => idel n

theorem foldl_enter (deltas : List (TableEntry zone)) (idel : ℕ → Idel)
    (hdesc : deltas.Pairwise fun e e' => e'.dt.d_serial < e.dt.d_serial)
    (hixg : ∀ e ∈ deltas, (idel e.dt.d_serial).i_ixg = []) :
    deltas.foldl TableEntry.enter (some idel) = some (overlay deltas idel) := by
  induction deltas generalizing idel with
  | nil => rfl
  | cons e deltas ih =>
    obtain ⟨he, hdesc⟩ := List.pairwise_cons.mp hdesc
    obtain ⟨hixg₀, hixg⟩ := List.forall_mem_cons.mp hixg
    rw [List.foldl_cons, enter_some e hixg₀, ih _ hdesc fun e' he' => ?_]
    · refine congrArg some (funext fun n => ?_)
      have hnone : ∀ n, n = e.dt.d_serial → liveAt n deltas = none := by
        rintro n rfl
        refine List.find?_eq_none.mpr fun e' he' => ?_
        simp [Nat.ne_of_lt (he e' he')]
      unfold overlay
      by_cases hlive : e.Live
      · by_cases hn : n = e.dt.d_serial
        · have hcons : liveAt n (e :: deltas) = some e :=
            List.find?_cons_of_pos (by simp [hlive, hn])
          rw [hcons, hnone n hn, if_pos hlive, hn, Function.update_self]
        · have hcons : liveAt n (e :: deltas) = liveAt n deltas :=
            List.find?_cons_of_neg (by simpa using fun _ h => hn h.symm)
          rw [hcons, if_pos hlive, Function.update_of_ne hn]
      · have hcons : liveAt n (e :: deltas) = liveAt n deltas :=
          List.find?_cons_of_neg (by simp [hlive])
        rw [hcons, if_neg hlive]
    · split_ifs
      · rw [Function.update_of_ne (Nat.ne_of_lt (he e' he'))]
        exact hixg e' he'
      · exact hixg e' he'

/-- The serial number of the last delta. -/
def Sfile.last (S : Sfile zone) : ℕ := (S.deltas.head S.deltas_ne_nil).dt.d_serial

theorem Sfile.idel_eq (S : Sfile zone) : S.idel = some (overlay S.deltas (newIdel S.last)) := by
  obtain ⟨e, es, hdeltas⟩ := List.exists_cons_of_ne_nil S.deltas_ne_nil
  have hlast : S.last = e.dt.d_serial := by
    unfold Sfile.last
    simp [hdeltas]
  have hfirst : e.enter none = e.enter (some (newIdel e.dt.d_serial)) := rfl
  have hfold := foldl_enter S.deltas (newIdel S.last) S.descending fun e _ => rfl
  rw [← hfold, Sfile.idel, hdeltas, List.foldl_cons, List.foldl_cons, hfirst, hlast]

end Unitas.Sccs
