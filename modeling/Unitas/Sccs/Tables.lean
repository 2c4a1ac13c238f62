import Unitas.Sccs.Applied
import Unitas.Sccs.Pfile

/-! What `dodelt` and `setup` touch of the tables that the first delta line makes room for. -/
namespace Unitas.Sccs.Tables
open Edit (LOGSIZE)

/-- Why a run ends: a format error, a place that is not in the tables, or a list that is not read
to its end and no further. -/
inductive Stop where
  | fmterr
  | outside
  | count
  deriving DecidableEq

/-- A run that has not gone wrong. It may have ended by a format error. -/
def Proper {α : Type} (r : Except Stop α) : Prop := r ≠ .error .outside ∧ r ≠ .error .count

/-! ### `dodelt` -/

/-- Where the next line is looked at: by `getadel`, by the loop over the lines of a delta, or after
that loop. -/
inductive At where
  | getadel
  | line
  | stats

/-- What `dodelt` knows: the last delta line, the size of the tables if there are any, and the
table. -/
structure Scan where
  dt : Deltab
  top : Option ℕ
  idel : ℕ → Idel

/-- Bytes of a place in `p_idel`. Those of `p_apply` are fewer. -/
def sizeofIdel : ℕ := 32

/-- A table for serials up to this one has a size that is an `int`. -/
def Allocated (serial : ℕ) : Prop := (serial + 1) * sizeofIdel < 2 ^ 31
deriving Decidable

/-- A delta line. The tables are as long as the first one says, and a place of them is written if
the delta has not been removed. -/
def enter (dt : Deltab) (s : Scan) : Except Stop Scan :=
  if s.top = none ∧ ¬ Allocated dt.d_serial then .error .outside
  else
    let s := match s.top with
      | none => { s with top := some dt.d_serial, idel := newIdel dt.d_serial }
      | some _ => s
    if dt.d_type ≠ 68 then .ok { s with dt }
    else if s.top.getD 0 < dt.d_serial then .error .outside
    else .ok { s with dt, idel := enterDelta dt s.idel }

/-- The login name that `del_ab` copies to `d_pgmr`. It does so before it looks at the rest of the
line. -/
def d_pgmr (zone : Zone) (p : Line) : Line :=
  if chr p ≠ CTLCHAR ∨ chr p.tail ≠ BDELTAB then []
  else
    let (_, p) := sid_ab (NONBLANK (NONBLANK p.tail.tail).tail)
    let (_, p) := date_ab zone (NONBLANK p)
    let p := NONBLANK p
    if 32 ∉ p then [] else p.takeWhile (· ≠ 32)

/-- The list of a line. -/
def ixgOf (p : Line) : Ixg :=
  let sers := ixgSerials p.length (NONBLANK p.tail.tail)
  (chr p.tail, toChar sers.length, sers)

/-- A line of a list, whose serials `doixg` puts into `xtmp` first. -/
def enterList (p : Line) (s : Scan) : Except Stop Scan :=
  if s.dt.d_type = 68 then
    if MAXLINE < (ixgOf p).2.2.length then .error .outside
    else
      let rdp := s.idel s.dt.d_serial
      .ok { s with
        idel := Function.update s.idel s.dt.d_serial { rdp with i_ixg := doixg p rdp.i_ixg } }
  else .ok s

/-- `dodelt` after `stats_ab`, over the lines that are left. -/
def dodeltFrom (zone : Zone) : At → Scan → List Line → Except Stop Scan
  | _, _, [] => .error .fmterr
  | .getadel, s, p :: ls =>
    if LOGSIZE ≤ (d_pgmr zone p).length then .error .outside
    else
      match del_ab zone p s.dt with
      | none => .error .fmterr
      | some (letter, dt) =>
        if letter ≠ BDELTAB then .ok s
        else
          match enter dt s with
          | .error e => .error e
          | .ok s => dodeltFrom zone .line s ls
  | .line, s, p :: ls =>
    if chr p ≠ CTLCHAR then .error .fmterr
    else if chr p.tail = EDELTAB then dodeltFrom zone .stats s ls
    else if chr p.tail = COMMENTS ∨ chr p.tail = MRNUM then dodeltFrom zone .line s ls
    else if chr p.tail = INCLUDE ∨ chr p.tail = EXCLUDE ∨ chr p.tail = IGNORE then
      match enterList p s with
      | .error e => .error e
      | .ok s => dodeltFrom zone .line s ls
    else .error .fmterr
  | .stats, s, p :: ls =>
    if chr p ≠ CTLCHAR ∨ chr p.tail ≠ STATS then .ok s else dodeltFrom zone .getadel s ls

/-- `dodelt`, which begins with `stats_ab`. -/
def dodelt (zone : Zone) : List Line → Except Stop Scan
  | [] => .error .fmterr
  | p :: ls =>
    if chr p ≠ CTLCHAR ∨ chr p.tail ≠ STATS then .error .fmterr
    else dodeltFrom zone .getadel ⟨⟨⟨0, 0, 0, 0⟩, 0, 0, 0, [], 0⟩, none, newIdel 0⟩ ls

/-! ### `setup` -/

/-- `ixgsetup`, with a look at each count and at each serial. -/
def ixgsetup (top : ℕ) (ap : ℕ → Apply) : List Ixg → Except Stop (ℕ → Apply)
  | [] => .ok ap
  | (type, cnt, sers) :: ixg =>
    if cnt ≠ sers.length then .error .count
    else if ∃ n ∈ sers, top < n then .error .outside
    else
      let code := if type = INCLUDE then APPLY else NOAPPLY
      let reason := if type = INCLUDE then INCL else EXCL
      ixgsetup top
        (sers.foldl (fun ap n => Function.update ap n (condset code reason (ap n))) ap) ixg

/-- The loop of `setup`, with a look at each serial. -/
def setupFrom (top : ℕ) (idel : ℕ → Idel) (cutoff : ℤ) : ℕ → (ℕ → Apply) → Except Stop (ℕ → Apply)
  | 0, ap => .ok ap
  | n + 1, ap =>
    if top < n + 1 then .error .outside
    else if (ap (n + 1)).a_inline = true ∧ n + 1 ≠ 1 ∧ (idel (n + 1)).i_pred = 0 then .error .fmterr
    else if (ap (n + 1)).a_inline = true ∧ top < (idel (n + 1)).i_pred then .error .outside
    else
      let ap := decided idel cutoff (n + 1) ap
      if (ap (n + 1)).a_code = APPLY then
        match ixgsetup top ap (idel (n + 1)).i_ixg with
        | .error e => .error e
        | .ok ap => setupFrom top idel cutoff n ap
      else setupFrom top idel cutoff n ap

def Scan.size (s : Scan) : ℕ := s.top.getD 0

def Scan.maxser (s : Scan) : ℕ := (s.idel 0).i_pred

def setup (s : Scan) (cutoff : ℤ) (ap : ℕ → Apply) (serial : ℕ) : Except Stop (ℕ → Apply) :=
  if s.size < serial then .error .outside
  else setupFrom s.size s.idel cutoff s.maxser
    (Function.update ap serial { ap serial with a_inline := true })

/-- `dodelt` stays in the tables and in its arrays, and so does `setup` for every serial of the table
that it makes, whatever the user has marked and whatever the cutoff is. -/
def Safe (zone : Zone) (ls : List Line) : Prop :=
  Proper (dodelt zone ls) ∧ ∀ s, dodelt zone ls = .ok s →
    ∀ serial, 1 ≤ serial → serial ≤ s.maxser → ∀ (cutoff : ℤ) (user : ℕ → ℕ),
      Proper (setup s cutoff (fun n => ⟨false, user n, 0⟩) serial)

/-! ### What the lines say -/

/-- The login name of a delta line, the delta itself, or a line with a list for a serial. -/
inductive Item where
  | name (pgmr : Line)
  | delta (dt : Deltab)
  | list (serial : ℕ) (p : Line)

/-- What is read up to the end of the delta table or to the first format error, and whether the end
is reached. Only deltas that have not been removed have lists. -/
def itemsFrom (zone : Zone) : At → Deltab → List Line → List Item × Bool
  | _, _, [] => ([], false)
  | .getadel, dt, p :: ls =>
    match del_ab zone p dt with
    | none => ([.name (d_pgmr zone p)], false)
    | some (letter, dt) =>
      if letter ≠ BDELTAB then ([], true)
      else
        let r := itemsFrom zone .line dt ls
        (.name (d_pgmr zone p) :: .delta dt :: r.1, r.2)
  | .line, dt, p :: ls =>
    if chr p ≠ CTLCHAR then ([], false)
    else if chr p.tail = EDELTAB then itemsFrom zone .stats dt ls
    else if chr p.tail = COMMENTS ∨ chr p.tail = MRNUM then itemsFrom zone .line dt ls
    else if chr p.tail = INCLUDE ∨ chr p.tail = EXCLUDE ∨ chr p.tail = IGNORE then
      let r := itemsFrom zone .line dt ls
      if dt.d_type = 68 then (.list dt.d_serial p :: r.1, r.2) else r
    else ([], false)
  | .stats, dt, p :: ls =>
    if chr p ≠ CTLCHAR ∨ chr p.tail ≠ STATS then ([], true) else itemsFrom zone .getadel dt ls

def items (zone : Zone) : List Line → List Item × Bool
  | [] => ([], false)
  | p :: ls =>
    if chr p ≠ CTLCHAR ∨ chr p.tail ≠ STATS then ([], false)
    else itemsFrom zone .getadel ⟨⟨0, 0, 0, 0⟩, 0, 0, 0, [], 0⟩ ls

/-- The serial of the first delta line. -/
def firstSerial : List Item → ℕ
  | .name _ :: is => firstSerial is
  | .delta dt :: _ => dt.d_serial
  | _ => 0

/-- The predecessor that the last delta line of a serial gives, if there is one. -/
def predOf (pred n : ℕ) : List Item → ℕ
  | [] => pred
  | .delta dt :: is =>
    predOf (if dt.d_type = 68 ∧ dt.d_serial = n then dt.d_pred else pred) n is
  | .name _ :: is | .list _ _ :: is => predOf pred n is

/-- The lists of a serial. -/
def listsOf (n : ℕ) : List Item → List Ixg
  | [] => []
  | .name _ :: is | .delta _ :: is => listsOf n is
  | .list serial p :: is => if serial = n then ixgOf p :: listsOf n is else listsOf n is

/-- What is asked of the deltas that a table holds. A delta with serial 0 puts its predecessor in
the place of `maxser`. -/
structure Fits (is : List Item) : Prop where
  le : predOf (firstSerial is) 0 is ≤ firstSerial is
  pred : ∀ n, 1 ≤ n → n ≤ predOf (firstSerial is) 0 is → predOf 0 n is ≤ firstSerial is
  lists : ∀ n, 1 ≤ n → n ≤ predOf (firstSerial is) 0 is → ∀ l ∈ listsOf n is,
    l.2.2.length < 128 ∧ ∀ m ∈ l.2.2, m ≤ firstSerial is

/-- A name fits into `d_pgmr`, the serial of a delta that has not been removed into tables up to
`top`, and the serials of a list into `xtmp`. -/
def Item.Within (top : ℕ) : Item → Prop
  | .name pgmr => pgmr.length < LOGSIZE
  | .delta dt => dt.d_type = 68 → dt.d_serial ≤ top
  | .list _ p => (ixgOf p).2.2.length ≤ MAXLINE

/-- The lines ask for no place past `top`, and for none behind the arrays. -/
def Within (top : ℕ) (is : List Item) : Prop := ∀ i ∈ is, i.Within top

/-- There are tables for the serial of the first delta line, and no serial is past it. -/
def Sized (is : List Item) : Prop := Allocated (firstSerial is) ∧ Within (firstSerial is) is

/-! ### The table and the lines -/

theorem ixgOf_count (p : Line) : (ixgOf p).2.1 = toChar (ixgOf p).2.2.length := by
  unfold ixgOf
  dsimp only

theorem mem_listsOf {n : ℕ} {is : List Item} {l : Ixg} (h : l ∈ listsOf n is) :
    l.2.1 = toChar l.2.2.length := by
  induction is with
  | nil => exact absurd h List.not_mem_nil
  | cons i is ih =>
    cases i with
    | name pgmr => exact ih h
    | delta dt => exact ih h
    | list serial p =>
      unfold listsOf at h
      split_ifs at h
      · rcases List.mem_cons.mp h with h | h
        · rw [h]
          exact ixgOf_count p
        · exact ih h
      · exact ih h

/-- A table holds what the lines say of each serial, after what has been in it. -/
def Holds (idel : ℕ → Idel) (is : List Item) (idel' : ℕ → Idel) : Prop :=
  ∀ n, (idel' n).i_pred = predOf (idel n).i_pred n is ∧
    (idel' n).i_ixg = (idel n).i_ixg ++ listsOf n is

theorem Holds.delta {idel idel' : ℕ → Idel} {is : List Item} {dt : Deltab}
    (h : Holds (if dt.d_type = 68 then enterDelta dt idel else idel) is idel') :
    Holds idel (.delta dt :: is) idel' := by
  intro n
  obtain ⟨hpred, hixg⟩ := h n
  unfold predOf listsOf
  rw [hpred, hixg]
  by_cases htype : dt.d_type = 68
  · rw [if_pos htype]
    unfold enterDelta
    by_cases hn : n = dt.d_serial
    · rw [if_pos ⟨htype, hn.symm⟩, hn, Function.update_self]
      exact ⟨rfl, rfl⟩
    · rw [if_neg fun h => hn h.2.symm, Function.update_of_ne hn]
      exact ⟨rfl, rfl⟩
  · rw [if_neg htype, if_neg fun h => htype h.1]
    exact ⟨rfl, rfl⟩

theorem Holds.list {s : Scan} {idel' : ℕ → Idel} {is : List Item} {p : Line}
    (h : Holds (Function.update s.idel s.dt.d_serial
      { s.idel s.dt.d_serial with i_ixg := doixg p (s.idel s.dt.d_serial).i_ixg }) is idel') :
    Holds s.idel (.list s.dt.d_serial p :: is) idel' := by
  intro n
  obtain ⟨hpred, hixg⟩ := h n
  unfold predOf listsOf
  rw [hpred, hixg]
  by_cases hn : n = s.dt.d_serial
  · rw [if_pos hn.symm, hn, Function.update_self]
    exact ⟨rfl, List.append_assoc _ _ _⟩
  · rw [if_neg (Ne.symm hn), Function.update_of_ne hn]
    exact ⟨rfl, rfl⟩

theorem within_nil (top : ℕ) : Within top [] := fun _ hmem => absurd hmem List.not_mem_nil

theorem within_cons {top : ℕ} {i : Item} {is : List Item} :
    Within top (i :: is) ↔ i.Within top ∧ Within top is := List.forall_mem_cons

/-- How `dodelt` goes on, once there are tables: it ends by a place that is not in them, by a format
error, or with a table that holds what the lines say. -/
structure Goes (top : ℕ) (idel : ℕ → Idel) (r : List Item × Bool) (e : Except Stop Scan) :
    Prop where
  outside : ¬ Within top r.1 → e = .error .outside
  fmterr : Within top r.1 → r.2 = false → e = .error .fmterr
  ok : Within top r.1 → r.2 = true → ∃ s, e = .ok s ∧ s.top = some top ∧ Holds idel r.1 s.idel

theorem Goes.fmterr_nil (top : ℕ) (idel : ℕ → Idel) :
    Goes top idel ([], false) (.error .fmterr) :=
  ⟨fun h => absurd (within_nil top) h, fun _ _ => rfl,
    fun _ h => absurd h Bool.false_ne_true⟩

theorem Goes.ok_nil {top : ℕ} {s : Scan} (h : s.top = some top) :
    Goes top s.idel ([], true) (.ok s) :=
  ⟨fun h => absurd (within_nil top) h,
    fun _ h => absurd h.symm Bool.false_ne_true,
    fun _ _ => ⟨s, rfl, h, fun _ => ⟨rfl, (List.append_nil _).symm⟩⟩⟩

/-- Something that is not in the arrays is the end. -/
theorem Goes.not_within {top : ℕ} {idel : ℕ → Idel} {i : Item} (is : List Item × Bool)
    (h : ¬ i.Within top) : Goes top idel (i :: is.1, is.2) (.error .outside) :=
  ⟨fun _ => rfl, fun hw => absurd (within_cons.mp hw).1 h, fun hw => absurd (within_cons.mp hw).1 h⟩

/-- Something that is in them is passed over. -/
theorem Goes.cons {top : ℕ} {idel idel' : ℕ → Idel} {i : Item} {is : List Item × Bool}
    {e : Except Stop Scan} (hi : i.Within top) (h : Goes top idel' is e)
    (hholds : ∀ t, Holds idel' is.1 t → Holds idel (i :: is.1) t) :
    Goes top idel (i :: is.1, is.2) e := by
  refine ⟨fun hnot => h.outside fun hw => hnot (within_cons.mpr ⟨hi, hw⟩),
    fun hw => h.fmterr (within_cons.mp hw).2, fun hw hend => ?_⟩
  obtain ⟨s, hs, htop, hs'⟩ := h.ok (within_cons.mp hw).2 hend
  exact ⟨s, hs, htop, hholds _ hs'⟩

theorem Holds.name {idel idel' : ℕ → Idel} {is : List Item} {pgmr : Line}
    (h : Holds idel is idel') : Holds idel (.name pgmr :: is) idel' := h

theorem enter_some {s : Scan} {top : ℕ} (htop : s.top = some top) (dt : Deltab) :
    enter dt s = if dt.d_type = 68 ∧ top < dt.d_serial then .error .outside
      else .ok { s with dt, idel := if dt.d_type = 68 then enterDelta dt s.idel else s.idel } := by
  unfold enter
  rw [htop, if_neg fun h => absurd h.1 (by simp)]
  dsimp only
  by_cases htype : dt.d_type = 68
  · rw [if_neg (not_not.mpr htype), htop, Option.getD_some]
    by_cases hlt : top < dt.d_serial
    · rw [if_pos hlt, if_pos ⟨htype, hlt⟩]
    · rw [if_neg hlt, if_neg fun h => hlt h.2, if_pos htype]
  · rw [if_pos htype, if_neg fun h => htype h.1, if_neg htype, htop]

/-- A line with a login name is a delta line. -/
theorem letter_of_name {zone : Zone} {p : Line} {dt dt' : Deltab} {letter : UInt8}
    (hname : LOGSIZE ≤ (d_pgmr zone p).length) (h : del_ab zone p dt = some (letter, dt')) :
    letter = BDELTAB := by
  have hline : ¬ (chr p ≠ CTLCHAR ∨ chr p.tail ≠ BDELTAB) := by
    intro hnot
    rw [d_pgmr, if_pos hnot] at hname
    exact absurd hname (by decide)
  rw [not_or, not_not, not_not] at hline
  rw [del_ab, if_neg (not_not.mpr hline.1), if_neg (not_not.mpr hline.2)] at h
  obtain ⟨dt'', -, heq⟩ := Option.map_eq_some_iff.mp h
  exact (Prod.mk.inj heq).1.symm

theorem dodeltFrom_goes (zone : Zone) (top : ℕ) (ls : List Line) : ∀ (a : At) (s : Scan),
    s.top = some top →
    Goes top s.idel (itemsFrom zone a s.dt ls) (dodeltFrom zone a s ls) := by
  induction ls with
  | nil =>
    intro a s _
    cases a <;> exact Goes.fmterr_nil top s.idel
  | cons p ls ih =>
    intro a s htop
    cases a with
    | getadel =>
      unfold itemsFrom dodeltFrom
      by_cases hname : LOGSIZE ≤ (d_pgmr zone p).length
      · -- the name has no room, however the line goes on
        have hnot : ¬ (Item.name (d_pgmr zone p)).Within top := not_lt.mpr hname
        rw [if_pos hname]
        cases hdel : del_ab zone p s.dt with
        | none => exact Goes.not_within ([], false) hnot
        | some r =>
          obtain ⟨letter, dt⟩ := r
          dsimp only
          rw [if_neg (not_not.mpr (letter_of_name hname hdel))]
          exact Goes.not_within (_ :: _, _) hnot
      · have hin : (Item.name (d_pgmr zone p)).Within top := not_le.mp hname
        rw [if_neg hname]
        cases hdel : del_ab zone p s.dt with
        | none => exact (Goes.fmterr_nil top s.idel).cons hin fun _ h => h
        | some r =>
          obtain ⟨letter, dt⟩ := r
          dsimp only
          by_cases hletter : letter ≠ BDELTAB
          · rw [if_pos hletter, if_pos hletter]
            exact Goes.ok_nil htop
          · rw [if_neg hletter, if_neg hletter, enter_some htop]
            refine @Goes.cons top s.idel s.idel _ (_ :: _, _) _ hin ?_ fun _ h => h
            by_cases hlt : dt.d_type = 68 ∧ top < dt.d_serial
            · rw [if_pos hlt]
              exact Goes.not_within (itemsFrom zone .line dt ls)
                fun h => absurd (h hlt.1) (not_le.mpr hlt.2)
            · rw [if_neg hlt]
              refine Goes.cons (fun htype => not_lt.mp fun h => hlt ⟨htype, h⟩)
                (ih .line { s with
                  dt, idel := if dt.d_type = 68 then enterDelta dt s.idel else s.idel } htop)
                fun _ h => h.delta
    | line =>
      unfold itemsFrom dodeltFrom
      split_ifs with h1 h2 h3 h4 h5
      · exact Goes.fmterr_nil top s.idel
      · exact ih .stats s htop
      · exact ih .line s htop
      · unfold enterList
        rw [if_pos h5]
        by_cases hlong : MAXLINE < (ixgOf p).2.2.length
        · rw [if_pos hlong]
          exact Goes.not_within (itemsFrom zone .line s.dt ls) (not_le.mpr hlong)
        · rw [if_neg hlong]
          exact Goes.cons (i := .list s.dt.d_serial p) (not_lt.mp hlong)
            (ih .line { s with
              idel := Function.update s.idel s.dt.d_serial
                { s.idel s.dt.d_serial with i_ixg := doixg p (s.idel s.dt.d_serial).i_ixg } } htop)
            fun _ h => h.list
      · have hsame : enterList p s = .ok s := if_neg h5
        rw [hsame]
        exact ih .line s htop
      · exact Goes.fmterr_nil top s.idel
    | stats =>
      unfold itemsFrom dodeltFrom
      split_ifs
      · exact Goes.ok_nil htop
      · exact ih .getadel s htop

/-- How `dodelt` ends: by a place that is not in the tables that the first delta line makes, by a
format error, or with a table that holds what the lines say. -/
structure Ends (r : List Item × Bool) (e : Except Stop Scan) : Prop where
  outside : ¬ Sized r.1 → e = .error .outside
  fmterr : Sized r.1 → r.2 = false → e = .error .fmterr
  ok : Sized r.1 → r.2 = true → ∃ s, e = .ok s ∧ s.size = firstSerial r.1 ∧
    Holds (newIdel (firstSerial r.1)) r.1 s.idel

theorem sized_nil : Sized [] := ⟨by decide, within_nil 0⟩

theorem Ends.fmterr_nil : Ends ([], false) (.error .fmterr) :=
  ⟨fun h => absurd sized_nil h, fun _ _ => rfl,
    fun _ h => absurd h Bool.false_ne_true⟩

theorem dodelt_ends (zone : Zone) (ls : List Line) : Ends (items zone ls) (dodelt zone ls) := by
  cases ls with
  | nil => exact Ends.fmterr_nil
  | cons p ls =>
    unfold items dodelt
    dsimp only
    by_cases hstats : chr p ≠ CTLCHAR ∨ chr p.tail ≠ STATS
    · rw [if_pos hstats, if_pos hstats]
      exact Ends.fmterr_nil
    · rw [if_neg hstats, if_neg hstats]
      cases ls with
      | nil => exact Ends.fmterr_nil
      | cons p ls =>
        unfold itemsFrom dodeltFrom
        dsimp only
        cases hdel : del_ab zone p ⟨⟨0, 0, 0, 0⟩, 0, 0, 0, [], 0⟩ with
        | none =>
          by_cases hname : LOGSIZE ≤ (d_pgmr zone p).length
          · rw [if_pos hname]
            have hnot : ¬ Sized [.name (d_pgmr zone p)] := fun h =>
              absurd (within_cons.mp h.2).1 (not_lt.mpr hname)
            exact ⟨fun _ => rfl, fun h => absurd h hnot, fun h => absurd h hnot⟩
          · rw [if_neg hname]
            have hsized : Sized [.name (d_pgmr zone p)] :=
              ⟨sized_nil.1, within_cons.mpr ⟨not_le.mp hname, within_nil 0⟩⟩
            exact ⟨fun h => absurd hsized h, fun _ _ => rfl,
              fun _ h => absurd h Bool.false_ne_true⟩
        | some r =>
          obtain ⟨letter, dt⟩ := r
          dsimp only
          by_cases hname : LOGSIZE ≤ (d_pgmr zone p).length
          · rw [if_pos hname, if_neg (not_not.mpr (letter_of_name hname hdel))]
            have hnot : ¬ Sized (.name (d_pgmr zone p) :: .delta dt ::
                (itemsFrom zone .line dt ls).1) := fun h =>
              absurd (within_cons.mp h.2).1 (not_lt.mpr hname)
            exact ⟨fun _ => rfl, fun h => absurd h hnot, fun h => absurd h hnot⟩
          rw [if_neg hname]
          by_cases hletter : letter ≠ BDELTAB
          · rw [if_pos hletter, if_pos hletter]
            exact ⟨fun h => absurd sized_nil h,
              fun _ h => absurd h.symm Bool.false_ne_true,
              fun _ _ => ⟨_, rfl, rfl, fun _ => ⟨rfl, (List.append_nil _).symm⟩⟩⟩
          · rw [if_neg hletter, if_neg hletter]
            by_cases halloc : Allocated dt.d_serial
            swap
            · have henter : enter dt ⟨⟨⟨0, 0, 0, 0⟩, 0, 0, 0, [], 0⟩, none, newIdel 0⟩ =
                  .error .outside := if_pos ⟨rfl, halloc⟩
              rw [henter]
              have hnot : ¬ Sized (.name (d_pgmr zone p) :: .delta dt ::
                  (itemsFrom zone .line dt ls).1) := fun h => halloc h.1
              exact ⟨fun _ => rfl, fun h => absurd h hnot, fun h => absurd h hnot⟩
            -- the first line makes the tables, and has room in them
            have henter : enter dt ⟨⟨⟨0, 0, 0, 0⟩, 0, 0, 0, [], 0⟩, none, newIdel 0⟩ =
                .ok ⟨dt, some dt.d_serial,
                  if dt.d_type = 68 then enterDelta dt (newIdel dt.d_serial)
                  else newIdel dt.d_serial⟩ := by
              have h := @enter_some ⟨⟨⟨0, 0, 0, 0⟩, 0, 0, 0, [], 0⟩, some dt.d_serial,
                newIdel dt.d_serial⟩ _ rfl dt
              rw [if_neg fun h => absurd h.2 (Nat.lt_irrefl _)] at h
              rw [enter, if_neg fun h => h.2 halloc]
              rw [enter, if_neg fun h => absurd h.1 (by simp)] at h
              exact h
            rw [henter]
            have h := dodeltFrom_goes zone dt.d_serial ls .line ⟨dt, some dt.d_serial,
              if dt.d_type = 68 then enterDelta dt (newIdel dt.d_serial)
              else newIdel dt.d_serial⟩ rfl
            dsimp only at h ⊢
            have hsized : Sized (.name (d_pgmr zone p) :: .delta dt ::
                (itemsFrom zone .line dt ls).1) ↔
                Within dt.d_serial (itemsFrom zone .line dt ls).1 :=
              (and_iff_right halloc).trans (within_cons.trans ((and_iff_right
                (not_le.mp hname)).trans (within_cons.trans (and_iff_right fun _ => le_rfl))))
            refine ⟨fun hnot => h.outside fun hw => hnot (hsized.mpr hw),
              fun hw => h.fmterr (hsized.mp hw), fun hw hend => ?_⟩
            obtain ⟨s, hs, htop, hholds⟩ := h.ok (hsized.mp hw) hend
            refine ⟨s, hs, ?_, hholds.delta⟩
            unfold Scan.size
            rw [htop]
            rfl

/-! ### The lists -/

/-- A list whose count is its length, and whose serials are in the tables. -/
def ListFits (top : ℕ) (l : Ixg) : Prop := l.2.1 = l.2.2.length ∧ ∀ m ∈ l.2.2, m ≤ top

theorem ixgsetup_proper (top : ℕ) (ixg : List Ixg) : ∀ ap : ℕ → Apply,
    ((∀ l ∈ ixg, ListFits top l) → ∃ ap', ixgsetup top ap ixg = .ok ap') ∧
    ((∃ l ∈ ixg, ¬ ListFits top l) →
      ixgsetup top ap ixg = .error .outside ∨ ixgsetup top ap ixg = .error .count) := by
  induction ixg with
  | nil =>
    intro ap
    refine ⟨fun _ => ⟨ap, rfl⟩, ?_⟩
    rintro ⟨l, hl, -⟩
    exact absurd hl List.not_mem_nil
  | cons l ixg ih =>
    intro ap
    obtain ⟨type, cnt, sers⟩ := l
    unfold ixgsetup
    by_cases hcount : cnt ≠ sers.length
    · rw [if_pos hcount]
      exact ⟨fun h => absurd (h _ List.mem_cons_self).1 hcount, fun _ => Or.inr rfl⟩
    · rw [if_neg hcount]
      by_cases hout : ∃ n ∈ sers, top < n
      · rw [if_pos hout]
        obtain ⟨n, hn, hlt⟩ := hout
        refine ⟨fun h => absurd ((h _ List.mem_cons_self).2 n hn) (not_le.mpr hlt),
          fun _ => Or.inl rfl⟩
      · rw [if_neg hout]
        have hfits : ListFits top (type, cnt, sers) :=
          ⟨not_not.mp hcount, fun m hm => not_lt.mp fun h => hout ⟨m, hm, h⟩⟩
        dsimp only
        obtain ⟨hok, hbad⟩ := ih (sers.foldl (fun ap n => Function.update ap n
          (condset (if type = INCLUDE then APPLY else NOAPPLY)
            (if type = INCLUDE then INCL else EXCL) (ap n))) ap)
        refine ⟨fun h => hok (List.forall_mem_cons.mp h).2, ?_⟩
        rintro ⟨l, hl, hnot⟩
        rcases List.mem_cons.mp hl with rfl | hl
        · exact absurd hfits hnot
        · exact hbad ⟨l, hl, hnot⟩

theorem toChar_eq_self (n : ℕ) : toChar n = n ↔ n < 128 := by
  rw [toChar_eq]
  split_ifs <;> omega

/-! ### The loop of `setup` -/

/-- What a table has to be for `setup`. -/
structure TableFits (top : ℕ) (idel : ℕ → Idel) (maxser : ℕ) : Prop where
  le : maxser ≤ top
  pred : ∀ n, 1 ≤ n → n ≤ maxser → (idel n).i_pred ≤ top
  lists : ∀ n, 1 ≤ n → n ≤ maxser → ∀ l ∈ (idel n).i_ixg, ListFits top l

theorem proper_ok {α : Type} (a : α) : Proper (.ok a : Except Stop α) := ⟨by simp, by simp⟩

theorem proper_fmterr {α : Type} : Proper (.error .fmterr : Except Stop α) := ⟨by simp, by simp⟩

theorem setupFrom_proper {top : ℕ} {idel : ℕ → Idel} {maxser : ℕ} (h : TableFits top idel maxser)
    (cutoff : ℤ) (n : ℕ) : ∀ ap : ℕ → Apply, n ≤ maxser →
    Proper (setupFrom top idel cutoff n ap) := by
  induction n with
  | zero => exact fun ap _ => proper_ok ap
  | succ n ih =>
    intro ap hn
    have htop := h.le
    have hpred := h.pred (n + 1) (Nat.le_add_left 1 n) hn
    unfold setupFrom
    rw [if_neg (by omega)]
    split_ifs with hstop hout
    · exact proper_fmterr
    · exact absurd hout.2 (not_lt.mpr hpred)
    · dsimp only
      obtain ⟨ap', hap'⟩ := (ixgsetup_proper top (idel (n + 1)).i_ixg
        (decided idel cutoff (n + 1) ap)).1 (h.lists (n + 1) (Nat.le_add_left 1 n) hn)
      rw [hap']
      split_ifs
      · exact ih ap' (by omega)
      · exact ih _ (by omega)

/-- A run that stays in the tables marks what a run without a look at them marks. -/
theorem ixgsetup_ok (top : ℕ) (ixg : List Ixg) : ∀ ap ap' : ℕ → Apply,
    ixgsetup top ap ixg = .ok ap' → Sccs.ixgsetup ap ixg = some ap' := by
  induction ixg with
  | nil => exact fun ap ap' h => congrArg some (Except.ok.inj h)
  | cons l ixg ih =>
    intro ap ap' h
    obtain ⟨type, cnt, sers⟩ := l
    unfold ixgsetup at h
    by_cases hcount : cnt ≠ sers.length
    · rw [if_pos hcount] at h
      exact absurd h (by simp)
    rw [if_neg hcount] at h
    by_cases hout : ∃ n ∈ sers, top < n
    · rw [if_pos hout] at h
      exact absurd h (by simp)
    rw [if_neg hout] at h
    have hcnt : cnt = sers.length := not_not.mp hcount
    unfold Sccs.ixgsetup
    rw [if_neg (by omega), hcnt, Int.toNat_natCast, List.take_length]
    exact ih _ ap' h

theorem setupFrom_ok (top : ℕ) (idel : ℕ → Idel) (cutoff : ℤ) (n : ℕ) : ∀ ap ap' : ℕ → Apply,
    setupFrom top idel cutoff n ap = .ok ap' → Sccs.setupFrom idel cutoff n ap = some ap' := by
  induction n with
  | zero => exact fun ap ap' h => congrArg some (Except.ok.inj h)
  | succ n ih =>
    intro ap ap' h
    unfold setupFrom at h
    split_ifs at h with htop hstop hout
    rw [setupFrom_succ cutoff n hstop]
    dsimp only at h
    split_ifs at h ⊢ with hcode
    · cases hixg : ixgsetup top (decided idel cutoff (n + 1) ap) (idel (n + 1)).i_ixg with
      | error e =>
        rw [hixg] at h
        exact absurd h (by simp)
      | ok ap'' =>
        rw [hixg] at h
        rw [ixgsetup_ok top _ _ _ hixg, Option.bind_some]
        exact ih ap'' ap' h
    · exact ih _ ap' h

/-- The loop passes by serials that are not on the line of descent and have no mark. -/
theorem setupFrom_skip {top : ℕ} {idel : ℕ → Idel} (cutoff : ℤ) (n k : ℕ) :
    ∀ ap : ℕ → Apply, n + k ≤ top →
    (∀ m, n < m → m ≤ n + k → (ap m).a_inline = false ∧ (ap m).a_code = SX_EMPTY) →
    ∃ ap', (∀ m, m ≤ n → ap' m = ap m) ∧
      setupFrom top idel cutoff (n + k) ap = setupFrom top idel cutoff n ap' := by
  induction k with
  | zero => exact fun ap _ _ => ⟨ap, fun _ _ => rfl, rfl⟩
  | succ k ih =>
    intro ap htop hap
    obtain ⟨hinline, hcode⟩ := hap (n + k + 1) (by omega) le_rfl
    have hfalse : ¬ (ap (n + k + 1)).a_inline = true := by
      rw [hinline]
      exact Bool.false_ne_true
    have hdecided : decided idel cutoff (n + k + 1) ap =
        Function.update ap (n + k + 1) (condset NOAPPLY SX_EMPTY (ap (n + k + 1))) := by
      unfold decided
      rw [if_neg hfalse]
    have hnot : ¬ (Function.update ap (n + k + 1)
        (condset NOAPPLY SX_EMPTY (ap (n + k + 1))) (n + k + 1)).a_code = APPLY := by
      rw [Function.update_self, (condset_code NOAPPLY SX_EMPTY (by decide) _).1, hcode]
      decide
    obtain ⟨ap', hsame, hap'⟩ := ih (Function.update ap (n + k + 1)
      (condset NOAPPLY SX_EMPTY (ap (n + k + 1)))) (by omega) fun m hm hle => by
        rw [Function.update_of_ne (by omega)]
        exact hap m hm (by omega)
    refine ⟨ap', fun m hm => (hsame m hm).trans (Function.update_of_ne (by omega) _ _), ?_⟩
    rw [← hap', ← Nat.add_assoc, setupFrom, if_neg (by omega), if_neg fun h => hfalse h.1,
      if_neg fun h => hfalse h.1, hdecided]
    dsimp only
    rw [if_neg hnot]

theorem decided_apply {idel : ℕ → Idel} (cutoff : ℤ) {ser : ℕ} {ap : ℕ → Apply}
    (h : (ap ser).a_code = APPLY) : (decided idel cutoff ser ap ser).a_code = APPLY := by
  have hkeep (code reason : ℕ) (hcode : code ≠ SX_EMPTY) (a : Apply) (ha : a.a_code = APPLY) :
      (condset code reason a).a_code = APPLY := by
    rw [(condset_code code reason hcode a).1, ha]
    rfl
  have hset (code reason : ℕ) (hcode : code ≠ SX_EMPTY) (ap' : ℕ → Apply)
      (hap' : (ap' ser).a_code = APPLY) :
      (Function.update ap' ser (condset code reason (ap' ser)) ser).a_code = APPLY := by
    rw [Function.update_self]
    exact hkeep code reason hcode _ hap'
  unfold decided
  by_cases hin : (ap ser).a_inline = true
  · rw [if_pos hin]
    have hupd : (Function.update ap (idel ser).i_pred
        { ap (idel ser).i_pred with a_inline := true } ser).a_code = APPLY := by
      by_cases heq : ser = (idel ser).i_pred
      · rw [← heq, Function.update_self]
        exact h
      · rw [Function.update_of_ne heq]
        exact h
    dsimp only
    by_cases hdate : cutoff < (idel ser).i_datetime
    · rw [if_pos hdate]
      exact hset NOAPPLY CUTOFF (by decide) _ hupd
    · rw [if_neg hdate]
      exact hset APPLY SX_EMPTY (by decide) _ hupd
  · rw [if_neg hin]
    exact hset NOAPPLY SX_EMPTY (by decide) ap h

/-- The loop comes to `n` with the marks that it was given there, if only `n` and serials below are
marked. -/
theorem setupFrom_reach {s : Scan} (hle : s.maxser ≤ s.size) {n : ℕ} (hn : n ≤ s.maxser)
    (cutoff : ℤ) {ap : ℕ → Apply}
    (hap : ∀ m, n < m → (ap m).a_inline = false ∧ (ap m).a_code = SX_EMPTY) :
    ∃ ap', ap' n = ap n ∧
      setupFrom s.size s.idel cutoff s.maxser ap = setupFrom s.size s.idel cutoff n ap' := by
  obtain ⟨k, hk⟩ := Nat.exists_eq_add_of_le hn
  obtain ⟨ap', hsame, hap'⟩ := @setupFrom_skip s.size s.idel cutoff n k ap (by omega)
    fun m hm _ => hap m hm
  rw [hk]
  exact ⟨ap', hsame n le_rfl, hap'⟩

/-- `setup` stays in the tables for every serial, every mark and every cutoff if, and only if, the
table is fit for it. -/
theorem setup_proper_iff (s : Scan) :
    (∀ serial, 1 ≤ serial → serial ≤ s.maxser → ∀ (cutoff : ℤ) (user : ℕ → ℕ),
      Proper (setup s cutoff (fun n => ⟨false, user n, 0⟩) serial)) ↔
      TableFits s.size s.idel s.maxser := by
  constructor
  · intro h
    have hle : s.maxser ≤ s.size := by
      by_contra hlt
      refine (h 1 le_rfl (by omega) 0 fun _ => SX_EMPTY).1 ?_
      unfold setup
      obtain ⟨n, hn⟩ := Nat.exists_eq_succ_of_ne_zero (by omega : s.maxser ≠ 0)
      split_ifs
      · rfl
      · rw [hn, Nat.succ_eq_add_one, setupFrom, if_pos (by omega)]
    have hsize (serial : ℕ) (hser : serial ≤ s.maxser) (cutoff : ℤ) (ap : ℕ → Apply) :
        setup s cutoff ap serial = setupFrom s.size s.idel cutoff s.maxser
          (Function.update ap serial { ap serial with a_inline := true }) :=
      if_neg (by omega)
    have hpred : ∀ n, 1 ≤ n → n ≤ s.maxser → (s.idel n).i_pred ≤ s.size := by
      intro n h1 hn
      by_contra hlt
      have hproper := h n h1 hn 0 fun _ => SX_EMPTY
      rw [hsize n hn] at hproper
      obtain ⟨ap', hself, hap'⟩ := @setupFrom_reach s hle n hn 0
        (Function.update (fun m => ⟨false, SX_EMPTY, 0⟩) n ⟨true, SX_EMPTY, 0⟩) fun m hm => by
          rw [Function.update_of_ne (by omega)]
          exact ⟨rfl, rfl⟩
      rw [Function.update_self] at hself
      obtain ⟨n, rfl⟩ := Nat.exists_eq_succ_of_ne_zero (by omega : n ≠ 0)
      refine hproper.1 (hap'.trans ?_)
      rw [Nat.succ_eq_add_one] at hself hlt ⊢
      rw [setupFrom, if_neg (by omega), if_neg fun hstop => by omega, hself, if_pos ⟨rfl, by omega⟩]
    refine ⟨hle, hpred, fun n h1 hn => ?_⟩
    by_contra hnot
    push Not at hnot
    have hproper := h 1 le_rfl (by omega) 0 (Function.update (fun _ => SX_EMPTY) n APPLY)
    rw [hsize 1 (by omega)] at hproper
    obtain ⟨ap', hself, hap'⟩ := @setupFrom_reach s hle n hn 0
      (Function.update (fun m => ⟨false, Function.update (fun _ => SX_EMPTY) n APPLY m, 0⟩) 1
        ⟨true, Function.update (fun _ => SX_EMPTY) n APPLY 1, 0⟩) fun m hm => by
        rw [Function.update_of_ne (by omega), Function.update_of_ne (by omega)]
        exact ⟨rfl, rfl⟩
    have hcode : (ap' n).a_code = APPLY := by
      rw [hself]
      by_cases hone : n = 1
      · rw [hone, Function.update_self, Function.update_self]
      · rw [Function.update_of_ne hone, Function.update_self]
    have hinline : (ap' n).a_inline = true → n = 1 := by
      rw [hself]
      intro hin
      by_contra hone
      rw [Function.update_of_ne hone] at hin
      exact Bool.false_ne_true hin
    obtain ⟨n, rfl⟩ := Nat.exists_eq_succ_of_ne_zero (by omega : n ≠ 0)
    rw [Nat.succ_eq_add_one] at hcode hinline hn hnot hap'
    have hp := hpred (n + 1) (Nat.le_add_left 1 n) hn
    have hbad := (ixgsetup_proper s.size (s.idel (n + 1)).i_ixg
      (decided s.idel 0 (n + 1) ap')).2 hnot
    have hrun : setupFrom s.size s.idel 0 (n + 1) ap' = .error .outside ∨
        setupFrom s.size s.idel 0 (n + 1) ap' = .error .count := by
      rw [setupFrom, if_neg (by omega), if_neg fun hstop => hstop.2.1 (hinline hstop.1),
        if_neg fun hout => by omega]
      dsimp only
      rw [if_pos (decided_apply 0 hcode)]
      rcases hbad with hbad | hbad
      · rw [hbad]
        exact Or.inl rfl
      · rw [hbad]
        exact Or.inr rfl
    rcases hrun with hrun | hrun
    · exact hproper.1 (hap'.trans hrun)
    · exact hproper.2 (hap'.trans hrun)
  · intro h serial _ hser cutoff user
    unfold setup
    rw [if_neg (not_lt.mpr (hser.trans h.le))]
    exact setupFrom_proper h cutoff s.maxser _ le_rfl

theorem fits_iff {is : List Item} {s : Scan} (hsize : s.size = firstSerial is)
    (hholds : Holds (newIdel (firstSerial is)) is s.idel) :
    TableFits s.size s.idel s.maxser ↔ Fits is := by
  have hmaxser : s.maxser = predOf (firstSerial is) 0 is := (hholds 0).1
  have hpred : ∀ n, 1 ≤ n → (s.idel n).i_pred = predOf 0 n is := by
    intro n h1
    rw [(hholds n).1]
    unfold newIdel
    rw [if_neg (by omega)]
  have hlists : ∀ n, (s.idel n).i_ixg = listsOf n is := fun n => (hholds n).2
  have hlist : ∀ n, ∀ l ∈ listsOf n is, (ListFits (firstSerial is) l ↔
      l.2.2.length < 128 ∧ ∀ m ∈ l.2.2, m ≤ firstSerial is) := by
    intro n l hl
    unfold ListFits
    rw [mem_listsOf hl, toChar_eq_self]
  rw [hsize, hmaxser]
  constructor
  · intro h
    refine ⟨h.le, fun n h1 hn => ?_, fun n h1 hn l hl => ?_⟩
    · rw [← hpred n h1]
      exact h.pred n h1 hn
    · rw [← hlist n l hl]
      exact h.lists n h1 hn l ((hlists n).symm ▸ hl)
  · intro h
    refine ⟨h.le, fun n h1 hn => ?_, fun n h1 hn l hl => ?_⟩
    · rw [hpred n h1]
      exact h.pred n h1 hn
    · rw [hlists n] at hl
      rw [hlist n l hl]
      exact h.lists n h1 hn l hl

/-- Two deltas, the older one first. -/
def misplaced : List Line :=
  [[1, 115, 32, 49, 47, 48, 47, 48, 10],
   [1, 100, 32, 68, 32, 49, 46, 49, 32, 50, 54, 47, 48, 49, 47, 48, 49, 32, 48, 48, 58, 48, 48, 58,
    48, 48, 32, 97, 32, 49, 32, 48, 10],
   [1, 101, 10],
   [1, 115, 32, 49, 47, 48, 47, 48, 10],
   [1, 100, 32, 68, 32, 49, 46, 50, 32, 50, 54, 47, 48, 49, 47, 48, 49, 32, 48, 48, 58, 48, 48, 58,
    48, 48, 32, 97, 32, 50, 32, 49, 10],
   [1, 101, 10],
   [1, 117, 10]]

end Unitas.Sccs.Tables
