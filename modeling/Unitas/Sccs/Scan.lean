import Unitas.Sccs.Reading
import Unitas.Sccs.Sfile

/-! What the SCCS commands do with the parts of a well-formed s-file. -/
namespace Unitas.Sccs
open Unitas.Hoare

/-- What of a packet does not change while lines are read and written. The sums are those at the end
of the file. -/
def core (pkt : Packet) : Packet :=
  { pkt with
    p_iop := none, p_line := [], p_wrttn := false, p_nhash := 0, Xcreate := false, Xiop := []
    First_esc := false, First_cmt := false
    p_chash := pkt.p_chash + charSum (pkt.p_iop.getD []).flatten
    p_uchash := pkt.p_uchash + ucharSum (pkt.p_iop.getD []).flatten }

/-- What the x-file has, without the line at hand. -/
def written (pkt : Packet) : Line := if pkt.Xcreate then pkt.Xiop else []

/-- The lines `ls` are still to be read, and `out` is what goes to the x-file of those before. -/
structure At (out ls : List Line) (k pkt : Packet) : Prop where
  iop : pkt.p_iop = some ls
  core : core pkt = k
  text : pkt.p_upd = true →
    written pkt ++ (if pkt.p_wrttn then [] else cstr pkt.p_line) = out.flatten

/-- The line `l` has been read, and may not go to the x-file as it is. -/
structure AtLine (out : List Line) (l : Line) (ls : List Line) (k pkt : Packet) : Prop where
  iop : pkt.p_iop = some ls
  core : core pkt = k
  line : pkt.p_line = l
  wrttn : pkt.p_wrttn = false
  text : pkt.p_upd = true → written pkt = out.flatten

variable {out ls : List Line} {l : Line} {k pkt : Packet}

theorem AtLine.at (h : AtLine out l ls k pkt) (hl : 0 ∉ l) : At (out ++ [l]) ls k pkt := by
  refine ⟨h.iop, h.core, fun hupd => ?_⟩
  rw [h.text hupd, h.wrttn, h.line, cstr_eq_self hl, List.flatten_append]
  simp

/-- The line is not written. -/
theorem AtLine.skip (h : AtLine out l ls k pkt) : At out ls k { pkt with p_wrttn := true } := by
  refine ⟨h.iop, h.core, fun hupd => ?_⟩
  have htext : written { pkt with p_wrttn := true } = out.flatten := h.text hupd
  rw [htext]
  simp

theorem core_flushed (pkt : Packet) : core (flushed pkt) = core pkt := by
  unfold flushed
  split_ifs
  · rfl
  · rfl

theorem core_nextLine (h : pkt.p_iop = some (l :: ls)) : core (nextLine pkt l ls) = core pkt := by
  simp only [core, nextLine, h, Option.getD_some, List.flatten_cons, charSum_append,
    ucharSum_append, add_assoc]

theorem flushed_iop (pkt : Packet) : (flushed pkt).p_iop = pkt.p_iop := by
  unfold flushed
  split_ifs
  · rfl
  · rfl

theorem flushed_upd (pkt : Packet) : (flushed pkt).p_upd = pkt.p_upd := by
  unfold flushed
  split_ifs
  · rfl
  · rfl

/-- Once the line at hand is written. -/
theorem written_flushed (h : pkt.p_upd = true) : written (flushed pkt) =
    written pkt ++ if pkt.p_wrttn then [] else cstr pkt.p_line := by
  unfold flushed
  cases hw : pkt.p_wrttn with
  | true =>
    rw [if_neg (by simp)]
    exact (List.append_nil _).symm
  | false =>
    rw [if_pos ⟨h, rfl⟩]
    rfl

/-- The next line. -/
theorem At.getline (h : At out (l :: ls) k pkt) :
    ∃ pkt', getline pkt = some (some l, pkt') ∧ AtLine out l ls k pkt' := by
  have hiop := (flushed_iop pkt).trans h.iop
  refine ⟨nextLine (flushed pkt) l ls, ?_, rfl, ?_, rfl, rfl, fun hupd => ?_⟩
  · rw [getline_eq, h.iop]
  · rw [core_nextLine hiop, core_flushed, h.core]
  · have hupd : pkt.p_upd = true := flushed_upd pkt ▸ hupd
    exact (written_flushed hupd).trans (h.text hupd)

variable {may : Prop} {α : Type}

theorem run_getline_bind {f : Option Line → M α} {R : α → Packet → Prop}
    (h : Run may (AtLine out l ls k) (f (some l)) R) :
    Run may (At out (l :: ls) k) (getline >>= f) R := by
  intro pkt hpkt
  obtain ⟨pkt', hget, hline⟩ := hpkt.getline
  have hbind : (getline >>= f) pkt = f (some l) pkt' := by
    change (getline pkt).bind _ = _
    rw [hget]
    rfl
  rw [hbind]
  exact h pkt' hline

/-- Fields that have to do with neither the lines nor the file. -/
theorem AtLine.congr {pkt' : Packet} (h : AtLine out l ls k pkt) {k' : Packet}
    (hcore : Sccs.core pkt' = k') (h1 : pkt'.p_iop = pkt.p_iop) (h2 : pkt'.p_line = pkt.p_line)
    (h3 : pkt'.p_wrttn = pkt.p_wrttn) (h4 : pkt'.p_upd = pkt.p_upd)
    (h5 : pkt'.Xcreate = pkt.Xcreate) (h6 : pkt'.Xiop = pkt.Xiop) : AtLine out l ls k' pkt' := by
  refine ⟨h1.trans h.iop, hcore, h2.trans h.line, h3.trans h.wrttn, fun hupd => ?_⟩
  rw [written, h5, h6]
  exact h.text (h4 ▸ hupd)

theorem run_modify_line {f : Packet → Packet} {k' : Packet}
    (hf : ∀ pkt, Sccs.core pkt = k → Sccs.core (f pkt) = k' ∧ (f pkt).p_iop = pkt.p_iop ∧
      (f pkt).p_line = pkt.p_line ∧ (f pkt).p_wrttn = pkt.p_wrttn ∧ (f pkt).p_upd = pkt.p_upd ∧
      (f pkt).Xcreate = pkt.Xcreate ∧ (f pkt).Xiop = pkt.Xiop) :
    Run may (AtLine out l ls k) (modify f) fun _ => AtLine out l ls k' := by
  refine run_modify fun pkt h => ?_
  obtain ⟨hcore, h1, h2, h3, h4, h5, h6⟩ := hf pkt h.core
  exact h.congr hcore h1 h2 h3 h4 h5 h6

/-- Such fields may change between lines. -/
theorem run_modify_at {f : Packet → Packet} {k' : Packet}
    (hf : ∀ pkt, Sccs.core pkt = k → Sccs.core (f pkt) = k' ∧ (f pkt).p_iop = pkt.p_iop ∧
      (f pkt).p_line = pkt.p_line ∧ (f pkt).p_wrttn = pkt.p_wrttn ∧ (f pkt).p_upd = pkt.p_upd ∧
      (f pkt).Xcreate = pkt.Xcreate ∧ (f pkt).Xiop = pkt.Xiop) :
    Run may (At out ls k) (modify f) fun _ => At out ls k' := by
  refine run_modify fun pkt h => ?_
  obtain ⟨hcore, h1, h2, h3, h4, h5, h6⟩ := hf pkt h.core
  refine ⟨h1.trans h.iop, hcore, fun hupd => ?_⟩
  rw [written, h2, h3, h5, h6]
  exact h.text (h4 ▸ hupd)

theorem run_fatalIf {c : Prop} [Decidable c] {P : Packet → Prop} (h : c → may) :
    Run may P (fatalIf c) fun _ => P := by
  refine run_ite (fun hc => run_fatal (h hc)) fun _ => run_pure fun _ h => h

theorem run_doIf {c : Prop} [Decidable c] {P : Packet → Prop} {m : M Unit} {Q : Unit → Packet → Prop}
    (h : c → Run may P m Q) (h' : ¬ c → ∀ pkt, P pkt → Q () pkt) : Run may P (doIf c m) Q :=
  run_ite h fun hc => run_pure (h' hc)

theorem run_finduser {users rest : List Line} {eUsers : Line}
    (husers : ∀ l ∈ users, chr l ≠ CTLCHAR)
    (heUsers : chr eUsers = CTLCHAR ∧ chr eUsers.tail = EUSERNAM)
    (hnul : ∀ l ∈ users ++ [eUsers], 0 ∉ l) {fuel : ℕ} (hfuel : users.length < fuel) :
    Run may (At out (users ++ eUsers :: rest) k) (finduser fuel)
      fun _ => At (out ++ (users ++ [eUsers])) rest k := by
  induction users generalizing out fuel with
  | nil =>
    obtain ⟨fuel, rfl⟩ := Nat.exists_eq_add_one_of_ne_zero (Nat.ne_zero_of_lt hfuel)
    refine run_getline_bind ?_
    dsimp only
    rw [if_neg (by simp [heUsers.1]), if_neg (by simp [heUsers.2])]
    exact run_pure fun pkt h => h.at (hnul eUsers (by simp))
  | cons l users ih =>
    obtain ⟨fuel, rfl⟩ := Nat.exists_eq_add_one_of_ne_zero (Nat.ne_zero_of_lt hfuel)
    obtain ⟨hl, husers⟩ := List.forall_mem_cons.mp husers
    obtain ⟨hl0, hnul⟩ := List.forall_mem_cons.mp hnul
    refine run_getline_bind ?_
    dsimp only
    rw [if_pos hl]
    have ih := @ih (out ++ [l]) husers hnul fuel (Nat.lt_of_succ_lt_succ hfuel)
    rw [List.append_assoc] at ih
    exact run_mono ih (fun pkt h => h.at hl0) fun _ _ h => h

theorem run_doflags {flags rest : List Line} {bText : Line}
    (hflags : ∀ l ∈ flags, chr l = CTLCHAR ∧ chr l.tail = FLAG)
    (hbText : ¬ (chr bText = CTLCHAR ∧ chr bText.tail = FLAG))
    (hnul : ∀ l ∈ flags ++ [bText], 0 ∉ l) {fuel : ℕ} (hfuel : flags.length < fuel) :
    Run may (At out (flags ++ bText :: rest) k) (doflags fuel)
      fun _ => At (out ++ (flags ++ [bText])) rest k := by
  induction flags generalizing out fuel with
  | nil =>
    obtain ⟨fuel, rfl⟩ := Nat.exists_eq_add_one_of_ne_zero (Nat.ne_zero_of_lt hfuel)
    refine run_getline_bind ?_
    dsimp only
    rw [if_neg hbText]
    exact run_pure fun pkt h => h.at (hnul bText (by simp))
  | cons l flags ih =>
    obtain ⟨fuel, rfl⟩ := Nat.exists_eq_add_one_of_ne_zero (Nat.ne_zero_of_lt hfuel)
    obtain ⟨hl, hflags⟩ := List.forall_mem_cons.mp hflags
    obtain ⟨hl0, hnul⟩ := List.forall_mem_cons.mp hnul
    refine run_getline_bind ?_
    dsimp only
    rw [if_pos hl]
    have ih := @ih (out ++ [l]) hflags hnul fuel (Nat.lt_of_succ_lt_succ hfuel)
    rw [List.append_assoc] at ih
    exact run_mono ih (fun pkt h => h.at hl0) fun _ _ h => h

/-- The line at hand is written. -/
theorem run_putline_none : Run may (At out ls k) (putline none) fun _ => At out ls k := by
  refine run_modify fun pkt h => ?_
  by_cases hupd : pkt.p_upd = true
  · rw [if_neg (by simp [hupd])]
    have htext := h.text hupd
    dsimp only
    split_ifs with hw
    · rw [hw] at htext
      refine ⟨h.iop, h.core, fun _ => ?_⟩
      rw [← htext]
      simp [put, written, hw, cstr]
    · refine ⟨h.iop, h.core, fun _ => ?_⟩
      rw [← htext]
      simp [put, written, hw]
  · rw [if_pos (by simp [hupd])]
    exact h

/-- The lines up to the one with `ch` are written unless `put` says that they have been. -/
theorem run_flushto {comments rest : List Line} {l : Line} {ch : UInt8}
    (hcomments : ∀ l ∈ comments, ¬ (chr l = CTLCHAR ∧ chr l.tail = ch))
    (hl : chr l = CTLCHAR ∧ chr l.tail = ch) (hnul : ∀ l' ∈ comments ++ [l], 0 ∉ l') (put : Bool)
    {fuel : ℕ} (hfuel : comments.length < fuel) :
    Run may (At out (comments ++ l :: rest) k) (flushto ch put fuel)
      fun _ => At (out ++ ((if put then [] else comments) ++ [l])) rest k := by
  induction comments generalizing out fuel with
  | nil =>
    obtain ⟨fuel, rfl⟩ := Nat.exists_eq_add_one_of_ne_zero (Nat.ne_zero_of_lt hfuel)
    refine run_getline_bind ?_
    dsimp only
    rw [if_pos hl, ite_self, List.nil_append]
    exact run_mono run_putline_none (fun pkt h => h.at (hnul l (by simp))) fun _ _ h => h
  | cons c comments ih =>
    obtain ⟨fuel, rfl⟩ := Nat.exists_eq_add_one_of_ne_zero (Nat.ne_zero_of_lt hfuel)
    obtain ⟨hc, hcomments⟩ := List.forall_mem_cons.mp hcomments
    obtain ⟨hc0, hnul⟩ := List.forall_mem_cons.mp hnul
    refine run_getline_bind ?_
    dsimp only
    rw [if_neg hc]
    have ih := @ih (out ++ if put then [] else [c]) hcomments hnul fuel
      (Nat.lt_of_succ_lt_succ hfuel)
    refine run_bind (run_modify fun pkt h => ?_) fun _ => run_mono ih (fun _ h => h) ?_
    · cases put with
      | true => simpa using h.skip
      | false =>
        have hput : { pkt with p_wrttn := false } = pkt := by
          rw [← h.wrttn]
        rw [hput]
        exact h.at hc0
    · intro _ _ h
      cases put with
      | true => simpa using h
      | false => simpa using h

/-- `escdodelt` where it has nothing to change. -/
def Unchanging (may : Prop) (esc : Line → M Unit) : Prop :=
  ∀ (out : List Line) (l : Line) (ls : List Line) (k : Packet), k.CDid_mrs = false →
    Run may (AtLine out l ls k) (esc l) fun _ => AtLine out l ls k

def withIdel (k : Packet) (idel : Option (ℕ → Idel)) : Packet := { k with p_idel := idel }

theorem run_deltaLines {esc : Line → M Unit} (hesc : Unchanging may esc) {lines rest : List Line}
    {last : Line} (hlines : ∀ l ∈ lines, IsDeltaLine l)
    (hlast : chr last = CTLCHAR ∧ chr last.tail = EDELTAB) (hnul : ∀ l ∈ lines ++ [last], 0 ∉ l)
    (d : Dodelt) (hk : k.CDid_mrs = false) {fuel : ℕ} (hfuel : lines.length < fuel) :
    Run may (At out (lines ++ last :: rest) k) (deltaLines esc d fuel) fun _ =>
      At (out ++ (lines ++ [last])) rest (withIdel k (if d.dt.d_type = 68 then
        k.p_idel.map (lines.foldl (enterList d.dt.d_serial) ·) else k.p_idel)) := by
  induction lines generalizing out k fuel with
  | nil =>
    obtain ⟨fuel, rfl⟩ := Nat.exists_eq_add_one_of_ne_zero (Nat.ne_zero_of_lt hfuel)
    refine run_getline_bind (run_bind (run_fatalIf fun h => absurd hlast.1 h) fun _ => ?_)
    rw [if_pos hlast.2]
    refine run_pure fun pkt h => ?_
    have hsame : (if d.dt.d_type = 68 then k.p_idel.map fun idel => idel else k.p_idel) = k.p_idel := by
      rw [Option.map_id', ite_self]
    simp only [List.foldl_nil, hsame]
    exact h.at (hnul last (by simp))
  | cons l lines ih =>
    obtain ⟨fuel, rfl⟩ := Nat.exists_eq_add_one_of_ne_zero (Nat.ne_zero_of_lt hfuel)
    obtain ⟨⟨hctl, hletter⟩, hlines⟩ := List.forall_mem_cons.mp hlines
    obtain ⟨hl0, hnul⟩ := List.forall_mem_cons.mp hnul
    refine run_getline_bind (run_bind (run_fatalIf fun h => absurd hctl h) fun _ => ?_)
    have hnot : chr l.tail ≠ EDELTAB := by
      rcases hletter with h | h | h | h | h
      all_goals rw [h]; decide
    rw [if_neg hnot]
    by_cases hixg : IsIxg l
    · have hcomment : ¬ (chr l.tail = COMMENTS ∨ chr l.tail = MRNUM) := by
        rcases hixg with h | h | h
        all_goals rw [h]; decide
      have hixg' : chr l.tail = INCLUDE ∨ chr l.tail = EXCLUDE ∨ chr l.tail = IGNORE := hixg
      have hlist : ∀ idel, enterList d.dt.d_serial idel l = Function.update idel d.dt.d_serial
        { idel d.dt.d_serial with i_ixg := doixg l (idel d.dt.d_serial).i_ixg } :=
        fun _ => if_pos hixg
      rw [if_neg hcomment, if_pos hixg']
      by_cases htype : d.dt.d_type = 68
      · have ih := @ih (out ++ [l]) (withIdel k (k.p_idel.map (enterList d.dt.d_serial · l)))
          hlines hnul hk fuel (Nat.lt_of_succ_lt_succ hfuel)
        rw [List.append_assoc, if_pos htype] at ih
        rw [if_pos htype]
        refine run_bind (Q := fun _ => At (out ++ [l]) (lines ++ last :: rest)
          (withIdel k (k.p_idel.map (enterList d.dt.d_serial · l)))) (run_doIf (fun _ => ?_)
            fun h => absurd htype h) fun _ => run_mono ih (fun _ h => h) fun _ pkt h => ?_
        · refine run_mono (run_modify_line fun pkt h => ⟨?_, rfl, rfl, rfl, rfl, rfl, rfl⟩)
            (fun _ h => h) fun _ _ h => h.at hl0
          rw [← h]
          simp only [withIdel, core, hlist]
        · have hmap : (k.p_idel.map (enterList d.dt.d_serial · l)).map
              (lines.foldl (enterList d.dt.d_serial) ·) =
              k.p_idel.map ((l :: lines).foldl (enterList d.dt.d_serial) ·) := by
            rw [Option.map_map]
            rfl
          rw [← hmap]
          exact h
      · have ih := @ih (out ++ [l]) k hlines hnul hk fuel (Nat.lt_of_succ_lt_succ hfuel)
        rw [List.append_assoc, if_neg htype] at ih
        rw [if_neg htype]
        exact run_bind (Q := fun _ => At (out ++ [l]) (lines ++ last :: rest) k)
          (run_doIf (fun h => absurd h htype) fun _ pkt h => h.at hl0) fun _ => ih
    · have hcomment : chr l.tail = COMMENTS ∨ chr l.tail = MRNUM := by
        rcases hletter with h | h | h
        · exact Or.inl h
        · exact Or.inr h
        · exact absurd h hixg
      rw [if_pos hcomment]
      have ih := @ih (out ++ [l]) k hlines hnul hk fuel (Nat.lt_of_succ_lt_succ hfuel)
      rw [List.append_assoc] at ih
      have hskip : ∀ idel, enterList d.dt.d_serial idel l = idel := fun _ => if_neg hixg
      simp only [List.foldl_cons, hskip]
      refine run_bind (Q := fun _ => At (out ++ [l]) (lines ++ last :: rest) k)
        (run_doIf (fun _ => ?_) fun _ pkt h => h.at hl0) fun _ => ih
      exact run_mono (hesc out l _ k hk) (fun _ h => h) fun _ _ h => h.at hl0

variable {zone : Zone}

/-- The delta that is looked for. -/
def TableEntry.IsSought (sid : Option Sid) (e : TableEntry zone) : Prop :=
  e.Live ∧ sid = some e.dt.d_sid

instance (sid : Option Sid) (e : TableEntry zone) : Decidable (e.IsSought sid) :=
  inferInstanceAs (Decidable (_ ∧ _))

/-- The first line of a delta as it is written. -/
def TableEntry.mark (type : UInt8) (sid : Option Sid) (e : TableEntry zone) : Line :=
  if e.IsSought sid then markType type e.first else e.first

def TableEntry.sidAfter (sid : Option Sid) (e : TableEntry zone) : Option Sid :=
  if e.IsSought sid then some ⟨0, 0, 0, 0⟩ else sid

/-- The delta table as it is written. -/
def tableOut (type : UInt8) : Option Sid → List (TableEntry zone) → List Line
  | _, [] => []
  | sid, e :: es =>
    e.stats :: e.mark type sid :: (e.lines ++ [e.last]) ++ tableOut type (e.sidAfter sid) es

/-- What the packet has before any delta is applied. -/
def noApply : ℕ → Apply := fun _ => ⟨false, SX_EMPTY, 0⟩

theorem withIdel_self (k : Packet) : withIdel k k.p_idel = k := rfl

theorem not_mem_markType {type : UInt8} (htype : type ≠ 0) {p : Line} (hp : 0 ∉ p) :
    0 ∉ markType type p := by
  have htake : 0 ∉ p.takeWhile (· ≠ 68) := fun h =>
    hp ((List.takeWhile_prefix _).subset h)
  have hdrop : ∀ c ∈ p.dropWhile (· ≠ 68), c ≠ 0 := fun c hc h0 =>
    hp (h0 ▸ (List.dropWhile_suffix _).subset hc)
  rw [markType, List.mem_append, not_or]
  refine ⟨htake, ?_⟩
  cases h : p.dropWhile (· ≠ 68) with
  | nil => exact List.not_mem_nil
  | cons c rest =>
    rw [h] at hdrop
    rw [List.mem_cons, not_or]
    exact ⟨htype.symm, fun hmem => hdrop 0 (List.mem_cons_of_mem c hmem) rfl⟩

theorem run_deltaEntry (e : TableEntry zone) (type : UInt8) (d : Dodelt)
    (happly : k.p_apply = noApply) (hdid : k.CDid_mrs = false) :
    Run may (AtLine out e.first ls k) (deltaEntry type e.dt d) fun d' pkt =>
      d'.dt = e.dt ∧ d'.sid = e.sidAfter d.sid ∧ AtLine out (e.mark type d.sid) ls (withIdel k
        (some (if e.Live then enterDelta e.dt (k.p_idel.getD (newIdel e.dt.d_serial))
          else k.p_idel.getD (newIdel e.dt.d_serial)))) pkt := by
  refine run_get_bind fun pkt₀ h₀ => ?_
  have hidel : pkt₀.p_idel = k.p_idel := by rw [← h₀.core]; rfl
  have happly₀ : pkt₀.p_apply = noApply := by rw [← happly, ← h₀.core]; rfl
  refine run_bind (Q := fun _ => AtLine out e.first ls (withIdel k
    (some (k.p_idel.getD (newIdel e.dt.d_serial))))) (run_doIf (fun hnone => ?_) fun hsome => ?_)
      fun _ => run_ite (fun hremoved => ?_) fun hlive => ?_
  · refine run_modify fun pkt hpkt => ?_
    subst hpkt
    rw [hidel] at hnone
    rw [Option.isNone_iff_eq_none.mp hnone]
    refine h₀.congr ?_ rfl rfl rfl rfl rfl rfl
    rw [← h₀.core, withIdel, core, core, happly₀]
    rfl
  · rintro pkt rfl
    rw [hidel, Option.isNone_iff_eq_none] at hsome
    obtain ⟨idel, hk⟩ := Option.ne_none_iff_exists'.mp hsome
    rw [hk, Option.getD_some, ← hk, withIdel_self]
    exact h₀
  · have hlive : ¬ e.Live := hremoved
    refine run_pure fun pkt h => ⟨rfl, ?_, ?_⟩
    · rw [TableEntry.sidAfter, if_neg fun h => hlive h.1]
    · rw [TableEntry.mark, if_neg fun h => hlive h.1, if_neg hlive]
      exact h
  · have hlive : e.Live := not_not.mp hlive
    refine run_bind (Q := fun _ => AtLine out (e.mark type d.sid) ls (withIdel k
      (some (k.p_idel.getD (newIdel e.dt.d_serial))))) (run_modify fun pkt h => ?_) fun _ =>
        run_bind (run_modify_line fun pkt h => ⟨?_, rfl, rfl, rfl, rfl, rfl, rfl⟩) fun _ =>
          run_pure fun pkt h => ⟨rfl, ?_, h⟩
    · have hdid' : pkt.CDid_mrs = false := (congrArg Packet.CDid_mrs h.core).trans hdid
      by_cases hsid : d.sid = some e.dt.d_sid
      · rw [if_pos hsid, TableEntry.mark, if_pos ⟨hlive, hsid⟩]
        refine ⟨h.iop, ?_, congrArg (markType type) h.line, h.wrttn, h.text⟩
        rw [← h.core, core, core, hdid']
      · rw [if_neg hsid, TableEntry.mark, if_neg fun h => hsid h.2]
        exact h.congr h.core rfl rfl rfl rfl rfl rfl
    · have hidel' : (core pkt).p_idel = _ := congrArg Packet.p_idel h
      change pkt.p_idel = _ at hidel'
      have hcore : core { pkt with p_idel := pkt.p_idel.map (enterDelta e.dt) } =
        withIdel (core pkt) (pkt.p_idel.map (enterDelta e.dt)) := rfl
      rw [hcore, h, hidel', if_pos hlive]
      rfl
    · by_cases hsid : d.sid = some e.dt.d_sid
      · rw [TableEntry.sidAfter, if_pos (show e.IsSought d.sid from ⟨hlive, hsid⟩)]
        exact if_pos hsid
      · rw [TableEntry.sidAfter, if_neg fun h : e.IsSought d.sid => hsid h.2]
        exact if_neg hsid

theorem run_getadel_bind (e : TableEntry zone) {dt : Deltab} {f : UInt8 × Deltab → M α}
    {R : α → Packet → Prop} (h : Run may (AtLine out e.first ls k) (f (BDELTAB, e.dt)) R) :
    Run may (At out (e.first :: ls) k) (getadel zone dt >>= f) R := by
  unfold getadel
  rw [bind_assoc]
  refine run_getline_bind ?_
  dsimp only
  rw [e.isFirst dt]
  exact h

/-- What the loop of `dodelt` does with a delta up to its end. -/
theorem run_delta {esc : Line → M Unit} (hesc : Unchanging may esc) (e : TableEntry zone)
    {rest : List Line} {type : UInt8} {d : Dodelt} (htype : type ≠ 0 ∨ d.sid = none)
    (happly : k.p_apply = noApply) (hdid : k.CDid_mrs = false)
    (hnul : ∀ l ∈ e.first :: (e.lines ++ [e.last]), 0 ∉ l) {fuel : ℕ}
    (hfuel : e.lines.length < fuel) {f : Dodelt → M α} {R : α → Packet → Prop}
    (hf : ∀ d', d'.sid = e.sidAfter d.sid → Run may
      (At (out ++ (e.mark type d.sid :: (e.lines ++ [e.last]))) rest (withIdel k (e.enter k.p_idel)))
      (f d') R) :
    Run may (AtLine out e.first (e.lines ++ e.last :: rest) k) (do
      let d ← deltaEntry type e.dt d
      deltaLines esc d fuel
      f d) R := by
  obtain ⟨hfirst, hnul⟩ := List.forall_mem_cons.mp hnul
  have hmark : 0 ∉ e.mark type d.sid := by
    rw [TableEntry.mark]
    split_ifs with hsought
    · refine not_mem_markType (htype.resolve_right fun hnone => ?_) hfirst
      rw [TableEntry.IsSought, hnone] at hsought
      exact absurd hsought.2 (by simp)
    · exact hfirst
  refine run_bind (run_deltaEntry e type d happly hdid) fun d' => run_and fun hdt => run_and
    fun hsid => run_mono ?_ (fun _ h => h.at hmark) fun _ _ h => h
  refine run_bind (run_deltaLines hesc e.isLine e.isLast hnul d' ?_ hfuel) fun _ =>
    run_mono (hf d' hsid) (fun pkt h => ?_) fun _ _ h => h
  · exact hdid
  rw [List.append_assoc, hdt] at h
  have hidel : (if e.Live then
      (some (if e.Live then enterDelta e.dt (k.p_idel.getD (newIdel e.dt.d_serial))
        else k.p_idel.getD (newIdel e.dt.d_serial))).map
          (e.lines.foldl (enterList e.dt.d_serial) ·)
      else some (if e.Live then enterDelta e.dt (k.p_idel.getD (newIdel e.dt.d_serial))
        else k.p_idel.getD (newIdel e.dt.d_serial))) = e.enter k.p_idel := by
    by_cases hlive : e.Live
    · simp only [TableEntry.enter, if_pos hlive, Option.map_some]
    · simp only [TableEntry.enter, if_neg hlive]
  rw [← hidel]
  exact h

/-- The lines of the deltas, but for the statistics of the first. -/
def entryLines (e : TableEntry zone) (es : List (TableEntry zone)) : List Line :=
  e.first :: (e.lines ++ e.last :: es.flatMap TableEntry.text)

theorem run_dodeltLoop {esc : Line → M Unit} (hesc : Unchanging may esc) {type : UInt8}
    {next : Line} {rest : List Line} (hnext : chr next ≠ CTLCHAR ∨ chr next.tail ≠ STATS)
    (es : List (TableEntry zone)) :
    ∀ (e : TableEntry zone) {out : List Line} {k : Packet} {d : Dodelt} {fuel : ℕ},
      (type ≠ 0 ∨ d.sid = none) → k.p_apply = noApply → k.CDid_mrs = false →
      (∀ l ∈ entryLines e es ++ [next], 0 ∉ l) → (entryLines e es).length < fuel →
      Run may (At out (entryLines e es ++ next :: rest) k) (dodeltLoop zone esc type fuel d)
        fun d' pkt => d'.sid = (e :: es).foldl TableEntry.sidAfter d.sid ∧
          At (out ++ ((tableOut type d.sid (e :: es)).tail ++ [next])) rest
            (withIdel k ((e :: es).foldl TableEntry.enter k.p_idel)) pkt := by
  induction es with
  | nil =>
    intro e out k d fuel htype happly hdid hnul hfuel
    obtain ⟨fuel, rfl⟩ := Nat.exists_eq_add_one_of_ne_zero (Nat.ne_zero_of_lt hfuel)
    have hnul' : ∀ l ∈ e.first :: (e.lines ++ [e.last]), 0 ∉ l := fun l hl =>
      hnul l (List.mem_append_left _ hl)
    have hlen : e.lines.length < fuel := by
      simp only [entryLines, List.length_cons, List.length_append] at hfuel
      omega
    have happ : entryLines e [] ++ next :: rest =
        e.first :: (e.lines ++ e.last :: next :: rest) := by
      simp [entryLines]
    rw [happ]
    refine run_getadel_bind e ?_
    dsimp only
    rw [if_neg (by simp)]
    refine run_delta hesc e htype happly hdid hnul' hlen fun d' hsid => ?_
    refine run_getline_bind ?_
    dsimp only
    rw [if_pos hnext]
    refine run_pure fun pkt h => ⟨hsid, ?_⟩
    have h := h.at (hnul next (by simp))
    simpa [tableOut] using h
  | cons e' es ih =>
    intro e out k d fuel htype happly hdid hnul hfuel
    obtain ⟨fuel, rfl⟩ := Nat.exists_eq_add_one_of_ne_zero (Nat.ne_zero_of_lt hfuel)
    have happ : entryLines e (e' :: es) ++ next :: rest =
        e.first :: (e.lines ++ e.last :: e'.stats :: (entryLines e' es ++ next :: rest)) := by
      simp [entryLines, TableEntry.text]
    have happ' : entryLines e (e' :: es) ++ [next] =
        (e.first :: (e.lines ++ [e.last])) ++ e'.stats :: (entryLines e' es ++ [next]) := by
      simp [entryLines, TableEntry.text]
    rw [happ'] at hnul
    obtain ⟨hnul', hnul⟩ := List.forall_mem_append.mp hnul
    obtain ⟨hstats, hnul⟩ := List.forall_mem_cons.mp hnul
    have hlen : e.lines.length < fuel ∧ (entryLines e' es).length < fuel := by
      simp only [entryLines, TableEntry.text, List.flatMap_cons, List.length_cons,
        List.length_append, List.length_nil] at hfuel ⊢
      omega
    rw [happ]
    refine run_getadel_bind e ?_
    dsimp only
    rw [if_neg (by simp)]
    refine run_delta hesc e htype happly hdid hnul' hlen.1 fun d' hsid => ?_
    refine run_getline_bind ?_
    dsimp only
    rw [if_neg (by simp [e'.isStats])]
    have htype' : type ≠ 0 ∨ d'.sid = none := htype.imp_right fun hnone => by
      rw [hsid, hnone, TableEntry.sidAfter, if_neg]
      exact fun h => absurd h.2 (by simp)
    have ih := @ih e' (out ++ (e.mark type d.sid :: (e.lines ++ [e.last])) ++ [e'.stats])
      (withIdel k (e.enter k.p_idel)) d' fuel htype' happly hdid hnul hlen.2
    refine run_mono ih (fun pkt h => h.at hstats) fun d'' pkt h => ?_
    rw [hsid] at h
    refine ⟨h.1, ?_⟩
    have h := h.2
    simpa [tableOut, withIdel] using h

theorem run_dodelt {esc : Line → M Unit} (hesc : Unchanging may esc) (S : Sfile zone)
    {sid : Option Sid} {type : UInt8} (htype : type ≠ 0 ∨ sid = none) (happly : k.p_apply = noApply)
    (hdid : k.CDid_mrs = false) (hnul : ∀ l ∈ S.tail, 0 ∉ l) {fuel : ℕ}
    (hfuel : S.tail.length < fuel) :
    Run may (At out S.tail k) (dodelt zone esc sid type fuel) fun d pkt =>
      d.sid = S.deltas.foldl TableEntry.sidAfter sid ∧
        At (out ++ (tableOut type sid S.deltas ++ [S.bUsers])) S.rest.tail (withIdel k S.idel) pkt := by
  obtain ⟨e, es, hdeltas⟩ := List.exists_cons_of_ne_nil S.deltas_ne_nil
  have htail : S.tail = e.stats :: (entryLines e es ++ S.bUsers :: S.rest.tail) := by
    simp [Sfile.tail, hdeltas, entryLines, TableEntry.text, Sfile.rest]
  rw [htail] at hnul hfuel ⊢
  rw [Sfile.idel, hdeltas]
  have hnul' : ∀ l ∈ entryLines e es ++ [S.bUsers], 0 ∉ l := by
    intro l hl
    refine hnul l (List.mem_cons_of_mem _ ?_)
    rcases List.mem_append.mp hl with hl | hl
    · exact List.mem_append_left _ hl
    · exact List.mem_append_right _ (List.mem_cons.mpr (Or.inl (List.mem_singleton.mp hl)))
  have hlen : (entryLines e es).length < fuel := by
    simp only [List.length_cons, List.length_append] at hfuel
    omega
  refine run_bind (Q := fun _ => At out _ (withIdel k none)) (run_modify_at fun pkt h =>
    ⟨by rw [← h]; rfl, rfl, rfl, rfl, rfl, rfl, rfl⟩) fun _ => run_bind
      (Q := fun _ => At (out ++ [e.stats]) (entryLines e es ++ S.bUsers :: S.rest.tail)
        (withIdel k none)) (run_getline_bind ?_) fun _ => ?_
  · refine run_bind (run_fatalIf fun h => ?_) fun _ => run_pure fun pkt h => h.at (hnul _ (by simp))
    simp [e.isStats] at h
  · refine run_bind (run_dodeltLoop hesc S.isBUsers es e htype happly hdid hnul' hlen) fun d =>
      run_and fun hsid => run_get_bind fun pkt hpkt => ?_
    have hidel : pkt.p_idel = (e :: es).foldl TableEntry.enter none :=
      congrArg Packet.p_idel hpkt.core
    refine run_bind (run_fatalIf fun h => ?_) fun _ => run_pure ?_
    · obtain ⟨idel, hsome⟩ := foldl_enter_some e es none
      rw [hidel, hsome] at h
      exact absurd h (by simp)
    · rintro pkt rfl
      refine ⟨hsid, ?_⟩
      simpa [tableOut, withIdel] using hpkt

end Unitas.Sccs
