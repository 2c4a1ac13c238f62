import Unitas.Lib.Hoare
import Unitas.Sccs.Delta
import Unitas.Sccs.Rmchg

/-! What the x-file of the SCCS commands depends on. -/
namespace Unitas.Sccs
open Unitas.Hoare

/-- What a command says about the x-file, which only changes as `putline` changes it. -/
class Stable (I : Packet → Prop) : Prop where
  change : ∀ pkt pkt' : Packet, pkt'.p_upd = pkt.p_upd → pkt'.p_reopen = pkt.p_reopen →
    pkt'.Xcreate = pkt.Xcreate → pkt'.Xiop = pkt.Xiop → pkt'.p_nhash = pkt.p_nhash → I pkt → I pkt'
  putline : ∀ p, Keeps I (putline p)
  getlineEof : Keeps I getlineEof

theorem keeps_doIf {I : Packet → Prop} {c : Prop} [Decidable c] {m : M Unit} (h : Keeps I m) :
    Keeps I (doIf c m) := keeps_ite h (keeps_pure ())

theorem keeps_fatalIf {I : Packet → Prop} {c : Prop} [Decidable c] : Keeps I (fatalIf c) :=
  keeps_doIf keeps_fatal

variable {I : Packet → Prop} [Stable I]

theorem keeps_putline (p : Option Line) : Keeps I (putline p) := Stable.putline p

/-- Fields that the x-file does not depend on may change. -/
theorem keeps_change {f : Packet → Packet} (hf : ∀ pkt, (f pkt).p_upd = pkt.p_upd ∧
    (f pkt).p_reopen = pkt.p_reopen ∧ (f pkt).Xcreate = pkt.Xcreate ∧ (f pkt).Xiop = pkt.Xiop ∧
    (f pkt).p_nhash = pkt.p_nhash) : Keeps I (modify f) := by
  refine keeps_modify fun pkt h => ?_
  obtain ⟨h1, h2, h3, h4, h5⟩ := hf pkt
  exact Stable.change pkt _ h1 h2 h3 h4 h5 h

theorem keeps_getline : Keeps I getline := by
  refine keeps_get_bind fun pkt => keeps_bind (keeps_doIf (keeps_putline none)) fun _ =>
    keeps_get_bind fun pkt => ?_
  split
  · exact keeps_fatal
  · exact keeps_bind Stable.getlineEof fun _ => keeps_pure none
  · exact keeps_bind (keeps_change fun _ => ⟨rfl, rfl, rfl, rfl, rfl⟩) fun _ => keeps_pure _

theorem keeps_flushto (ch : UInt8) (put : Bool) (fuel : ℕ) :
    Keeps I (flushto ch put fuel) := by
  induction fuel with
  | zero => exact keeps_fatal
  | succ fuel ih =>
    refine keeps_bind keeps_getline fun p => ?_
    cases p with
    | none => exact keeps_fatal
    | some p =>
      exact keeps_ite (keeps_putline none)
        (keeps_bind (keeps_change fun _ => ⟨rfl, rfl, rfl, rfl, rfl⟩) fun _ => ih)

theorem keeps_stats_ab : Keeps I stats_ab := by
  refine keeps_bind keeps_getline fun p => ?_
  cases p with
  | none => exact keeps_fatal
  | some p => exact keeps_bind keeps_fatalIf fun _ => keeps_pure _

theorem keeps_getadel (zone : Zone) (dt : Deltab) : Keeps I (getadel zone dt) := by
  refine keeps_bind keeps_getline fun p => ?_
  cases p with
  | none => exact keeps_fatal
  | some p =>
    dsimp only
    split
    · exact keeps_fatal
    · exact keeps_pure _

/-- The lines of a delta, of which the first may be read from a state that has not come so far. -/
theorem triple_deltaLines {P : Packet → Prop} (hP : Triple P getline fun _ => I)
    {esc : Line → M Unit} (hesc : ∀ p, Keeps I (esc p)) (d : Dodelt) (fuel : ℕ) :
    Triple P (deltaLines esc d fuel) fun _ => I := by
  induction fuel generalizing P with
  | zero => exact triple_fatal
  | succ fuel ih =>
    refine triple_bind hP fun p => ?_
    have hlines : Keeps I (deltaLines esc d fuel) := ih keeps_getline
    cases p with
    | none => exact keeps_fatal
    | some p =>
      refine keeps_bind keeps_fatalIf fun _ => keeps_ite (keeps_pure _) (keeps_ite ?_ (keeps_ite ?_ ?_))
      · exact keeps_bind (keeps_doIf (hesc p)) fun _ => hlines
      · exact keeps_bind (keeps_doIf (keeps_change fun _ => ⟨rfl, rfl, rfl, rfl, rfl⟩)) fun _ => hlines
      · exact keeps_fatal

theorem keeps_deltaLines {esc : Line → M Unit} (hesc : ∀ p, Keeps I (esc p)) (d : Dodelt)
    (fuel : ℕ) : Keeps I (deltaLines esc d fuel) := triple_deltaLines keeps_getline hesc d fuel

theorem keeps_deltaEntry (type : UInt8) (dt : Deltab) (d : Dodelt) :
    Keeps I (deltaEntry type dt d) := by
  refine keeps_get_bind fun pkt => keeps_bind
    (keeps_doIf (keeps_change fun _ => ⟨rfl, rfl, rfl, rfl, rfl⟩)) fun _ =>
    keeps_ite (keeps_pure _) (keeps_bind (keeps_change fun pkt => ?_) fun _ =>
      keeps_bind (keeps_change fun _ => ⟨rfl, rfl, rfl, rfl, rfl⟩) fun _ => keeps_pure _)
  split_ifs
  · exact ⟨rfl, rfl, rfl, rfl, rfl⟩
  · exact ⟨rfl, rfl, rfl, rfl, rfl⟩

theorem keeps_dodeltLoop (zone : Zone) {esc : Line → M Unit}
    (hesc : ∀ p, Keeps I (esc p)) (type : UInt8) (fuel : ℕ) :
    ∀ d, Keeps I (dodeltLoop zone esc type fuel d) := by
  induction fuel with
  | zero => exact fun _ => keeps_fatal
  | succ fuel ih =>
    intro d
    refine keeps_bind (keeps_getadel zone d.dt) fun r => keeps_ite (keeps_pure _) ?_
    refine keeps_bind (keeps_deltaEntry type r.2 d) fun d => keeps_bind (keeps_deltaLines hesc d fuel)
      fun _ => keeps_bind keeps_getline fun p => ?_
    cases p with
    | none => exact keeps_fatal
    | some p => exact keeps_ite (keeps_pure _) (ih d)

theorem keeps_finduser (fuel : ℕ) : Keeps I (finduser fuel) := by
  induction fuel with
  | zero => exact keeps_fatal
  | succ fuel ih =>
    refine keeps_bind keeps_getline fun p => ?_
    cases p with
    | none => exact keeps_fatal
    | some p => exact keeps_ite ih (keeps_ite keeps_fatal (keeps_pure _))

theorem keeps_doflags (fuel : ℕ) : Keeps I (doflags fuel) := by
  induction fuel with
  | zero => exact keeps_fatal
  | succ fuel ih =>
    refine keeps_bind keeps_getline fun p => ?_
    cases p with
    | none => exact keeps_pure _
    | some p => exact keeps_ite ih (keeps_pure _)

theorem keeps_setq (q : Option (List Queue)) : Keeps I (setq q) := by
  cases q with
  | none => exact keeps_fatal
  | some q => exact keeps_change fun _ => ⟨rfl, rfl, rfl, rfl, rfl⟩

theorem keeps_control (p : Line) : Keeps I (control p) :=
  keeps_get_bind fun _ => keeps_bind keeps_fatalIf fun _ => keeps_bind keeps_fatalIf fun _ =>
    keeps_ite (keeps_get_bind fun _ => keeps_setq _) (keeps_get_bind fun _ => keeps_setq _)

theorem keeps_readmod (fuel : ℕ) : Keeps I (readmod fuel) := by
  induction fuel with
  | zero => exact keeps_fatal
  | succ fuel ih =>
    refine keeps_bind keeps_getline fun p => ?_
    cases p with
    | none => exact keeps_get_bind fun _ => keeps_bind keeps_fatalIf fun _ => keeps_pure _
    | some p =>
      refine keeps_ite (keeps_get_bind fun _ => keeps_ite ?_ ih) (keeps_bind (keeps_control p)
        fun _ => ih)
      exact keeps_bind (keeps_change fun _ => ⟨rfl, rfl, rfl, rfl, rfl⟩) fun _ => keeps_pure _

theorem keeps_putmrs (letter : UInt8) (mrs : List Line) :
    Keeps I (putmrs letter mrs) := by
  induction mrs with
  | nil => exact keeps_pure _
  | cons mr mrs ih => exact keeps_bind (keeps_putline _) fun _ => ih

theorem keeps_putComments (c : Change) : Keeps I (putComments c) := by
  refine keeps_bind (keeps_doIf ?_) fun _ => keeps_get_bind fun _ => keeps_bind (keeps_doIf ?_)
    fun _ => keeps_doIf ?_
  · exact keeps_bind (keeps_putline _) fun _ => keeps_bind (keeps_putline _) fun _ => keeps_putline _
  · exact keeps_bind (keeps_putline _) fun _ => keeps_putmrs _ _
  · exact keeps_bind (keeps_putline _) fun _ => keeps_bind (keeps_putline _) fun _ =>
      keeps_bind (keeps_putline _) fun _ => keeps_putline _

theorem keeps_escdodelt (c : Change) (p : Line) : Keeps I (escdodelt c p) := by
  refine keeps_get_bind fun _ => keeps_bind (keeps_doIf ?_) fun _ => keeps_ite ?_ ?_
  · refine keeps_bind (keeps_change fun _ => ⟨rfl, rfl, rfl, rfl, rfl⟩) fun _ => keeps_doIf ?_
    exact keeps_bind (keeps_putmrs _ _) fun _ => keeps_change fun _ => ⟨rfl, rfl, rfl, rfl, rfl⟩
  · exact keeps_bind keeps_fatalIf fun _ => keeps_get_bind fun _ =>
      keeps_doIf (keeps_doIf (keeps_change fun _ => ⟨rfl, rfl, rfl, rfl, rfl⟩))
  · exact keeps_get_bind fun _ => keeps_doIf (keeps_bind
      (keeps_change fun _ => ⟨rfl, rfl, rfl, rfl, rfl⟩) fun _ => keeps_putComments c)

theorem keeps_rmdelBody (D_serial fuel : ℕ) :
    ∀ r, Keeps I (rmdelBody D_serial fuel r) := by
  induction fuel with
  | zero => exact fun _ => keeps_fatal
  | succ fuel ih =>
    intro r
    refine keeps_bind keeps_getline fun p => ?_
    cases p with
    | none => exact keeps_pure _
    | some p =>
      have hskip := fun c [Decidable c] => @keeps_doIf I c _ _ (keeps_change
        (f := fun pkt => { pkt with p_wrttn := true }) fun _ => ⟨rfl, rfl, rfl, rfl, rfl⟩)
      exact keeps_ite (keeps_bind keeps_fatalIf fun _ => keeps_bind (hskip _) fun _ => ih _)
        (keeps_bind (hskip _) fun _ => ih _)

theorem keeps_copyRest (fuel : ℕ) : Keeps I (copyRest fuel) := by
  induction fuel with
  | zero => exact keeps_fatal
  | succ fuel ih =>
    refine keeps_bind keeps_getline fun p => ?_
    cases p with
    | none => exact keeps_pure _
    | some p => exact ih

theorem keeps_rddiff : Keeps I rddiff :=
  keeps_get_bind fun _ => keeps_ite (keeps_pure _) (keeps_bind
    (keeps_change fun _ => ⟨rfl, rfl, rfl, rfl, rfl⟩) fun _ => keeps_pure _)

theorem keeps_skipText (fuel : ℕ) : Keeps I (skipText fuel) := by
  induction fuel with
  | zero => exact keeps_fatal
  | succ fuel ih =>
    refine keeps_bind keeps_rddiff fun s => ?_
    cases s with
    | none => exact keeps_fatal
    | some s => exact keeps_doIf ih

theorem keeps_skiplines (fuel : ℕ) (n : ℤ) : Keeps I (skiplines fuel n) := by
  refine keeps_ite keeps_fatal ?_
  generalize n.toNat = n
  induction n with
  | zero => exact keeps_pure _
  | succ n ih => exact keeps_bind (keeps_skipText fuel) fun _ => ih

theorem keeps_getdiff (fuel : ℕ) : Keeps I (getdiff fuel) := by
  refine keeps_bind keeps_rddiff fun p => ?_
  cases p with
  | none => exact keeps_pure _
  | some p =>
    refine keeps_ite (keeps_get_bind fun _ => keeps_pure _) (keeps_ite ?_ (keeps_ite (keeps_pure _)
      (keeps_ite ?_ (keeps_pure _))))
    · exact keeps_bind (keeps_skiplines _ _) fun _ => keeps_pure _
    · exact keeps_bind (keeps_change fun _ => ⟨rfl, rfl, rfl, rfl, rfl⟩) fun _ =>
        keeps_bind (keeps_skiplines _ _) fun _ => keeps_pure _

theorem keeps_before (fuel : ℕ) (n : ℤ) (k : ℕ) : Keeps I (before fuel n k) := by
  induction k with
  | zero => exact keeps_fatal
  | succ k ih =>
    exact keeps_get_bind fun _ => keeps_ite
      (keeps_bind (keeps_readmod fuel) fun _ => keeps_doIf ih) (keeps_pure _)

theorem keeps_putCurrent (fuel : ℕ) : Keeps I (putCurrent fuel) := by
  induction fuel with
  | zero => exact keeps_fatal
  | succ fuel ih =>
    exact keeps_get_bind fun _ => keeps_ite (keeps_bind keeps_getline fun _ => ih)
      (keeps_putline none)

theorem keeps_after (fuel : ℕ) (n : ℤ) : Keeps I (after fuel n) :=
  keeps_bind (keeps_before fuel n fuel) fun _ => keeps_get_bind fun _ =>
    keeps_doIf (keeps_putCurrent fuel)

theorem keeps_insertText (fuel : ℕ) :
    ∀ first', Keeps I (insertText first' fuel) := by
  induction fuel with
  | zero => exact fun _ => keeps_fatal
  | succ fuel ih =>
    intro first'
    refine keeps_bind keeps_rddiff fun str => ?_
    cases str with
    | none => exact keeps_fatal
    | some str => exact keeps_bind (keeps_putline _) fun _ => keeps_doIf (ih false)

theorem keeps_insert (fuel : ℕ) (linenum n : ℤ) (ser : ℕ) :
    Keeps I (insert fuel linenum n ser) := by
  refine keeps_bind (keeps_after fuel linenum) fun _ => keeps_bind (keeps_putline _) fun _ =>
    keeps_bind keeps_fatalIf fun _ => keeps_bind ?_ fun _ => keeps_putline _
  generalize n.toNat = n
  induction n with
  | zero => exact keeps_pure _
  | succ n ih => exact keeps_bind (keeps_insertText fuel true) fun _ => ih

theorem keeps_delete (fuel : ℕ) (linenum n : ℤ) (ser : ℕ) :
    Keeps I (delete fuel linenum n ser) :=
  keeps_bind (keeps_before fuel linenum fuel) fun _ => keeps_bind (keeps_putline _) fun _ =>
    keeps_bind (keeps_after fuel _) fun _ => keeps_putline _

theorem keeps_hunks (fuel newser k : ℕ) :
    ∀ counts, Keeps I (hunks fuel newser k counts) := by
  induction k with
  | zero => exact fun _ => keeps_fatal
  | succ k ih =>
    intro counts
    exact keeps_bind (keeps_getdiff fuel) fun d => keeps_ite (keeps_pure _) (keeps_ite
      (keeps_bind (keeps_insert _ _ _ _) fun _ => ih _) (keeps_bind (keeps_delete _ _ _ _) fun _ =>
        ih _))

theorem keeps_putAll (strs : List Line) : Keeps I (putAll strs) := by
  induction strs with
  | nil => exact keeps_pure _
  | cons str strs ih => exact keeps_bind (keeps_putline _) fun _ => ih

theorem keeps_readRest (fuel k : ℕ) : Keeps I (readRest fuel k) := by
  induction k with
  | zero => exact keeps_fatal
  | succ k ih => exact keeps_bind (keeps_readmod fuel) fun _ => keeps_doIf ih

theorem keeps_setup (serial : ℕ) : Keeps I (setup serial) := by
  refine keeps_get_bind fun pkt => ?_
  dsimp only
  split
  · exact keeps_fatal
  · exact keeps_change fun _ => ⟨rfl, rfl, rfl, rfl, rfl⟩

theorem keeps_dodelt (zone : Zone) {esc : Line → M Unit} (hesc : ∀ p, Keeps I (esc p))
    (sid : Option Sid) (type : UInt8) (fuel : ℕ) : Keeps I (dodelt zone esc sid type fuel) :=
  keeps_bind (keeps_change fun _ => ⟨rfl, rfl, rfl, rfl, rfl⟩) fun _ => keeps_bind keeps_stats_ab
    fun _ => keeps_bind (keeps_dodeltLoop zone hesc type fuel _) fun _ =>
      keeps_get_bind fun _ => keeps_bind keeps_fatalIf fun _ => keeps_pure _

end Unitas.Sccs
