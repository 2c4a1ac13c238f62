import Unitas.Sccs.Dodelt

/-! The body of an s-file: the control lines around its texts, and the texts of a version. -/
namespace Unitas.Sccs

/-- `setkeep`: the first block in the queue that decides. -/
def setkeep : List Queue → ℕ
  | [] => NO
  | q :: p_q => if q.q_keep ≠ 0 then q.q_keep else setkeep p_q

/-- A block is put before the ones with smaller serials. One that is there already is an error. -/
def insertq (new : Queue) : List Queue → Option (List Queue)
  | [] => some [new]
  | cur :: p_q =>
    if cur.q_sernum = new.q_sernum then none
    else if cur.q_sernum < new.q_sernum then some (new :: cur :: p_q)
    else (insertq new p_q).map (cur :: ·)

def removeq (ser : ℕ) : List Queue → Option (List Queue)
  | [] => none
  | cur :: p_q => if cur.q_sernum = ser then some p_q else (removeq ser p_q).map (cur :: ·)

/-- The queue is changed, and `p_keep` with it. -/
def setq (p_q : Option (List Queue)) : M Unit :=
  match p_q with
  | none => fatal
  | some p_q => modify fun pkt => { pkt with p_q := p_q, p_keep := setkeep p_q }

def addq (ser keep : ℕ) (iord : UInt8) : M Unit := do
  setq (insertq ⟨ser, keep, iord⟩ (← get).p_q)

def remq (ser : ℕ) : M Unit := do
  setq (removeq ser (← get).p_q)

/-- What a block says about its lines. -/
def blockKeep (applied : Bool) (iord : UInt8) : ℕ :=
  if applied then if iord = INS then YES else NO
  else if iord = INS then NO else 0

/-- A control line of the body. -/
def control (p : Line) : M Unit := do
  let pkt ← get
  let iord := chr p.tail
  fatalIf (iord ≠ INS ∧ iord ≠ DEL ∧ iord ≠ END)
  let ser := (satoi (NONBLANK p.tail.tail)).1
  fatalIf ¬ (0 < ser ∧ ser ≤ pkt.maxser)
  if iord = END then remq ser
  else addq ser (blockKeep ((pkt.p_apply ser).a_code = APPLY) iord) iord

/-- `readmod` reads up to the next line of the version. -/
def readmod : ℕ → M Bool
  | 0 => fatal
  | fuel + 1 => do
    match ← getline with
    | none =>
      fatalIf ((← get).p_q.isEmpty = false)
      return false
    | some p =>
      if chr p ≠ CTLCHAR then
        if (← get).p_keep = YES then
          modify fun pkt => { pkt with p_glnno := pkt.p_glnno + 1 }
          return true
        else readmod fuel
      else
        control p
        readmod fuel

end Unitas.Sccs
