import Mathlib.Data.List.FinRange
import Unitas.Bnu.Pack

/-! The buffers of the `g` protocol: the pool of the receiver, the slots that packets are put
into, and the packets that are being sent. -/
namespace Unitas.Bnu.Slots

abbrev Buf := ℕ

/-- What is behind a header: whether the sums fit, and by how much a short packet is short. -/
structure Frame where
  good : Bool
  cc : ℤ

/-- `writing` tells that `pkwrite` has found room in the window, and now waits for its slot. -/
structure Pack where
  down : Bool
  rxmit : Bool
  rsize : ℤ
  rwindow : ℕ
  swindow : ℕ
  ipool : List Buf
  ib : Fin 8 → Buf
  is : Fin 8 → BitVec 8
  isum : Fin 8 → ℤ
  frame : Buf → Frame
  imap : Fin 8 → Bool
  pr : Fin 8
  rcount : ℕ
  os : Fin 8 → BitVec 8
  xcount : ℕ
  ps : Fin 8
  rpr : Fin 8
  nxtps : Fin 8
  pscopy : Fin 8
  writing : Bool

def next (x : Fin 8) : Fin 8 := x + 1

/-- The bit of `seq` in `m`, the input window. -/
def window (rwindow : ℕ) (pr seq : Fin 8) : Bool :=
  let t := (2 ^ rwindow - 1) <<< (next pr : ℕ)
  (t ||| t >>> 8).testBit seq

/-- The buffer of a slot goes back to the pool. -/
def Pack.free (pk : Pack) (x : Fin 8) : Pack :=
  { pk with ipool := pk.ib x :: pk.ipool, is := Function.update pk.is x 0 }

/-! ### Arrivals -/

def sackFrom : ℕ → Fin 8 → Pack → Pack
  | 0, _, pk => pk
  | n + 1, x, pk =>
    if x = pk.rpr then pk
    else
      let x := next x
      sackFrom n x <|
        if pk.os x &&& B_SENT ≠ 0 then
          { pk with os := Function.update pk.os x 0, xcount := pk.xcount - 1, ps := x }
        else pk

/-- `p_rpr` is at most seven turns away. -/
def pksack (pk : Pack) : Pack := sackFrom 8 pk.ps pk

/-- The slots that `pkdata` tries. -/
def places (pr : Fin 8) : List (Fin 8) := [pr, pr - 1, pr - 2, pr - 3, pr - 4, pr - 5, pr - 6]

def pkdata (c : BitVec 8) (frame : Frame) (bp : Buf) (pk : Pack) : Pack :=
  match (places pk.pr).find? fun x => pk.is x = 0 with
  | some x =>
    { pk with
      imap := Function.update pk.imap x true
      is := Function.update pk.is x c
      ib := Function.update pk.ib x bp
      frame := Function.update pk.frame bp frame }
  | none => { pk with ipool := bp :: pk.ipool }

/-- A packet whose header is right, or that no header comes before the alarm or the noise is too
long. `init` is an INITA or INITC. `fits` tells that a data packet has the receiver's size, `read`
is what comes behind its header before the alarm. -/
inductive Packet
  | timeout
  | init (val : Fin 8)
  | initb
  | rj (val : Fin 8)
  | rr (val : Fin 8)
  | close
  | data (fits : Bool) (c : BitVec 8) (read : Option Frame)

def pkgetpack (pk : Pack) : Packet → Pack
  | .timeout => { pk with rxmit := true }
  | .init val => if val ≠ 0 then { pk with swindow := val } else pk
  | .initb => pk
  | .rj val => pksack { pk with rxmit := true, rpr := val }
  | .rr val => pksack { pk with rpr := val }
  | .close => { pk with down := true, rxmit := false }
  | .data fits c read =>
    if ¬ fits then pk
    else
      let pk := pksack { pk with rpr := valOf c }
      match pk.ipool with
      | [] => pk
      | bp :: ipool =>
        let pk := { pk with ipool }
        match read with
        | some frame => pkdata c frame bp pk
        | none => { pk with rxmit := true }

/-! ### Reading -/

/-- The packet of `x` and what is in the slot `seq` change places. -/
def Pack.exchange (pk : Pack) (x seq : Fin 8) : Pack :=
  if x ≠ seq then
    { pk with
      ib := Function.update (Function.update pk.ib x (pk.ib seq)) seq (pk.ib x)
      is := Function.update pk.is x (pk.is seq) }
  else pk

def isShort (cntl : BitVec 8) : Bool := cntl &&& B_SHORT ≠ 0

def Pack.mark (pk : Pack) (cntl : BitVec 8) (seq : Fin 8) : Pack :=
  { pk with
    is := Function.update pk.is seq (if isShort cntl then B_MARK + B_SHORT else B_MARK)
    isum := Function.update pk.isum seq
      (pk.rsize - if isShort cntl then (pk.frame (pk.ib seq)).cc else 0) }

/-- The first loop of `pkaccept`, for one slot. -/
def examine (imask : Fin 8 → Bool) (pk : Pack) (x : Fin 8) : Pack :=
  if ¬ imask x then pk
  else
    let cntl := pk.is x
    if cntl &&& DATA = 0 then pk.free x
    else
      let pk := { pk with is := Function.update pk.is x (~~~(B_COPY ||| B_MARK)) }
      let seq := seqOf cntl
      if ¬ (pk.frame (pk.ib x)).good then pk.free x
      else if ¬ window pk.rwindow pk.pr seq then pk.free x
      else if pk.is seq &&& (B_COPY ||| B_MARK) ≠ 0 then pk.free x
      else (pk.exchange x seq).mark cntl seq

/-- The second loop: `gap` is `t >= 0`. -/
def scanFrom : ℕ → Fin 8 → Bool → ℕ → Pack → Pack
  | 0, _, _, accept, pk => { pk with rcount := accept }
  | n + 1, x, gap, accept, pk =>
    if ¬ window pk.rwindow pk.pr x then { pk with rcount := accept }
    else
      let pk :=
        if pk.is x &&& B_MARK ≠ 0 then
          { pk with is := Function.update pk.is x (pk.is x ||| B_COPY) }
        else pk
      if pk.is x &&& B_COPY ≠ 0 then
        if gap then scanFrom n (next x) gap accept (pk.free x)
        else scanFrom n (next x) gap (accept + 1) pk
      else scanFrom n (next x) true accept pk

def pkaccept (pk : Pack) : Pack :=
  let marked := (List.finRange 8).foldl (examine pk.imap) { pk with imap := fun _ => false }
  scanFrom 8 (next pk.pr) false 0 marked

/-- `cc` bytes of the first packet have gone to the caller. -/
def Pack.take (pk : Pack) (x : Fin 8) (cc : ℤ) : Pack :=
  let isum := pk.isum x - cc
  let pk := { pk with isum := Function.update pk.isum x isum }
  if isum = 0 then { pk.free x with pr := x, rcount := pk.rcount - 1 }
  else { pk with is := Function.update pk.is x (pk.is x ||| B_RESID) }

/-- The loop of `pkread` that copies to the caller. Every turn but the last frees a slot. -/
def readFrom : ℕ → ℤ → Bool → Pack → Pack
  | 0, _, _, pk => pk
  | n + 1, icount, xfr, pk =>
    let x := next pk.pr
    let cc := min (pk.isum x) icount
    if icount = 0 ∨ pk.is x &&& B_COPY = 0 ∨ (cc = 0 ∧ xfr) then pk
    else if cc = 0 then pk.take x cc
    else readFrom n (icount - cc) true (pk.take x cc)

/-- `pkread` after one call of `pkaccept`, which it calls again if nothing is accepted. -/
def pkread (icount : ℤ) (pk : Pack) : Pack :=
  let pk := pkaccept pk
  if pk.rcount = 0 then pk else readFrom 9 icount false pk

/-! ### Writing -/

/-- `pkoutput`; `control` tells that a control message goes out instead of data. -/
def pkoutput (control : Bool) (pk : Pack) : Pack :=
  let pk := if pk.rxmit then { pk with nxtps := next pk.rpr } else pk
  let x := pk.nxtps
  if control ∨ pk.down ∨ pk.os x &&& (B_READY ||| B_SENT) = 0 then pk
  else
    { pk with
      os := Function.update pk.os x (pk.os x ||| B_SENT)
      nxtps := next x
      rxmit := false }

/-- `pkwrite` puts a packet into its slot. -/
def store (short : Bool) (pk : Pack) : Pack :=
  let x := next pk.pscopy
  { pk with
    os := Function.update pk.os x (if short then B_READY + B_SHORT else B_READY)
    pscopy := x
    xcount := pk.xcount + 1
    writing := false }

/-- The loops of `pkread` and `pkwrite` that wait are runs of `getpack` and `output`. -/
inductive Act
  | getpack (p : Packet)
  | read (icount : ℤ)
  | write
  | store (short : Bool)
  | output (control : Bool)

def step (pk : Pack) : Act → Option Pack
  | .getpack p => if pk.down then none else some (pkgetpack pk p)
  | .read icount => if (∃ x, pk.imap x) ∨ pk.rcount ≠ 0 then some (pkread icount pk) else none
  | .write =>
    if pk.down ∨ pk.swindow ≤ pk.xcount then none else some { pk with writing := true }
  | .store short =>
    if pk.writing ∧ pk.os (next pk.pscopy) = 0 then some (Slots.store short pk) else none
  | .output control => some (pkoutput control pk)

/-- What `pkopen` has made: its buffers, the packet size and the window of the other side. -/
structure Opened where
  bufs : List Buf
  nodup : bufs.Nodup
  le : bufs.length ≤ 7
  rsize : ℤ
  swindow : ℕ

def start (o : Opened) : Pack where
  down := false
  rxmit := false
  rsize := o.rsize
  rwindow := o.bufs.length
  swindow := o.swindow
  ipool := o.bufs
  ib _ := 0
  is _ := 0
  isum _ := 0
  frame _ := ⟨false, 0⟩
  imap _ := false
  pr := 0
  rcount := 0
  os _ := 0
  xcount := 0
  ps := 0
  rpr := 0
  nxtps := 1
  pscopy := 0
  writing := false

end Unitas.Bnu.Slots
