import Unitas.Bnu.Pack

/-! What one end writes: `pkxstart`, `pkoutput` and the handling of control messages. -/
namespace Unitas.Bnu
open Function

/-- `pkxstart` for a control message. The call of `pkoutput` at its end finds `p_obusy` set. -/
def pkxstart (cntl : BitVec 8) (pk : Pack) : Pack :=
  { pk with ofn := pk.ofn ++ [⟨9, CHECK - cntl.signExtend 16, cntl, []⟩] }

/-- `pkxstart` for a data packet. -/
def pkxstartData (cntl : BitVec 8) (x : Fin 8) (pk : Pack) : Pack :=
  { pk with
    ofn := pk.ofn ++ [⟨pk.lpsize, CHECK - (pk.osum x ^^^ cntl.setWidth 16), cntl,
      (pk.ob x).take pk.xsize⟩]
    connodata := 0 }

/-- The first message of `p_msg` by its number, with its three bits, and the others. -/
def nextMsg (pk : Pack) : ℕ × ℕ × Msg :=
  if pk.msg.close then (1, 0, { pk.msg with close := false })
  else if pk.msg.rj then (2, pk.pr, { pk.msg with rj := false })
  else if pk.msg.rr then (4, pk.pr, { pk.msg with rr := false })
  else if pk.msg.initc then (5, pk.rwindow, { pk.msg with initc := false })
  else if pk.msg.initb then (6, pksize pk.rsize, { pk.msg with initb := false })
  else (7, pk.rwindow, { pk.msg with inita := false })

def sendMsg (pk : Pack) : Pack :=
  let (i, val, msg) := nextMsg pk
  pkxstart (BitVec.ofNat 8 (i * 8 + val)) { pk with msg }

def sendData (x : Fin 8) (pk : Pack) : Pack :=
  let bstate := pk.os x ||| B_SENT
  let cntl := BitVec.ofNat 8 (128 + pk.pr + x * 8)
  let cntl := if bstate &&& B_SHORT ≠ 0 then cntl ||| B_SHORT else cntl
  let pk := pkxstartData cntl x { pk with nxtps := x + 1 }
  { pk with os := update pk.os x bstate, rxmit := false }

/-- One packet at most is written. -/
def pkoutput (pk : Pack) : Pack :=
  let pk := if pk.rxmit then { pk with nxtps := pk.rpr + 1 } else pk
  let bstate := pk.os pk.nxtps
  if pk.msg ≠ .none ∧ ({ pk.msg with rr := false } ≠ Msg.none ∨ bstate &&& B_READY = 0) then
    sendMsg pk
  else if pk.down then pk
  else if bstate &&& (B_READY ||| B_SENT) ≠ 0 then sendData pk.nxtps pk
  else pk

/-- `for (x = pk->p_ps; x != pk->p_rpr; )`, which takes as many rounds as they are apart. -/
def pksackFrom : ℕ → Fin 8 → Pack → Pack
  | 0, _, pk => pk
  | n + 1, x, pk =>
    let x := x + 1
    if pk.os x &&& B_SENT ≠ 0 then
      pksackFrom n x { pk with
        connodata := 0, os := update pk.os x 0, xcount := pk.xcount - 1, ps := x }
    else pksackFrom n x pk

def pksack (pk : Pack) : Pack := pksackFrom (pk.rpr - pk.ps).val pk.ps pk

/-- `if (pk->p_msg) pkoutput(pk);` -/
def outputMsg (pk : Pack) : Pack := if pk.msg ≠ .none then pkoutput pk else pk

/-- `INITB`: the size of the packets to send, as an index into `pksizes`. -/
def cntlInitb (val : ℕ) (pk : Pack) : Pack :=
  let pk := { pk with xsize := pksizes.getD (val + 1) 0, lpsize := val + 1 }
  if pk.live then { pk with msg := { pk.msg with initc := true } }
  else
    let pk := { pk with initb := true }
    if pk.inita then
      { pk with rmsg := { pk.rmsg with inita := false }, msg := { pk.msg with initc := true } }
    else pk

/-- `INITC`: the window of the other end; the line is up once both other messages were seen. -/
def cntlInitc (val : ℕ) (pk : Pack) : Pack :=
  let pk :=
    if pk.inita ∧ pk.initb then
      { pk with
        inita := false, initb := false, live := true, rxmit := false, draino := false
        down := false, rclose := false, rmsg := { pk.rmsg with initb := false } }
    else { pk with msg := { pk.msg with initb := true } }
  if val ≠ 0 then { pk with swindow := val } else pk

/-- `INITA`: the window of the other end. -/
def cntlInita (val : ℕ) (pk : Pack) : Pack :=
  if val ≠ 0 then
    { pk with
      inita := true, msg := { pk.msg with initb := true }, rmsg := { pk.rmsg with initb := true }
      swindow := val }
  else pk

def cntlRr (val : Fin 8) (pk : Pack) : Pack := pksack { pk with rpr := val }

def cntlRj (val : Fin 8) (pk : Pack) : Pack :=
  cntlRr val { pk with rxmit := true, msg := { pk.msg with rr := true } }

/-- All of `p_state` but `DOWN` and `RCLOSE` goes. -/
def cntlClose (pk : Pack) : Pack :=
  { pk with
    inita := false, initb := false, live := false, rxmit := false, draino := false
    down := true, rclose := true }

def pkcntl (c : BitVec 8) (pk : Pack) : Pack :=
  if c &&& (DATA ||| B_SHORT) ≠ 0 then pk
  else
    match seqOf c with
    | 6 => outputMsg (cntlInitb (valOf c) pk)
    | 5 => outputMsg (cntlInitc (valOf c) pk)
    | 7 => outputMsg (cntlInita (valOf c) pk)
    | 2 => outputMsg (cntlRj (valOf c) pk)
    | 4 => outputMsg (cntlRr (valOf c) pk)
    | 1 => cntlClose pk
    | _ => outputMsg pk

end Unitas.Bnu
