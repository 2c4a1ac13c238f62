import Mathlib.Data.Int.Basic
import Mathlib.Data.List.FinRange
import Unitas.Bnu.Pack

/-! The control messages of the `g` protocol, by which two sides tell each other their window
and packet size. -/
namespace Unitas.Bnu.Pk

def OLDPACKSIZE : ℤ := 128
def PACKSIZE : ℤ := 64
def MINPACKSIZE : ℤ := 32
def MAXPACKSIZE : ℤ := 4096
def WINDOWS : ℤ := 7
def MINWINDOWS : ℤ := 1
def MAXWINDOWS : ℤ := 7

def CLOSE : Fin 8 := 1
def RJ : Fin 8 := 2
def RR : Fin 8 := 4
def INITC : Fin 8 := 5
def INITB : Fin 8 := 6
def INITA : Fin 8 := 7

/-- The protocol string: its letter, and the two numbers after it as `sscanf` leaves them. `old`
is the packet size of the conversation before. -/
structure Protocol where
  isG : Bool
  options : Option (ℤ × ℤ)
  old : ℤ
  old_le : old ≤ MAXPACKSIZE
  le_old : MINPACKSIZE ≤ old

def Protocol.windows (p : Protocol) : ℤ :=
  match p.options with
  | some (windows, _) =>
    if windows < MINWINDOWS then WINDOWS else if windows > MAXWINDOWS then WINDOWS else windows
  | none => WINDOWS

def Protocol.packsize (p : Protocol) : ℤ :=
  let packsize :=
    match p.options with
    | some (_, packsize) =>
      if packsize < MINPACKSIZE then PACKSIZE
      else if packsize > MAXPACKSIZE then PACKSIZE else packsize
    | none => p.old
  if p.isG ∧ packsize > OLDPACKSIZE then OLDPACKSIZE else packsize

/-- A call of `pkopen` that is not out of memory: it has got `bufs` of its buffers. -/
structure Party where
  protocol : Protocol
  bufs : ℕ
  pos : 0 < bufs
  le : (bufs : ℤ) ≤ protocol.windows

def Party.size (p : Party) : ℕ := p.protocol.packsize.toNat

structure State where
  inita : Bool
  initb : Bool
  live : Bool
  rxmit : Bool
  draino : Bool
  down : Bool
  rclose : Bool

def DEAD : State := ⟨false, false, false, false, false, false, false⟩
def LIVE : State := { DEAD with live := true }

/-- `msg` and `rmsg` are sets of the messages of these numbers. -/
structure Pack where
  state : State
  rsize : ℕ
  xsize : ℕ
  lpsize : ℕ
  rwindow : ℕ
  swindow : ℕ
  msg : Fin 8 → Bool
  rmsg : Fin 8 → Bool

inductive Packet
  | cntl (c : ℕ)
  | data (ksize : ℕ)

/-- What the buffers come to when `pkoutput` looks at them: `bstate` of the next one to be sent,
and the number of the last packet that was read. -/
structure Bufs where
  ready : Bool
  sent : Bool
  pr : Fin 8

/-- The low bits of a message. -/
def Pack.val (pk : Pack) (pr : Fin 8) (i : Fin 8) : ℕ :=
  if i = RJ ∨ i = RR then pr
  else if i = INITB then pksize pk.rsize
  else if i = INITC ∨ i = INITA then pk.rwindow
  else 0

def Pack.sendData (pk : Pack) (b : Bufs) : Pack × List Packet :=
  if pk.state.down then (pk, [])
  else if b.ready ∨ b.sent then
    ({ pk with state := { pk.state with rxmit := false } }, [.data pk.lpsize])
  else (pk, [])

def pkoutput (b : Bufs) (pk : Pack) : Pack × List Packet :=
  match (List.finRange 8).find? pk.msg with
  | some i =>
    if (∃ j, j ≠ RR ∧ pk.msg j) ∨ ¬ b.ready then
      ({ pk with msg := Function.update pk.msg i false }, [.cntl (i * 8 + pk.val b.pr i)])
    else pk.sendData b
  | none => pk.sendData b

def set (msg : Fin 8 → Bool) (i : Fin 8) : Fin 8 → Bool := Function.update msg i true
def clear (msg : Fin 8 → Bool) (i : Fin 8) : Fin 8 → Bool := Function.update msg i false

def Pack.initb (pk : Pack) (val : ℕ) : Pack :=
  let val := val + 1
  let pk := { pk with xsize := pksizes.getD val 0, lpsize := val }
  if pk.state.live then { pk with msg := set pk.msg INITC }
  else
    let pk := { pk with state := { pk.state with initb := true } }
    if ¬ pk.state.inita then pk
    else { pk with rmsg := clear pk.rmsg INITA, msg := set pk.msg INITC }

def Pack.initc (pk : Pack) (val : ℕ) : Pack :=
  let pk :=
    if pk.state.inita ∧ pk.state.initb then
      { pk with state := LIVE, rmsg := clear pk.rmsg INITB }
    else { pk with msg := set pk.msg INITB }
  if val ≠ 0 then { pk with swindow := val } else pk

def Pack.inita (pk : Pack) (val : ℕ) : Pack :=
  if val = 0 ∧ pk.state.live then pk
  else if val ≠ 0 then
    { pk with
      state := { pk.state with inita := true }
      msg := set pk.msg INITB
      rmsg := set pk.rmsg INITB
      swindow := val }
  else pk

def Pack.cntl (pk : Pack) (cntl : Fin 8) (val : ℕ) : Pack :=
  if cntl = INITB then pk.initb val
  else if cntl = INITC then pk.initc val
  else if cntl = INITA then pk.inita val
  else if cntl = RJ then
    { pk with state := { pk.state with rxmit := true }, msg := set pk.msg RR }
  else pk

def pkcntl (b : Bufs) (c : ℕ) (pk : Pack) : Pack × List Packet :=
  let val := c % 8
  let cntl : Fin 8 := Fin.ofNat 8 (c / 8)
  if c / 64 % 4 ≠ 0 then (pk, [])
  else if cntl = CLOSE then ({ pk with state := { DEAD with down := true, rclose := true } }, [])
  else
    let pk := pk.cntl cntl val
    if ∃ j, pk.msg j then pkoutput b pk else (pk, [])

/-- A data packet, as far as its slot is left out. -/
def pkdata (b : Bufs) (ksize : ℕ) (pk : Pack) : Pack × List Packet :=
  if ksize ≠ 0 ∧ pksizes.getD ksize 0 ≠ pk.rsize then (pk, [])
  else if pk.state.draino ∨ ¬ pk.state.live then
    pkoutput b { pk with msg := fun i => pk.msg i || pk.rmsg i }
  else (pk, [])

def pkgetpack (b : Bufs) (pk : Pack) : Packet → Pack × List Packet
  | .cntl c => pkcntl b c pk
  | .data ksize => pkdata b ksize pk

/-- `pkgetpack` after a transmission error or too long a wait. -/
def retransmit (b : Bufs) (pk : Pack) : Pack × List Packet :=
  let msg := fun i => pk.msg i || pk.rmsg i
  pkoutput b { pk with
    msg := if ∃ i, msg i then msg else set msg RR
    state := { pk.state with rxmit := pk.state.rxmit || pk.state.live } }

def pkopen (p : Party) : Pack × List Packet :=
  pkoutput ⟨false, false, 0⟩
    { state := DEAD
      rsize := p.size
      xsize := p.size
      lpsize := 0
      rwindow := p.bufs
      swindow := p.protocol.windows.toNat
      msg := set (fun _ => false) INITA
      rmsg := set (fun _ => false) INITA }

/-! ### Two sides -/

/-- `line i` is on the way to the side `i`. -/
structure Net where
  pack : Bool → Pack
  line : Bool → List Packet

def Net.put (s : Net) (i : Bool) (out : Pack × List Packet) : Net where
  pack := Function.update s.pack i out.1
  line := Function.update s.line (!i) (s.line (!i) ++ out.2)

def Net.drop (s : Net) (i : Bool) (j : ℕ) : Net :=
  { s with line := Function.update s.line i ((s.line i).eraseIdx j) }

/-- What a side does: it gets one of the packets on the way, waits too long, finds bad packets or
packets to acknowledge, gives `pkoutput` a chance, or shuts the line down. -/
inductive Act
  | getpack (i : Bool) (j : ℕ) (b : Bufs)
  | lose (i : Bool) (j : ℕ)
  | retransmit (i : Bool) (b : Bufs)
  | accept (i : Bool) (bad : Bool)
  | output (i : Bool) (b : Bufs)
  | drain (i : Bool)
  | close (i : Bool) (b : Bufs)

def step (s : Net) : Act → Option Net
  | .getpack i j b =>
    if (s.pack i).state.down then none
    else (s.line i)[j]?.map fun p => (s.drop i j).put i (pkgetpack b (s.pack i) p)
  | .lose i j => some (s.drop i j)
  | .retransmit i b =>
    if (s.pack i).state.down then none else some (s.put i (Pk.retransmit b (s.pack i)))
  | .accept i bad =>
    let pk := s.pack i
    some (s.put i ({ pk with msg := set pk.msg (if bad then RJ else RR) }, []))
  | .output i b => some (s.put i (pkoutput b (s.pack i)))
  | .drain i =>
    let pk := s.pack i
    some (s.put i ({ pk with state := { pk.state with draino := true } }, []))
  | .close i b =>
    let pk := s.pack i
    some (s.put i (pkoutput b { pk with
      state := { pk.state with down := true }
      msg := set (fun _ => false) CLOSE }))

/-- Both sides have sent their INITA. -/
def start (p : Bool → Party) : Net where
  pack i := (pkopen (p i)).1
  line i := (pkopen (p !i)).2

end Unitas.Bnu.Pk
