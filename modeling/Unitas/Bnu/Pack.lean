import Mathlib.Data.List.Basic
import Mathlib.Data.Fin.Basic
import Mathlib.Logic.Function.Basic
import Unitas.Lib.Literals

/-! One end of a line under the packet protocol of `uucp`: `struct pack` and the frames it
writes. -/
namespace Unitas.Bnu
open Function

def pksizes : List ℕ := [1, 32, 64, 128, 256, 512, 1024, 2048, 4096, 1]

def CHECK : BitVec 16 := 0xAAAA

/-- The flags of `p_os` and `p_is`. -/
def B_READY : BitVec 8 := 1
def B_SENT : BitVec 8 := 2
def B_RESID : BitVec 8 := 8
def B_COPY : BitVec 8 := 16
def B_MARK : BitVec 8 := 32
def B_SHORT : BitVec 8 := 64
/-- The bit of a control byte that all data packets have. -/
def DATA : BitVec 8 := 128

/-- The bits of `p_msg` and `p_rmsg`. -/
structure Msg where
  close : Bool := false
  rj : Bool := false
  rr : Bool := false
  initc : Bool := false
  initb : Bool := false
  inita : Bool := false
  deriving DecidableEq, Repr

def Msg.none : Msg := {}

def Msg.or (m m' : Msg) : Msg where
  close := m.close || m'.close
  rj := m.rj || m'.rj
  rr := m.rr || m'.rr
  initc := m.initc || m'.initc
  initb := m.initb || m'.initb
  inita := m.inita || m'.inita

/-- A packet on the line. The byte that checks the header is always right. `body` is what
follows the header. -/
structure Frame where
  ksize : ℕ
  sum : BitVec 16
  cntl : BitVec 8
  body : List UInt8
  deriving DecidableEq, Repr

/-- An input buffer with the bytes read into it. -/
structure Buffer where
  id : ℕ
  bytes : List UInt8
  deriving DecidableEq, Repr

/-- `p_state` stands in its bits. `ipool` lists the free input buffers, `rptr` is an offset
into the buffer that is being copied, and `ofn` is all that has been written to the line.
`connodata` and `ntimeout` are the two counters next to the structure. -/
structure Pack where
  inita : Bool
  initb : Bool
  live : Bool
  rxmit : Bool
  draino : Bool
  down : Bool
  rclose : Bool
  rsize : ℕ
  xsize : ℕ
  rptr : ℕ
  ipool : List ℕ
  xcount : ℤ
  rcount : ℤ
  lpsize : ℕ
  rwindow : ℕ
  swindow : ℕ
  msg : Msg
  rmsg : Msg
  ps : Fin 8
  pr : Fin 8
  rpr : Fin 8
  nxtps : Fin 8
  imap : Fin 8 → Bool
  pscopy : Fin 8
  ob : Fin 8 → List UInt8
  ib : Fin 8 → Buffer
  os : Fin 8 → BitVec 8
  is : Fin 8 → BitVec 8
  osum : Fin 8 → BitVec 16
  isum : Fin 8 → ℤ
  ofn : List Frame
  connodata : ℕ
  ntimeout : ℕ

/-- `calloc`. -/
def Pack.zero : Pack where
  inita := false
  initb := false
  live := false
  rxmit := false
  draino := false
  down := false
  rclose := false
  rsize := 0
  xsize := 0
  rptr := 0
  ipool := []
  xcount := 0
  rcount := 0
  lpsize := 0
  rwindow := 0
  swindow := 0
  msg := .none
  rmsg := .none
  ps := 0
  pr := 0
  rpr := 0
  nxtps := 0
  imap := fun _ => false
  pscopy := 0
  ob := fun _ => []
  ib := fun _ => ⟨0, []⟩
  os := fun _ => 0
  is := fun _ => 0
  osum := fun _ => 0
  isum := fun _ => 0
  ofn := []
  connodata := 0
  ntimeout := 0

/-- The loop of `chksum`, with `s` what is left and its length for `n`. -/
def chksumFrom (sum x : BitVec 16) : List UInt8 → BitVec 16
  | [] => sum
  | b :: s =>
    let t := sum.rotateLeft 1
    let sum := t + b.toBitVec.setWidth 16
    let x := x + (sum ^^^ BitVec.ofNat 16 (s.length + 1))
    chksumFrom (if sum ≤ t then sum ^^^ x else sum) x s

def chksum (s : List UInt8) : BitVec 16 := chksumFrom (-1) 0 s

/-- `for (k = 0; n >>= 1; k++);` -/
def halvings : ℕ → ℕ → ℕ
  | 0, _ => 0
  | fuel + 1, n => if n / 2 = 0 then 0 else halvings fuel (n / 2) + 1

/-- A short has fifteen bits to shift out. -/
def pksize (n : ℕ) : ℕ := halvings 15 (n / 32)

/-- The number in the bits `cntl & 070` and that in `cntl & 07`. -/
def seqOf (cntl : BitVec 8) : Fin 8 := Fin.ofNat 8 (cntl.toNat / 8)

def valOf (cntl : BitVec 8) : Fin 8 := Fin.ofNat 8 cntl.toNat

/-- Put an input buffer back. -/
def Pack.release (x : Fin 8) (pk : Pack) : Pack :=
  { pk with ipool := (pk.ib x).id :: pk.ipool, is := update pk.is x 0 }

end Unitas.Bnu
