import Unitas.Lib.ByteStream
import Unitas.Lib.CInt

/-! `dd`: the buffers and the loop of `process`. -/
namespace Unitas.Dd
open Unitas.ByteStream Unitas.CInt

structure Mode where
  ascii : Bool
  ebcdic : Bool
  ibm : Bool
  block : Bool
  unblock : Bool
  lcase : Bool
  ucase : Bool
  swab : Bool
  noerror : Bool
  osync : Bool

/-- `mode=0`. -/
def noMode : Mode :=
  ⟨false, false, false, false, false, false, false, false, false, false⟩

/-- What `main` has taken from the command line. -/
structure Args where
  mode : Mode
  ibs : ℕ
  obs : ℕ
  bcount : ℕ

def convtab_ascii : Array UInt8 :=
  #[0x00, 0x01, 0x02, 0x03, 0x9C, 0x09, 0x86, 0x7F, 0x97, 0x8D, 0x8E, 0x0B, 0x0C, 0x0D, 0x0E, 0x0F,
    0x10, 0x11, 0x12, 0x13, 0x9D, 0x85, 0x08, 0x87, 0x18, 0x19, 0x92, 0x8F, 0x1C, 0x1D, 0x1E, 0x1F,
    0x80, 0x81, 0x82, 0x83, 0x84, 0x0A, 0x17, 0x1B, 0x88, 0x89, 0x8A, 0x8B, 0x8C, 0x05, 0x06, 0x07,
    0x90, 0x91, 0x16, 0x93, 0x94, 0x95, 0x96, 0x04, 0x98, 0x99, 0x9A, 0x9B, 0x14, 0x15, 0x9E, 0x1A,
    0x20, 0xA0, 0xA1, 0xA2, 0xA3, 0xA4, 0xA5, 0xA6, 0xA7, 0xA8, 0xD5, 0x2E, 0x3C, 0x28, 0x2B, 0x7C,
    0x26, 0xA9, 0xAA, 0xAB, 0xAC, 0xAD, 0xAE, 0xAF, 0xB0, 0xB1, 0x21, 0x24, 0x2A, 0x29, 0x3B, 0x7E,
    0x2D, 0x2F, 0xB2, 0xB3, 0xB4, 0xB5, 0xB6, 0xB7, 0xB8, 0xB9, 0xCB, 0x2C, 0x25, 0x5F, 0x3E, 0x3F,
    0xBA, 0xBB, 0xBC, 0xBD, 0xBE, 0xBF, 0xC0, 0xC1, 0xC2, 0x60, 0x3A, 0x23, 0x40, 0x27, 0x3D, 0x22,
    0xC3, 0x61, 0x62, 0x63, 0x64, 0x65, 0x66, 0x67, 0x68, 0x69, 0xC4, 0xC5, 0xC6, 0xC7, 0xC8, 0xC9,
    0xCA, 0x6A, 0x6B, 0x6C, 0x6D, 0x6E, 0x6F, 0x70, 0x71, 0x72, 0x5E, 0xCC, 0xCD, 0xCE, 0xCF, 0xD0,
    0xD1, 0xE5, 0x73, 0x74, 0x75, 0x76, 0x77, 0x78, 0x79, 0x7A, 0xD2, 0xD3, 0xD4, 0x5B, 0xD6, 0xD7,
    0xD8, 0xD9, 0xDA, 0xDB, 0xDC, 0xDD, 0xDE, 0xDF, 0xE0, 0xE1, 0xE2, 0xE3, 0xE4, 0x5D, 0xE6, 0xE7,
    0x7B, 0x41, 0x42, 0x43, 0x44, 0x45, 0x46, 0x47, 0x48, 0x49, 0xE8, 0xE9, 0xEA, 0xEB, 0xEC, 0xED,
    0x7D, 0x4A, 0x4B, 0x4C, 0x4D, 0x4E, 0x4F, 0x50, 0x51, 0x52, 0xEE, 0xEF, 0xF0, 0xF1, 0xF2, 0xF3,
    0x5C, 0x9F, 0x53, 0x54, 0x55, 0x56, 0x57, 0x58, 0x59, 0x5A, 0xF4, 0xF5, 0xF6, 0xF7, 0xF8, 0xF9,
    0x30, 0x31, 0x32, 0x33, 0x34, 0x35, 0x36, 0x37, 0x38, 0x39, 0xFA, 0xFB, 0xFC, 0xFD, 0xFE, 0xFF]

def convtab_ebcdic : Array UInt8 :=
  #[0x00, 0x01, 0x02, 0x03, 0x37, 0x2D, 0x2E, 0x2F, 0x16, 0x05, 0x25, 0x0B, 0x0C, 0x0D, 0x0E, 0x0F,
    0x10, 0x11, 0x12, 0x13, 0x3C, 0x3D, 0x32, 0x26, 0x18, 0x19, 0x3F, 0x27, 0x1C, 0x1D, 0x1E, 0x1F,
    0x40, 0x5A, 0x7F, 0x7B, 0x5B, 0x6C, 0x50, 0x7D, 0x4D, 0x5D, 0x5C, 0x4E, 0x6B, 0x60, 0x4B, 0x61,
    0xF0, 0xF1, 0xF2, 0xF3, 0xF4, 0xF5, 0xF6, 0xF7, 0xF8, 0xF9, 0x7A, 0x5E, 0x4C, 0x7E, 0x6E, 0x6F,
    0x7C, 0xC1, 0xC2, 0xC3, 0xC4, 0xC5, 0xC6, 0xC7, 0xC8, 0xC9, 0xD1, 0xD2, 0xD3, 0xD4, 0xD5, 0xD6,
    0xD7, 0xD8, 0xD9, 0xE2, 0xE3, 0xE4, 0xE5, 0xE6, 0xE7, 0xE8, 0xE9, 0xAD, 0xE0, 0xBD, 0x9A, 0x6D,
    0x79, 0x81, 0x82, 0x83, 0x84, 0x85, 0x86, 0x87, 0x88, 0x89, 0x91, 0x92, 0x93, 0x94, 0x95, 0x96,
    0x97, 0x98, 0x99, 0xA2, 0xA3, 0xA4, 0xA5, 0xA6, 0xA7, 0xA8, 0xA9, 0xC0, 0x4F, 0xD0, 0x5F, 0x07,
    0x20, 0x21, 0x22, 0x23, 0x24, 0x15, 0x06, 0x17, 0x28, 0x29, 0x2A, 0x2B, 0x2C, 0x09, 0x0A, 0x1B,
    0x30, 0x31, 0x1A, 0x33, 0x34, 0x35, 0x36, 0x08, 0x38, 0x39, 0x3A, 0x3B, 0x04, 0x14, 0x3E, 0xE1,
    0x41, 0x42, 0x43, 0x44, 0x45, 0x46, 0x47, 0x48, 0x49, 0x51, 0x52, 0x53, 0x54, 0x55, 0x56, 0x57,
    0x58, 0x59, 0x62, 0x63, 0x64, 0x65, 0x66, 0x67, 0x68, 0x69, 0x70, 0x71, 0x72, 0x73, 0x74, 0x75,
    0x76, 0x77, 0x78, 0x80, 0x8A, 0x8B, 0x8C, 0x8D, 0x8E, 0x8F, 0x90, 0x6A, 0x9B, 0x9C, 0x9D, 0x9E,
    0x9F, 0xA0, 0xAA, 0xAB, 0xAC, 0x4A, 0xAE, 0xAF, 0xB0, 0xB1, 0xB2, 0xB3, 0xB4, 0xB5, 0xB6, 0xB7,
    0xB8, 0xB9, 0xBA, 0xBB, 0xBC, 0xA1, 0xBE, 0xBF, 0xCA, 0xCB, 0xCC, 0xCD, 0xCE, 0xCF, 0xDA, 0xDB,
    0xDC, 0xDD, 0xDE, 0xDF, 0xEA, 0xEB, 0xEC, 0xED, 0xEE, 0xEF, 0xFA, 0xFB, 0xFC, 0xFD, 0xFE, 0xFF]

def convtab_ibm : Array UInt8 :=
  #[0x00, 0x01, 0x02, 0x03, 0x37, 0x2D, 0x2E, 0x2F, 0x16, 0x05, 0x25, 0x0B, 0x0C, 0x0D, 0x0E, 0x0F,
    0x10, 0x11, 0x12, 0x13, 0x3C, 0x3D, 0x32, 0x26, 0x18, 0x19, 0x3F, 0x27, 0x1C, 0x1D, 0x1E, 0x1F,
    0x40, 0x5A, 0x7F, 0x7B, 0x5B, 0x6C, 0x50, 0x7D, 0x4D, 0x5D, 0x5C, 0x4E, 0x6B, 0x60, 0x4B, 0x61,
    0xF0, 0xF1, 0xF2, 0xF3, 0xF4, 0xF5, 0xF6, 0xF7, 0xF8, 0xF9, 0x7A, 0x5E, 0x4C, 0x7E, 0x6E, 0x6F,
    0x7C, 0xC1, 0xC2, 0xC3, 0xC4, 0xC5, 0xC6, 0xC7, 0xC8, 0xC9, 0xD1, 0xD2, 0xD3, 0xD4, 0xD5, 0xD6,
    0xD7, 0xD8, 0xD9, 0xE2, 0xE3, 0xE4, 0xE5, 0xE6, 0xE7, 0xE8, 0xE9, 0xAD, 0xE0, 0xBD, 0x5F, 0x6D,
    0x79, 0x81, 0x82, 0x83, 0x84, 0x85, 0x86, 0x87, 0x88, 0x89, 0x91, 0x92, 0x93, 0x94, 0x95, 0x96,
    0x97, 0x98, 0x99, 0xA2, 0xA3, 0xA4, 0xA5, 0xA6, 0xA7, 0xA8, 0xA9, 0xC0, 0x4F, 0xD0, 0xA1, 0x07,
    0x20, 0x21, 0x22, 0x23, 0x24, 0x15, 0x06, 0x17, 0x28, 0x29, 0x2A, 0x2B, 0x2C, 0x09, 0x0A, 0x1B,
    0x30, 0x31, 0x1A, 0x33, 0x34, 0x35, 0x36, 0x08, 0x38, 0x39, 0x3A, 0x3B, 0x04, 0x14, 0x3E, 0xE1,
    0x41, 0x42, 0x43, 0x44, 0x45, 0x46, 0x47, 0x48, 0x49, 0x51, 0x52, 0x53, 0x54, 0x55, 0x56, 0x57,
    0x58, 0x59, 0x62, 0x63, 0x64, 0x65, 0x66, 0x67, 0x68, 0x69, 0x70, 0x71, 0x72, 0x73, 0x74, 0x75,
    0x76, 0x77, 0x78, 0x80, 0x8A, 0x8B, 0x8C, 0x8D, 0x8E, 0x8F, 0x90, 0x9A, 0x9B, 0x9C, 0x9D, 0x9E,
    0x9F, 0xA0, 0xAA, 0xAB, 0xAC, 0xAD, 0xAE, 0xAF, 0xB0, 0xB1, 0xB2, 0xB3, 0xB4, 0xB5, 0xB6, 0xB7,
    0xB8, 0xB9, 0xBA, 0xBB, 0xBC, 0xBD, 0xBE, 0xBF, 0xCA, 0xCB, 0xCC, 0xCD, 0xCE, 0xCF, 0xDA, 0xDB,
    0xDC, 0xDD, 0xDE, 0xDF, 0xEA, 0xEB, 0xEC, 0xED, 0xEE, 0xEF, 0xFA, 0xFB, 0xFC, 0xFD, 0xFE, 0xFF]

/-- The file `in`. With `failAt` it cannot be read from that far on. -/
structure Input where
  stream : Stream UInt8
  failAt : Option ℕ
  eof : Bool
  error : Bool

structure State where
  input : Input
  ibuf : List UInt8
  obuf : List UInt8
  written : List UInt8
  counter : ℕ
  igotf : ℕ
  igotp : ℕ
  ogotf : ℕ
  ogotp : ℕ
  truncs : ℕ

/-- Why the loop ends: it is left, `exit` is called, a buffer is left, or a loop inside does not
end. -/
inductive Stop
  | done (d : State)
  | exit (status : ℕ)
  | undefined
  | hangs

def memset (buf : List UInt8) (c : UInt8) (n : ℕ) : Except Stop (List UInt8) :=
  if n ≤ buf.length then .ok (List.replicate n c ++ buf.drop n) else .error .undefined

def memcpy (dst src : List UInt8) (n : ℕ) : Except Stop (List UInt8) :=
  if n ≤ dst.length ∧ n ≤ src.length then .ok (src.take n ++ dst.drop n) else .error .undefined

/-- What `fwrite` writes of a buffer. -/
def fwrite (buf : List UInt8) (n : ℕ) : Except Stop (List UInt8) :=
  if n ≤ buf.length then .ok (buf.take n) else .error .undefined

/-- The string in a buffer, which must end there. -/
def cstring (buf : List UInt8) : Except Stop (List UInt8) :=
  if 0 ∈ buf then .ok (buf.takeWhile (· ≠ 0)) else .error .undefined

/-- `max`, whose arguments are `int`s. -/
def maxInt (a b : ℤ) : ℤ := if a > b then a else b

/-- The number of bytes that `blkcpy` copies. -/
def blkcpyLen (a : Args) : ℕ := (uwrap 64 (maxInt (wrap 32 a.ibs) (wrap 32 a.obs))).toNat

def blkcpy (a : Args) (d : State) : Except Stop State := do
  let obuf ← memset d.obuf 0 a.obs
  let obuf ← memcpy obuf d.ibuf (blkcpyLen a)
  return { d with obuf, truncs := if a.obs < a.ibs then d.truncs + 1 else d.truncs }

/-- `for (t=0; t<ibs; t++)` over `ibuf`, where `t` is an `unsigned`. -/
def eachByte (f : UInt8 → UInt8) (a : Args) (d : State) : Except Stop State :=
  if 2 ^ 32 ≤ a.ibs then .error .hangs
  else if d.ibuf.length < a.ibs then .error .undefined
  else .ok { d with ibuf := (d.ibuf.take a.ibs).map f ++ d.ibuf.drop a.ibs }

def trans (table : Array UInt8) : Args → State → Except Stop State :=
  eachByte fun c => table.getD c.toNat 0

def toupper (c : UInt8) : UInt8 := if 97 ≤ c ∧ c ≤ 122 then c - 32 else c

def tolower (c : UInt8) : UInt8 := if 65 ≤ c ∧ c ≤ 90 then c + 32 else c

def bucase : Args → State → Except Stop State := eachByte toupper

def blcase : Args → State → Except Stop State := eachByte tolower

def swapPairs : List UInt8 → List UInt8
  | c :: c' :: bytes => c' :: c :: swapPairs bytes
  | bytes => bytes

/-- The last pair of an odd block lies half outside the buffer. -/
def bswab (a : Args) (d : State) : Except Stop State :=
  if 2 ^ 32 ≤ a.ibs then .error .hangs
  else if a.ibs % 2 = 1 ∨ d.ibuf.length < a.ibs then .error .undefined
  else .ok { d with ibuf := swapPairs (d.ibuf.take a.ibs) ++ d.ibuf.drop a.ibs }

variable (ready : ℕ → ℕ)

/-- How much can be read before the end or the error. -/
def Input.available (i : Input) : ℕ :=
  match i.failAt with
  | none => i.stream.rest.length
  | some n => min (n - i.stream.pos) i.stream.rest.length

/-- The input after `n` of `wanted` bytes. -/
def Input.advance (n wanted : ℕ) (i : Input) : Input :=
  let stream := i.stream.skip n
  let failed := i.failAt.any (· ≤ stream.pos)
  { i with
    stream
    eof := i.eof || n < wanted && !failed
    error := i.error || n < wanted && failed }

/-- `fread` of at most `n` bytes, which `ready` may cut short. -/
def Input.fread (n : ℕ) (i : Input) : List UInt8 × Input :=
  let wanted := min n (ready i.stream.pos + 1)
  let k := min wanted i.available
  (i.stream.rest.take k, i.advance k wanted)

/-- The bytes that `fgets` reads with room for `n`, the newline among them. -/
def lineOf : ℕ → List UInt8 → List UInt8
  | 0, _ => []
  | _ + 1, [] => []
  | n + 1, c :: bytes => if c = 10 then [c] else c :: lineOf n bytes

/-- `fgets((char *)ibuf, ibs, in)`; without a line, or after an error, no null byte is stored. -/
def fgets (a : Args) (d : State) : Except Stop State :=
  let n := (wrap 32 a.ibs).toNat
  if n = 0 then .error .undefined
  else
    let line := lineOf (n - 1) (d.input.stream.rest.take d.input.available)
    let wanted := if 10 ∈ line then line.length else n - 1
    let input := d.input.advance line.length wanted
    let stored := if input.error || line = [] && 1 < n then line else line ++ [0]
    .ok { d with input, ibuf := stored ++ d.ibuf.drop stored.length }

/-- The line of `conv=block`, less its last byte. -/
def readLine (a : Args) (d : State) : Except Stop (ℕ × State) := do
  let d ← fgets a d
  let line ← cstring d.ibuf
  if line = [] then throw .undefined
  return (line.length, { d with ibuf := d.ibuf.set (line.length - 1) 0 })

def readIn (a : Args) (d : State) : Except Stop (ℕ × State) :=
  if a.mode.block then readLine a d
  else
    let (bytes, input) := d.input.fread ready a.ibs
    .ok (bytes.length, { d with input, ibuf := bytes ++ d.ibuf.drop bytes.length })

def applyIf (b : Bool) (f : Args → State → Except Stop State) (a : Args) (d : State) : Except Stop State :=
  if b then f a d else .ok d

def convert (a : Args) (d : State) : Except Stop State := do
  let d ← applyIf a.mode.ascii (trans convtab_ascii) a d
  let d ← applyIf a.mode.lcase blcase a d
  let d ← applyIf a.mode.ucase bucase a d
  let d ← applyIf a.mode.swab bswab a d
  let d ← applyIf a.mode.ebcdic (trans convtab_ebcdic) a d
  applyIf a.mode.ibm (trans convtab_ibm) a d

/-- What is written for a block of `s` bytes. -/
def writeOut (a : Args) (s : ℕ) (obuf : List UInt8) : Except Stop (List UInt8) :=
  if a.mode.unblock then return (← cstring obuf) ++ [10]
  else fwrite obuf (if !a.mode.osync && s < a.ibs then s else a.obs)

/-- One turn of the loop of `process`. -/
def turn (a : Args) (d : State) : Except Stop State := do
  if d.input.eof then throw (.done d)
  let (s, d) ← readIn ready a d
  if s = 0 then return d
  if d.input.error && !a.mode.noerror then throw (.exit 1)
  let d := if s < a.ibs then { d with igotp := d.igotp + 1 } else { d with igotf := d.igotf + 1 }
  let d ← convert a d
  let d ← blkcpy a d
  let bytes ← writeOut a s d.obuf
  let d := { d with written := d.written ++ bytes }
  let d := if bytes.length < a.obs then { d with ogotp := d.ogotp + 1 }
    else { d with ogotf := d.ogotf + 1 }
  if a.bcount = 0 then return d
  if d.counter = 1 then throw (.done d)
  return { d with counter := d.counter - 1 }

/-- `process`, for `fuel` turns. -/
def process (a : Args) : ℕ → State → Option Stop
  | 0, _ => none
  | fuel + 1, d =>
    match turn ready a d with
    | .error stop => some stop
    | .ok d => process a fuel d

/-- The files when they have been opened, and the buffers that `main` has allocated, with
whatever is in them. -/
def start (a : Args) (bytes ibuf obuf : List UInt8) (failAt : Option ℕ) : State :=
  ⟨⟨⟨bytes, 0⟩, failAt, false, false⟩, ibuf, obuf, [], a.bcount, 0, 0, 0, 0, 0⟩

end Unitas.Dd
