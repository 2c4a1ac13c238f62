import Unitas.Pack.Globals

/-! `packfile` from the code lengths on, with `output`. A `long` has 64 bits and its lowest
byte first, as `maskshuff` has it for `_LITTLE_ENDIAN`. -/
namespace Unitas.Pack
open Function

/-- Steps from a node up to the root, of which there are fewer than nodes. -/
def depth (parent : ℕ → ℕ) : ℕ → ℕ → ℕ
  | 0, _ => 0
  | fuel + 1, i => if parent i = 0 then 0 else depth parent fuel (parent i) + 1

/-- Length of the code of character `i`, with `bitsout` in the second component. -/
def assignLength (s : Globals × ℕ) (i : ℕ) : Globals × ℕ :=
  let c := depth s.1.parent (2 * END) i
  ({ s.1 with
      levcount := update s.1.levcount c (s.1.levcount c + 1)
      length := update s.1.length i c
      maxlev := if s.1.maxlev < c then c else s.1.maxlev },
    s.2 + c * (s.1.count i / 2))

def assignLengths (g : Globals) : Globals × ℕ :=
  (List.range (END + 1)).foldl assignLength
    ({ g with maxlev := 0, levcount := fun i => if 1 ≤ i ∧ i ≤ 24 then 0 else g.levcount i }, 0)

/-- `bits[c] = mask; mask += inc` for a character on level `i`. -/
def assignBit (i inc : ℕ) (s : ℕ × Globals) (c : ℕ) : ℕ × Globals :=
  if s.2.length c = i then (s.1 + inc, { s.2 with bits := update s.2.bits c s.1 }) else s

/-- The bit patterns of the levels from `i` up, with the mask they start from. -/
def assignBits : ℕ → ℕ → ℕ → Globals → Globals
  | 0, _, _, g => g
  | i + 1, inc, mask, g =>
    let (mask, g) := (List.range (END + 1)).foldl (assignBit (i + 1) inc) (mask, g)
    assignBits i (2 * inc) (mask.ldiff inc) g

inductive Outcome
  | packed
  | trivialFile
  | tooManyLevels
  | noSaving
  | readError
  | writeError
  | outOfFuel
  deriving DecidableEq, Repr

/-- The file to be packed. Reading on after its last byte may fail, while the characters are
counted or while they are encoded, and so may every `write`. -/
structure File where
  bytes : List UInt8
  inputErr : Bool
  outputErr : Bool
  writeErr : Bool

/-- Characters in the order of the dictionary. -/
def dictionary (g : Globals) : List UInt8 :=
  (List.range' 1 g.maxlev).flatMap fun i =>
    ((List.range END).filter fun c => g.length c = i).map UInt8.ofNat

/-- What `output` puts into `outbuff` before the text. -/
def header (g : Globals) : List UInt8 :=
  ([31, 30] : List UInt8) ++ [24, 16, 8, 0].map (fun k => UInt8.ofNat (g.insize >>> k)) ++
    [UInt8.ofNat g.maxlev] ++
    (List.range' 1 (g.maxlev - 1)).map (fun i => UInt8.ofNat (g.levcount i)) ++
    [UInt8.ofNat (g.levcount g.maxlev) - 2] ++ dictionary g

/-- The packed file while it is written. `bitsleft` bits of the byte at `outp` are free. -/
structure Coder where
  outbuff : ℕ → UInt8
  outp : ℕ
  bitsleft : ℤ
  written : List UInt8

/-- `while (bitsleft < 0) { *++outp = **q++; bitsleft += 8; }` -/
def spill : List UInt8 → Coder → Coder
  | [], s => s
  | b :: q, s =>
    if s.bitsleft < 0 then
      spill q { s with
        outbuff := update s.outbuff (s.outp + 1) b
        outp := s.outp + 1
        bitsleft := s.bitsleft + 8 }
    else s

variable (BUFSIZ : ℕ)

/-- Write out a full buffer. The one assignment to a `long` moves eight bytes. -/
def flush (writeErr : Bool) (s : Coder) : Option Coder :=
  if BUFSIZ ≤ s.outp then
    if writeErr then none
    else some { s with
      written := s.written ++ (List.range BUFSIZ).map s.outbuff
      outbuff := fun i => if i < 8 then s.outbuff (BUFSIZ + i) else s.outbuff i
      outp := s.outp - BUFSIZ }
  else some s

/-- Append the code of `c`. -/
def encode (writeErr : Bool) (g : Globals) (c : ℕ) (s : Coder) : Option Coder :=
  let mask := g.bits c <<< s.bitsleft.toNat
  let q k := UInt8.ofNat (mask >>> k)
  let first := if s.bitsleft = 8 then q 24 else s.outbuff s.outp ||| q 24
  let s := { s with
    outbuff := update s.outbuff s.outp first
    bitsleft := s.bitsleft - g.length c }
  flush BUFSIZ writeErr (spill [q 16, q 8, q 0] s)

/-- The text and `END`, with what is unread of `inbuff` and of the file. -/
def encodeAll (f : File) (g : Globals) :
    ℕ → List UInt8 → List UInt8 → Coder → Outcome × Coder
  | 0, _, _, s => (.outOfFuel, s)
  | fuel + 1, inbuff, infile, s =>
    if inbuff = [] ∧ infile = [] ∧ f.outputErr then (.readError, s)
    else
      let rest := if inbuff = [] then infile.drop BUFSIZ else infile
      match if inbuff = [] then infile.take BUFSIZ else inbuff with
      | [] =>
        match encode BUFSIZ f.writeErr g END s with
        | none => (.writeError, s)
        | some s => (.packed, s)
      | c :: inbuff =>
        match encode BUFSIZ f.writeErr g c.toNat s with
        | none => (.writeError, s)
        | some s => encodeAll f g fuel inbuff rest s

/-- The packed file is the third component. -/
def output (f : File) (g : Globals) : Outcome × Globals × List UInt8 :=
  let head := header g
  let start := ⟨fun i => head.getD i (g.outbuff i), head.length, 8, []⟩
  match encodeAll BUFSIZ f g (f.bytes.length + 1) [] f.bytes start with
  | (.packed, s) =>
    let c := if s.bitsleft < 8 then s.outp + 1 else s.outp
    let g := { g with outbuff := s.outbuff }
    if f.writeErr then (.writeError, g, s.written)
    else (.packed, g, s.written ++ (List.range c).map s.outbuff)
  | (o, s) => (o, { g with outbuff := s.outbuff }, s.written)

/-- `packfile` up to the call of `output`, which is reached when there is no outcome yet. -/
def prepare (force : Bool) (f : File) (g : Globals) : Option Outcome × Globals :=
  let g := input f.bytes g
  if f.inputErr then (some .readError, g)
  else
    let g := enterAll g
    if g.diffbytes = 1 then (some .trivialFile, g)
    else
      let g := { g with insize := g.insize / 2 }
      let (g, bitsout) := assignLengths (buildTree g)
      if 24 < g.maxlev then (some .tooManyLevels, g)
      else
        let outsize := ((bitsout + 7) / 8 : ℕ) + 6 + g.maxlev + g.diffbytes
        if ((g.insize + BUFSIZ - 1 : ℕ) / BUFSIZ : ℤ) ≤ (outsize + BUFSIZ - 1) / BUFSIZ ∧ !force then
          (some .noSaving, g)
        else
          (none, assignBits g.maxlev (2 ^ 24 >>> g.maxlev) 0 g)

def packfile (force : Bool) (f : File) (g : Globals) : Outcome × Globals × List UInt8 :=
  match prepare BUFSIZ force f g with
  | (some o, g) => (o, g, [])
  | (none, g) => output BUFSIZ f g

end Unitas.Pack
