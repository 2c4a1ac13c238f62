import Unitas.Unpack.Expand

/-! The dictionary of a packed file and its decoder. -/
namespace Unitas.Unpack

/-- ascii US and RS. -/
def US : UInt8 := 31
def RS : UInt8 := 30

variable (BUFSIZ : ℕ)

/-- Outcome of decoding some bits: finished, or in the middle of a code at level `lev` with
its bits so far in `i`. -/
inductive Progress
  | done (r : Result) (s : State)
  | more (lev i : ℕ) (s : State)

/-- The `END` code: write out the rest and compare with the size in the header. -/
def finish (s : State) : Result × State :=
  let c := s.outbuff.length
  match s.write with
  | none => (.failure .writeError, s)
  | some s =>
    let s := { s with origsize := s.origsize - c }
    if s.origsize ≠ 0 then (.failure .unpackingError, s) else (.success, s)

/-- `*outp++ = *p`, writing the buffer out when it is full. -/
def emit (c : UInt8) (s : State) : Option State :=
  let s := { s with outbuff := s.outbuff ++ [c] }
  if s.outbuff.length = BUFSIZ then
    s.write.map fun s => { s with origsize := s.origsize - BUFSIZ }
  else some s

def decodeBit (bit lev i : ℕ) (s : State) : Progress :=
  let i := 2 * i + bit
  if 24 < lev then .done .undefined s
  else if i < s.intnodes lev then .more (lev + 1) i s
  else
    match s.tree lev with
    | none => .done .undefined s
    | some t =>
      let p := t + (i - s.intnodes lev)
      if p = s.eof then .done (finish s).1 (finish s).2
      else if 256 ≤ p then .done .undefined s
      else
        match emit BUFSIZ (s.characters p) s with
        | none => .done (.failure .writeError) s
        | some s => .more 1 0 s

/-- `bitsleft` more bits of the byte shifted into `c`. -/
def decodeBits : ℕ → ℕ → ℕ → ℕ → State → Progress
  | 0, _, lev, i, s => .more lev i s
  | bitsleft + 1, c, lev, i, s =>
    match decodeBit BUFSIZ (c / 128 % 2) lev i s with
    | .done r s => .done r s
    | .more lev i s => decodeBits bitsleft (2 * c) lev i s

def decodeBytes : ℕ → ℕ → ℕ → State → Result × State
  | 0, _, _, s => (.outOfFuel, s)
  | fuel + 1, lev, i, s =>
    let s := s.refill BUFSIZ
    if s.inleft < 0 then (.failure .readError, s)
    else
      let s := { s with inleft := s.inleft - 1 }
      if s.inleft < 0 then (.failure .unpackingError, s)
      else
        let (c, s) := s.next
        match decodeBits BUFSIZ 8 c.toNat lev i s with
        | .done r s => (r, s)
        | .more lev i s => decodeBytes fuel lev i s

/-- Every round of the loop uses up a byte or ends. -/
def decode (s : State) : Result × State :=
  decodeBytes BUFSIZ (s.inleft.toNat + s.infile.length + 1) 1 0 { s with outbuff := [] }

/-- `intnodes[i] = *inp++ & 0377` for the levels up to `n`. -/
def readCounts : ℕ → State → State
  | 0, s => s
  | n + 1, s =>
    let (c, s) := (readCounts n s).next
    { s with intnodes := Function.update s.intnodes (n + 1) c.toNat }

/-- `*eof++ = *inp++`. -/
def readChar (s : State) : State :=
  let (c, s) := s.next
  { s with characters := Function.update s.characters s.eof c, eof := s.eof + 1 }

/-- The leaves of one level; `false` is the `goto goof`. -/
def readChars : ℕ → State → Bool × State
  | 0, s => (true, s)
  | c + 1, s => if 255 ≤ s.eof then (false, s) else readChars c (readChar s)

/-- The leaves of the levels up to `n`. -/
def readLeaves : ℕ → State → Bool × State
  | 0, s => (true, s)
  | n + 1, s =>
    match readLeaves n s with
    | (false, s) => (false, s)
    | (true, s) =>
      readChars (s.intnodes (n + 1)) { s with tree := Function.update s.tree (n + 1) (some s.eof) }

/-- Conversion of `intnodes` from leaves to internal nodes, from level `i` up. -/
def innerNodes : ℕ → ℕ → (ℕ → ℕ) → ℕ → ℕ
  | 0, _, intnodes => intnodes
  | i + 1, nchildren, intnodes =>
    innerNodes i (nchildren / 2 + intnodes (i + 1))
      (Function.update intnodes (i + 1) (nchildren / 2))

/-- The part of `getdict` for the present format, after its two-byte header. -/
def readDict (s : State) : Result × State :=
  let byte (i : ℕ) : ℤ := (s.inbuff i).toNat
  let s := { s with origsize := ((byte 2 * 256 + byte 3) * 256 + byte 4) * 256 + byte 5 }
  let s := { s with maxlev := (s.inbuff 6).toNat, inp := 7 }
  if 24 < s.maxlev then (.failure .notPackedFormat, s)
  else
    match readLeaves s.maxlev (readCounts s.maxlev s) with
    | (false, s) => (.failure .notPackedFormat, s)
    | (true, s) =>
      let s := readChar s
      let s := { s with
        intnodes := Function.update s.intnodes s.maxlev (s.intnodes s.maxlev + 2)
        inleft := s.inleft - s.inp }
      if s.inleft < 0 then (.failure .notPackedFormat, s)
      else decode BUFSIZ { s with intnodes := innerNodes s.maxlev 0 s.intnodes }

def getdict (s : State) : Result × State :=
  let s := { s with eof := 0, inbuff := Function.update s.inbuff 6 25 }
  let s := s.read BUFSIZ
  if s.inleft < 0 then (.failure .readError, s)
  else if s.inbuff 0 ≠ US then (.failure .notPackedFormat, s)
  else if s.inbuff 1 = US then
    match expand BUFSIZ s with
    | .ok _ s => (.success, s)
    | .error r s => (r, s)
  else if s.inbuff 1 ≠ RS then (.failure .notPackedFormat, s)
  else readDict BUFSIZ s

end Unitas.Unpack
