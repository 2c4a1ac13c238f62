import Unitas.Bnu.Output
import Unitas.Bnu.Slots

/-! What one end reads: `pkgetpack` takes packets off the line, `pkaccept` checks them, and `pkread`
gives their bytes to the caller. And how `pkwrite` makes a packet of the bytes of its caller. -/
namespace Unitas.Bnu
open Function

def SYN : UInt8 := 16
def HDRSIZ : ℕ := 6
def GETRIES : ℕ := 10
def CONNODATA : ℕ := 20
def NTIMEOUT : ℕ := 50

/-! ### The bytes of a packet -/

/-- The header as `pkxstart` builds it. -/
def Frame.header (f : Frame) : List (BitVec 8) :=
  let k := BitVec.ofNat 8 f.ksize
  let x := f.sum.setWidth 8
  let y := (f.sum >>> 8).setWidth 8
  [SYN.toBitVec, k, x, y, f.cntl, k ^^^ x ^^^ y ^^^ f.cntl]

def Frame.bytes (f : Frame) : List UInt8 := f.header.map UInt8.ofBitVec ++ f.body

/-- What `pkwrite` puts into a buffer of `xsize` bytes: a short packet begins with the number of
bytes that it is short of, in one byte or two, and ends with what has been in the buffer. -/
def pkfill (xsize : ℕ) (ibuf : List UInt8) (junk : ℕ → UInt8) : List UInt8 :=
  if ibuf.length < xsize then
    let fc := xsize - ibuf.length
    let pad := if 127 < fc then [UInt8.ofNat (fc % 128) ||| 128, UInt8.ofNat (fc / 128)]
      else [UInt8.ofNat (fc % 128)]
    (pad ++ ibuf ++ (List.range xsize).map junk).take xsize
  else ibuf.take xsize

/-- One turn of the loop of `pkwrite`, when there is room for a packet. -/
def pkstore (ibuf : List UInt8) (junk : ℕ → UInt8) (pk : Pack) : Pack :=
  let x := pk.pscopy + 1
  let ob := pkfill pk.xsize ibuf junk
  { pk with
    pscopy := x
    xcount := pk.xcount + 1
    ob := update pk.ob x ob
    osum := update pk.osum x (chksum ob)
    os := update pk.os x (if ibuf.length < pk.xsize then B_READY + B_SHORT else B_READY) }

/-! ### The line -/

/-- One end, and what comes in on its line. -/
structure Reader where
  pk : Pack
  ifn : List UInt8

/-- `pkcget`. The alarm goes off when nothing more comes. -/
def pkcget (n : ℕ) (r : Reader) : Option (List UInt8) × Reader :=
  if n ≤ r.ifn.length then (some (r.ifn.take n), { r with ifn := r.ifn.drop n })
  else (none, ⟨{ r.pk with ntimeout := r.pk.ntimeout + 1 }, []⟩)

/-- The loop that looks for `SYN`. -/
def findHeader : ℕ → ℕ → Reader → Option (List UInt8) × Reader
  | 0, _, r => (none, r)
  | fuel + 1, noise, r =>
    match pkcget HDRSIZ r with
    | (none, r) => (none, r)
    | (some h, r) =>
      if h.head? = some SYN then (some h, r)
      else if SYN ∈ h then
        let pp := h.dropWhile (· ≠ SYN)
        match pkcget (HDRSIZ - pp.length) r with
        | (none, r) => (none, r)
        | (some rest, r) => (some (pp ++ rest), r)
      else if 3 * r.pk.rsize < noise + HDRSIZ then (none, r)
      else findHeader fuel (noise + HDRSIZ) r

/-- `pkdata`: the packet goes into an empty slot. -/
def pkdata (c : BitVec 8) (sum : BitVec 16) (bp : Buffer) (pk : Pack) : Pack :=
  if pk.draino ∨ ¬ pk.live then
    let pk := pkoutput { pk with msg := pk.msg.or pk.rmsg }
    { pk with ipool := bp.id :: pk.ipool }
  else
    match (Slots.places pk.pr).find? fun x => pk.is x = 0 with
    | none => { pk with ipool := bp.id :: pk.ipool }
    | some x =>
      { pk with
        imap := update pk.imap x true
        is := update pk.is x c
        isum := update pk.isum x sum.toInt
        ib := update pk.ib x bp }

/-- `pk->p_rpr = h->cntl & MOD8` and after: a data packet of the right size. -/
def getData (c : BitVec 8) (sum : BitVec 16) (r : Reader) : Bool × Reader :=
  let pk := pksack { r.pk with rpr := valOf c }
  match pk.ipool with
  | [] => (true, { r with pk })
  | bp :: ipool =>
    match pkcget pk.rsize { r with pk := { pk with ipool } } with
    | (some bytes, r) => (true, { r with pk := { pkdata c sum ⟨bp, bytes⟩ r.pk with ntimeout := 0 } })
    | (none, r) => (false, r)

/-- A header has been read. The reader is done with it if `true` comes back. -/
def getHeader (h : List UInt8) (r : Reader) : Bool × Reader :=
  let p (i : ℕ) : BitVec 8 := (h.getD i 0).toBitVec
  let r := { r with pk := { r.pk with connodata := r.pk.connodata + 1 } }
  let sum := (p 2).setWidth 16 ||| (p 3).signExtend 16 <<< 8
  let k := (p 1).toNat
  if p 1 ^^^ p 2 ^^^ p 3 ^^^ p 4 ≠ p 5 then (true, r)
  else if k = 9 then
    (true, if sum + (p 4).signExtend 16 = CHECK then { r with pk := pkcntl (p 4) r.pk } else r)
  else if k ≠ 0 ∧ pksizes.getD k 0 ≠ r.pk.rsize then (true, r)
  else getData (p 4) sum r

/-- `retransmit:` -/
def retransmit (pk : Pack) : Pack :=
  let msg := pk.msg.or pk.rmsg
  pkoutput { pk with
    msg := if msg = .none then { msg with rr := true } else msg
    rxmit := pk.rxmit || pk.live }

/-- The tries of `pkgetpack`, which fails after the last. -/
def getTries : ℕ → Reader → Option Reader
  | 0, _ => none
  | tries + 1, r =>
    match findHeader (r.ifn.length + 1) 0 r with
    | (none, r) => getTries tries { r with pk := retransmit r.pk }
    | (some h, r) =>
      match getHeader h r with
      | (true, r) => some r
      | (false, r) => getTries tries { r with pk := retransmit r.pk }

def pkgetpack (r : Reader) : Option Reader :=
  if r.pk.down ∨ CONNODATA < r.pk.connodata ∨ NTIMEOUT < r.pk.ntimeout then none
  else getTries GETRIES r

/-! ### Accepting -/

/-- By how much a short packet is short, and after how many bytes its data begin. -/
def padCount (p : List UInt8) : ℤ × ℕ :=
  let cc := p.getD 0 0
  if cc &&& 128 ≠ 0 then ((cc &&& 127).toNat + 128 * (p.getD 1 0).toBitVec.toInt, 2)
  else (cc.toNat, 1)

/-- The packet of `x` goes to the slot of its number, and is marked. -/
def Pack.mark (cntl : BitVec 8) (x seq : Fin 8) (pk : Pack) : Pack :=
  let pk :=
    if x ≠ seq then
      { pk with
        ib := update (update pk.ib x (pk.ib seq)) seq (pk.ib x)
        is := update pk.is x (pk.is seq) }
    else pk
  if cntl &&& B_SHORT ≠ 0 then
    { pk with
      is := update pk.is seq (B_MARK + B_SHORT)
      isum := update pk.isum seq (pk.rsize - (padCount (pk.ib seq).bytes).1) }
  else
    { pk with
      is := update pk.is seq B_MARK
      isum := update pk.isum seq pk.rsize }

/-- `bad` and `skip` of `pkaccept`. -/
structure Accept where
  pk : Pack
  bad : Bool
  skip : Bool

/-- The first loop of `pkaccept`, for one slot. `m` is the window. -/
def examine (m imask : Fin 8 → Bool) (a : Accept) (x : Fin 8) : Accept :=
  if ¬ imask x then a
  else
    let cntl := a.pk.is x
    if cntl &&& DATA = 0 then { a with pk := a.pk.release x, bad := true }
    else
      let pk := { a.pk with is := update a.pk.is x (~~~(B_COPY + B_MARK)) }
      let sum := (chksum ((pk.ib x).bytes.take pk.rsize) ^^^ cntl.setWidth 16) +
        BitVec.ofInt 16 (pk.isum x)
      if sum ≠ CHECK then { a with pk := pk.release x, bad := true }
      else
        let seq := seqOf cntl
        if ¬ m seq ∨ pk.is seq &&& (B_COPY ||| B_MARK) ≠ 0 then
          { a with pk := { pk.release x with msg := { pk.msg with rr := true } }, skip := true }
        else { a with pk := pk.mark cntl x seq }

/-- The second loop: `gap` is `t >= 0`. -/
def scan (m : Fin 8 → Bool) : ℕ → Fin 8 → Bool → ℕ → Accept → Accept
  | 0, _, _, accept, a => { a with pk := { a.pk with rcount := accept } }
  | n + 1, x, gap, accept, a =>
    if ¬ m x then { a with pk := { a.pk with rcount := accept } }
    else
      let pk :=
        if a.pk.is x &&& B_MARK ≠ 0 then
          { a.pk with is := update a.pk.is x (a.pk.is x ||| B_COPY) }
        else a.pk
      if pk.is x &&& B_COPY ≠ 0 then
        if gap then scan m n (x + 1) gap accept { a with pk := pk.release x, skip := true }
        else scan m n (x + 1) gap (accept + 1) { a with pk }
      else scan m n (x + 1) true accept { a with pk }

/-- `pkaccept`, once there is something to accept. -/
def accept (pk : Pack) : Pack :=
  let m := Slots.window pk.rwindow pk.pr
  let a := (List.finRange 8).foldl (examine m pk.imap)
    ⟨{ pk with imap := fun _ => false }, false, false⟩
  let a := scan m 8 (pk.pr + 1) false 0 a
  { a.pk with msg := { a.pk.msg with rj := a.pk.msg.rj || a.bad, rr := a.pk.msg.rr || a.skip } }

/-- `while ((imask=pk->p_imap) == 0 && pk->p_rcount==0)` -/
def waitInput : ℕ → Reader → Option Reader
  | 0, _ => none
  | fuel + 1, r =>
    if (∀ x, r.pk.imap x = false) ∧ r.pk.rcount = 0 then (pkgetpack r).bind (waitInput fuel)
    else some r

/-- `while (pkaccept()==0)` -/
def waitAccept : ℕ → Reader → Option Reader
  | 0, _ => none
  | fuel + 1, r => do
    let r ← waitInput fuel r
    let r := { r with pk := accept r.pk }
    if r.pk.rcount = 0 then waitAccept fuel r else some r

/-! ### Reading -/

/-- Where the rest of a packet begins. -/
def Pack.cp (pk : Pack) (x : Fin 8) : ℕ :=
  if pk.is x &&& B_RESID ≠ 0 then pk.rptr
  else if pk.is x &&& B_SHORT ≠ 0 then (padCount (pk.ib x).bytes).2
  else 0

/-- `cc` bytes of the packet have been copied. -/
def Pack.copied (x : Fin 8) (cc : ℤ) (pk : Pack) : Pack :=
  let isum := pk.isum x - cc
  if isum = 0 then
    { pk.release x with
      isum := update pk.isum x isum
      pr := x
      rcount := pk.rcount - 1
      msg := { pk.msg with rr := true } }
  else
    { pk with
      isum := update pk.isum x isum
      rptr := pk.cp x + cc.toNat
      is := update pk.is x (pk.is x ||| B_RESID) }

/-- The loop of `pkread`. Every turn but the last frees a slot. It copies out of bounds if a packet
says that it is short of more than there is. -/
def copyLoop : ℕ → ℕ → Bool → Pack → Option (List UInt8 × Pack)
  | 0, _, _, _ => none
  | n + 1, icount, xfr, pk =>
    let x := pk.pr + 1
    let cc := min (pk.isum x) icount
    if icount = 0 ∨ pk.is x &&& B_COPY = 0 ∨ (cc = 0 ∧ xfr) then some ([], pk)
    else if cc < 0 then none
    else if cc = 0 then some ([], pk.copied x cc)
    else do
      let (rest, pk') ← copyLoop n (icount - cc.toNat) true (pk.copied x cc)
      some (((pk.ib x).bytes.drop (pk.cp x)).take cc.toNat ++ rest, pk')

def pkread (fuel icount : ℕ) (r : Reader) : Option (List UInt8 × Reader) := do
  let r ← waitAccept fuel r
  let (ibuf, pk) ← copyLoop 9 icount false { r.pk with connodata := 0 }
  some (ibuf, { r with pk := pkoutput pk })

end Unitas.Bnu
