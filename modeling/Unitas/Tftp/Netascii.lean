import Mathlib.Data.List.Induction
import Unitas.Tftp.Buffers

/-! The buffers of `tftpsubs.c` with conversion to and from netascii. What the reader is to send and
what the writer has got are streams, on which the buffers do what they do in octet mode. -/
namespace Unitas.Tftp.Netascii

/-- The static flags: in the middle of an expansion, and the previous character. -/
structure Flags where
  newline : Bool
  prevchar : ℤ

def Flags.init : Flags := ⟨false, -1⟩

/-- The file that is read: the flags and what is left of it. -/
structure Source where
  flags : Flags
  file : List UInt8

/-- The loop of `read_ahead`, for up to `n` characters. -/
def fill : ℕ → Source → List UInt8 × Source
  | 0, s => ([], s)
  | n + 1, ⟨flags, file⟩ =>
    if flags.newline then
      let c := if flags.prevchar = 10 then 10 else 0
      let (p, s) := fill n ⟨{ flags with newline := false }, file⟩
      (c :: p, s)
    else match file with
      | [] => ([], ⟨flags, []⟩)
      | c :: file =>
        if c = 10 ∨ c = 13 then
          let (p, s) := fill n ⟨⟨true, c.toNat⟩, file⟩
          (13 :: p, s)
        else
          let (p, s) := fill n ⟨flags, file⟩
          (c :: p, s)

def readAhead (b : Bufs) (s : Source) : Bufs × Source :=
  if (b.bfs b.nextone).counter ≠ bfFree then (b, s)
  else
    let (data, s) := fill segSize s
    ({ b.set b.nextone ⟨data.length, data⟩ with nextone := !b.nextone }, s)

def readit (b : Bufs) (s : Source) : Bufs × Source :=
  let b := { b.setCounter b.current bfFree with current := !b.current }
  if (b.bfs b.current).counter = bfFree then readAhead b s else (b, s)

/-- The file that is written: what is before the position and what is behind it. -/
structure Out where
  flags : Flags
  before : List UInt8
  after : List UInt8

def Out.putc (o : Out) (c : UInt8) : Out :=
  { o with before := o.before ++ [c], after := o.after.drop 1 }

/-- `fseek(file, -1, 1)`, which fails at the beginning of the file. -/
def Out.seekBack (o : Out) : Out :=
  match o.before.getLast? with
  | none => o
  | some c => { o with before := o.before.dropLast, after := c :: o.after }

/-- One character in the loop of `write_behind`. -/
def Out.char (o : Out) (c : UInt8) : Out :=
  let o :=
    if o.flags.prevchar = 13 then
      if c = 10 then o.seekBack.putc c else if c = 0 then o else o.putc c
    else o.putc c
  { o with flags := { o.flags with prevchar := c.toBitVec.toInt } }

def writeBehind (b : Bufs) (o : Out) : Bufs × Out :=
  let bf := b.bfs b.nextone
  if bf.counter < -1 then (b, o)
  else
    ({ b.setCounter b.nextone bfFree with nextone := !b.nextone },
      if bf.counter ≤ 0 then o else (bf.buf.take bf.counter.toNat).foldl Out.char o)

def writeit (b : Bufs) (ct : ℤ) (o : Out) : Bufs × Out :=
  let b := { b.setCounter b.current ct with current := !b.current }
  let (b, o) := if (b.bfs b.current).counter ≠ bfFree then writeBehind b o else (b, o)
  (b.setCounter b.current bfAlloc, o)

/-- The blocks that the loop of `sendfile` sends, each of them once. -/
def sendLoop : ℕ → Bufs → Source → List (List UInt8)
  | 0, _, _ => []
  | fuel + 1, b, s =>
    let (b, s) := readit b s
    let bf := b.bfs b.current
    let data := bf.buf.take bf.counter.toNat
    let (b, s) := readAhead b s
    if bf.counter = segSize then data :: sendLoop fuel b s else [data]

/-- The client reads ahead once before its first block, while its request is on the way. -/
def sendfile (client : Bool) (file : List UInt8) : List (List UInt8) :=
  let (b, s) :=
    if client then readAhead (rwInit true) ⟨.init, file⟩ else (rwInit true, ⟨.init, file⟩)
  sendLoop (file.length + 1) b s

/-- The loop of `recvfile` for the blocks that come. -/
def recvLoop : List (List UInt8) → Bufs → Out → Out
  | [], b, o => (writeBehind b o).2
  | data :: blocks, b, o =>
    let (b, o) := writeBehind b o
    let (b, o) := writeit (b.store data) data.length o
    if data.length = segSize then recvLoop blocks b o else (writeBehind b o).2

/-- What is in the file at the end. -/
def recvfile (blocks : List (List UInt8)) : List UInt8 :=
  let o := recvLoop blocks (rwInit false) ⟨.init, [], []⟩
  o.before ++ o.after

/-! ### The streams -/

/-- A line feed becomes a carriage return and a line feed, a carriage return one and a null
character. -/
def netascii (file : List UInt8) : List UInt8 :=
  file.flatMap fun c => if c = 10 ∨ c = 13 then [13, if c = 10 then 10 else 0] else [c]

/-- What is still to be sent. -/
def Source.stream (s : Source) : List UInt8 :=
  (if s.flags.newline then [if s.flags.prevchar = 10 then 10 else 0] else []) ++ netascii s.file

theorem fill_eq (n : ℕ) (s : Source) :
    (fill n s).1 = s.stream.take n ∧ (fill n s).2.stream = s.stream.drop n := by
  induction n generalizing s with
  | zero => exact ⟨rfl, rfl⟩
  | succ n ih =>
    obtain ⟨⟨newline, prevchar⟩, file⟩ := s
    cases newline with
    | true =>
      obtain ⟨h1, h2⟩ := ih ⟨⟨false, prevchar⟩, file⟩
      exact ⟨congrArg (_ :: ·) h1, h2⟩
    | false =>
      cases file with
      | nil => exact ⟨rfl, rfl⟩
      | cons c file =>
        unfold fill
        rw [if_neg Bool.false_ne_true]
        by_cases hc : c = 10 ∨ c = 13
        · obtain ⟨h1, h2⟩ := ih ⟨⟨true, c.toNat⟩, file⟩
          have hstream : Source.stream ⟨⟨false, prevchar⟩, c :: file⟩ =
              13 :: Source.stream ⟨⟨true, c.toNat⟩, file⟩ := by
            rcases hc with rfl | rfl <;> rfl
          dsimp only
          rw [if_pos hc, hstream]
          exact ⟨congrArg (_ :: ·) h1, h2⟩
        · obtain ⟨h1, h2⟩ := ih ⟨⟨false, prevchar⟩, file⟩
          have hstream : Source.stream ⟨⟨false, prevchar⟩, c :: file⟩ =
              c :: Source.stream ⟨⟨false, prevchar⟩, file⟩ := by
            simp [Source.stream, netascii, hc]
          dsimp only
          rw [if_neg hc, hstream]
          exact ⟨congrArg (_ :: ·) h1, h2⟩

/-- The buffers read the stream as they would in octet mode. -/
theorem readAhead_eq (b : Bufs) (s : Source) :
    Tftp.readAhead b s.stream = ((readAhead b s).1, (readAhead b s).2.stream) := by
  obtain ⟨h1, h2⟩ := fill_eq segSize s
  unfold Tftp.readAhead readAhead
  split_ifs
  · rfl
  · dsimp only
    rw [h1, h2]

theorem readit_eq (b : Bufs) (s : Source) :
    Tftp.readit b s.stream = ((readit b s).1, (readit b s).2.stream) := by
  unfold Tftp.readit readit
  dsimp only
  split_ifs
  · exact readAhead_eq _ s
  · rfl

/-! ### The sender -/

/-- The blocks of a stream: all are full but the last. -/
structure Blocks (stream : List UInt8) (blocks : List (List UInt8)) : Prop where
  flatten : blocks.flatten = stream
  cut : ∃ full last, blocks = full ++ [last] ∧ (∀ data ∈ full, data.length = segSize) ∧
    last.length < segSize

/-- The next block is the first of the stream, and the one after it will be read ahead. -/
def Ready (b : Bufs) (stream : List UInt8) (s : Source) : Prop :=
  ∃ b' b'' rest, Tftp.readit b s.stream = (b', rest) ∧
    b'.bfs b'.current = ⟨(stream.take segSize).length, stream.take segSize⟩ ∧
    Tftp.readAhead b' rest = (b'', (stream.drop segSize).drop segSize) ∧
    b''.Ahead ((stream.drop segSize).take segSize)

theorem ready_of_ahead {b : Bufs} {stream : List UInt8} (h : b.Ahead (stream.take segSize))
    {s : Source} (hs : s.stream = stream.drop segSize) : Ready b stream s := by
  obtain ⟨b', b'', hread, hdata, hahead, -, hb''⟩ := h.readit (stream.drop segSize)
  rw [← hs] at hread
  exact ⟨b', b'', _, hread, hdata, by rw [hs, hahead], hb''⟩

/-- The server has nothing read ahead for its first block. -/
theorem ready_server (s : Source) : Ready (rwInit true) s.stream s := by
  have hfree : ((rwInit true).setCounter false bfFree).bfs true = ⟨bfFree, []⟩ := rfl
  have hread := readAhead_of_free
    (b := { (rwInit true).setCounter false bfFree with current := true }) rfl s.stream
  obtain ⟨b'', hahead, -, hb''⟩ := ahead_readAhead
    (b := { Bufs.set { (rwInit true).setCounter false bfFree with current := true } true
      ⟨(s.stream.take segSize).length, s.stream.take segSize⟩ with nextone := false })
    rfl (length_ne_bfFree _) rfl (s.stream.drop segSize)
  exact ⟨_, b'', _, hread, rfl, hahead, hb''⟩

/-- A turn of the loop. -/
theorem sendLoop_succ {b b' b'' : Bufs} {s : Source} {data rest next : List UInt8}
    (hread : Tftp.readit b s.stream = (b', rest)) (hdata : b'.bfs b'.current = ⟨data.length, data⟩)
    (hahead : Tftp.readAhead b' rest = (b'', next)) (fuel : ℕ) :
    ∃ s', s'.stream = next ∧ sendLoop (fuel + 1) b s =
      if data.length = segSize then data :: sendLoop fuel b'' s' else [data] := by
  obtain ⟨hb', hrest⟩ := Prod.mk.inj ((readit_eq b s).symm.trans hread)
  rw [← hrest, readAhead_eq] at hahead
  obtain ⟨hb'', hnext⟩ := Prod.mk.inj hahead
  refine ⟨(readAhead b' (readit b s).2).2, hnext, ?_⟩
  rw [sendLoop]
  dsimp only
  rw [hb', hb'', hdata, Int.toNat_natCast, List.take_length]
  simp only [Int.natCast_inj]

theorem sendLoop_blocks (fuel : ℕ) {b : Bufs} {stream : List UInt8} {s : Source}
    (h : Ready b stream s) (hfuel : stream.length / segSize < fuel) :
    Blocks stream (sendLoop fuel b s) := by
  induction fuel generalizing b stream s with
  | zero => exact absurd hfuel (Nat.not_lt_zero _)
  | succ fuel ih =>
    obtain ⟨b', b'', rest, hread, hdata, hahead, hb''⟩ := h
    obtain ⟨s', hs', hsend⟩ := sendLoop_succ hread hdata hahead fuel
    rw [hsend]
    by_cases hfull : (stream.take segSize).length = segSize
    · rw [if_pos hfull]
      have hlen : segSize ≤ stream.length := by
        rw [List.length_take] at hfull
        omega
      have hdiv : (stream.drop segSize).length / segSize < fuel := by
        rw [List.length_drop]
        unfold segSize at hfuel hlen ⊢
        omega
      obtain ⟨hflatten, full, last, hcut, hall, hlast⟩ := ih (ready_of_ahead hb'' hs') hdiv
      refine ⟨?_, stream.take segSize :: full, last, ?_, ?_, hlast⟩
      · rw [List.flatten_cons, hflatten, List.take_append_drop]
      · rw [hcut]
        rfl
      · exact List.forall_mem_cons.mpr ⟨hfull, hall⟩
    · rw [if_neg hfull]
      rw [List.length_take] at hfull
      have hlen : stream.length < segSize := by omega
      rw [List.take_of_length_le (Nat.le_of_lt hlen)]
      exact ⟨by simp, [], stream, rfl, by simp, hlen⟩

theorem length_netascii (file : List UInt8) : (netascii file).length ≤ 2 * file.length := by
  induction file with
  | nil => exact le_refl _
  | cons c file ih =>
    unfold netascii at ih ⊢
    rw [List.flatMap_cons, List.length_append, List.length_cons]
    split_ifs <;> simp only [List.length_cons, List.length_nil] <;> omega

/-- What is sent is the file in netascii. -/
theorem sendfile_blocks (client : Bool) (file : List UInt8) :
    Blocks (netascii file) (sendfile client file) := by
  have hfuel : (netascii file).length / segSize < file.length + 1 := by
    have hle := length_netascii file
    unfold segSize
    omega
  have hstream : Source.stream ⟨.init, file⟩ = netascii file := rfl
  unfold sendfile
  cases client with
  | false => exact sendLoop_blocks _ (ready_server ⟨.init, file⟩) hfuel
  | true =>
    obtain ⟨b', hahead, -, hb'⟩ := ahead_readAhead (b := rwInit true) rfl (by decide) rfl
      (Source.stream ⟨.init, file⟩)
    rw [readAhead_eq] at hahead
    obtain ⟨hb, hs⟩ := Prod.mk.inj hahead
    rw [← hb] at hb'
    exact sendLoop_blocks _ (ready_of_ahead hb' hs) hfuel

/-! ### The receiver -/

/-- The file that is written after a stream has come. -/
def decode (stream : List UInt8) : Out := stream.foldl Out.char ⟨.init, [], []⟩

theorem writeBehind_eq (b : Bufs) (stream : List UInt8) :
    writeBehind b (decode stream) =
      ((Tftp.writeBehind b stream).1, decode (Tftp.writeBehind b stream).2) := by
  unfold Tftp.writeBehind writeBehind
  dsimp only
  split_ifs
  · rfl
  · rfl
  · rw [decode, decode, List.foldl_append]

theorem writeit_eq (b : Bufs) (ct : ℤ) (stream : List UInt8) :
    writeit b ct (decode stream) =
      ((Tftp.writeit b ct stream).1, decode (Tftp.writeit b ct stream).2) := by
  unfold Tftp.writeit writeit
  dsimp only
  split_ifs
  · rw [writeBehind_eq]
  · rfl

/-- A block that has been received is written behind the others in the next turn. -/
theorem recvLoop_eq (full : List (List UInt8)) (last : List UInt8)
    (hfull : ∀ data ∈ full, data.length = segSize) (hlast : last.length < segSize) {b b' : Bufs}
    {stream stream' : List UInt8} (hwrite : Tftp.writeBehind b stream = (b', stream'))
    (hb' : b'.Behind) :
    recvLoop (full ++ [last]) b (decode stream) = decode (stream' ++ full.flatten ++ last) := by
  induction full generalizing b b' stream stream' with
  | nil =>
    obtain ⟨b₁, b₂, hit, hbehind, hb₂⟩ := hb'.writeit last stream'
    rw [List.nil_append, recvLoop, writeBehind_eq, hwrite]
    dsimp only
    rw [writeit_eq, hit]
    dsimp only
    rw [if_neg (Nat.ne_of_lt hlast), writeBehind_eq, hbehind]
    simp
  | cons data full ih =>
    obtain ⟨hdata, hfull⟩ := List.forall_mem_cons.mp hfull
    obtain ⟨b₁, b₂, hit, hbehind, hb₂⟩ := hb'.writeit data stream'
    rw [List.cons_append, recvLoop, writeBehind_eq, hwrite]
    dsimp only
    rw [writeit_eq, hit]
    dsimp only
    rw [if_pos hdata, ih hfull hbehind hb₂]
    simp

/-- Between two characters of the file there is nothing behind the position. -/
structure Out.Clean (o : Out) (file : List UInt8) : Prop where
  before : o.before = file
  after : o.after = []
  prevchar : o.flags.prevchar ≠ 13

theorem toInt_eq (c : UInt8) : c.toBitVec.toInt = 13 ↔ c = 13 := by
  rw [← UInt8.toBitVec_inj, ← BitVec.toInt_inj]
  rfl

theorem Out.Clean.char {o : Out} {file : List UInt8} (h : o.Clean file) (c : UInt8) :
    ((netascii [c]).foldl Out.char o).Clean (file ++ [c]) := by
  obtain ⟨flags, before, after⟩ := o
  obtain ⟨rfl, hafter, hprev⟩ := h
  dsimp only at hafter hprev
  subst hafter
  have hput (d : UInt8) : Out.char ⟨flags, before, []⟩ d =
      ⟨⟨flags.newline, d.toBitVec.toInt⟩, before ++ [d], []⟩ := by
    unfold Out.char
    rw [if_neg hprev]
    rfl
  by_cases h10 : c = 10
  · subst h10
    show (Out.char (Out.char ⟨flags, before, []⟩ 13) 10).Clean _
    rw [hput]
    have hseek : Out.seekBack ⟨⟨flags.newline, 13⟩, before ++ [13], []⟩ =
        ⟨⟨flags.newline, 13⟩, before, [13]⟩ := by
      unfold Out.seekBack
      simp
    have hchar : Out.char ⟨⟨flags.newline, 13⟩, before ++ [13], []⟩ 10 =
        ⟨⟨flags.newline, 10⟩, before ++ [10], []⟩ := by
      unfold Out.char
      dsimp only
      rw [if_pos rfl, if_pos rfl, hseek]
      rfl
    exact ⟨congrArg Out.before hchar, congrArg Out.after hchar, by
      rw [show (13 : UInt8).toBitVec.toInt = 13 from rfl, hchar]
      exact (by decide : (10 : ℤ) ≠ 13)⟩
  · by_cases h13 : c = 13
    · subst h13
      show (Out.char (Out.char ⟨flags, before, []⟩ 13) 0).Clean _
      rw [hput]
      exact ⟨rfl, rfl, (by decide : (0 : ℤ) ≠ 13)⟩
    · have hone : netascii [c] = [c] := by simp [netascii, h10, h13]
      rw [hone, List.foldl_cons, List.foldl_nil, hput]
      exact ⟨rfl, rfl, fun h => h13 ((toInt_eq c).mp h)⟩

theorem decode_netascii (file : List UInt8) : (decode (netascii file)).Clean file := by
  induction file using List.reverseRecOn with
  | nil => exact ⟨rfl, rfl, by decide⟩
  | append_singleton file c ih =>
    have happend : netascii (file ++ [c]) = netascii file ++ netascii [c] := by
      simp [netascii]
    rw [happend, decode, List.foldl_append]
    exact ih.char c

/-- The blocks that come from the file, all but the last of them full, make the same file. -/
theorem netascii_round_trip (client : Bool) (file : List UInt8) :
    (∃ full last, sendfile client file = full ++ [last] ∧
        (∀ data ∈ full, data.length = segSize) ∧ last.length < segSize) ∧
      recvfile (sendfile client file) = file := by
  obtain ⟨hflatten, full, last, hcut, hfull, hlast⟩ := sendfile_blocks client file
  refine ⟨⟨full, last, hcut, hfull, hlast⟩, ?_⟩
  have hrecv := recvLoop_eq full last hfull hlast (behind_rwInit.writeBehind []) behind_rwInit
  obtain ⟨hbefore, hafter, -⟩ := decode_netascii file
  have hstream : full.flatten ++ last = netascii file := by
    rw [← hflatten, hcut]
    simp
  rw [List.nil_append, hstream] at hrecv
  have hinit : decode [] = ⟨.init, [], []⟩ := rfl
  rw [hinit] at hrecv
  unfold recvfile
  rw [hcut, hrecv]
  dsimp only
  rw [hbefore, hafter, List.append_nil]

end Unitas.Tftp.Netascii
