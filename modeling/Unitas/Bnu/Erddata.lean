import Unitas.Bnu.Trddata

/-! The `e` protocol: messages up to a null byte and files after their length, on one stream of
bytes. -/
namespace Unitas.Bnu
open Unitas.ByteStream Unitas.Decimal

def NEWLINE : UInt8 := 10

/-- The text that `etwrmsg` sends, the type first. A newline ends it. -/
def message (type : UInt8) (str : List UInt8) : List UInt8 :=
  type :: str.takeWhile (· ≠ NEWLINE)

/-- `etwrmsg` without a length to fill. -/
def ewrmsg (type : UInt8) (str : List UInt8) (l : Link) : Option Link :=
  l.write (message type str ++ [0])

/-- The receiver: the stream, and the bytes in `Erdstash`. -/
structure Receiver where
  stream : Stream UInt8
  stash : List UInt8

variable (ready : ℕ → ℕ)

/-- `etrdmsg` up to a null byte, with room for `i` more bytes and `got` in `str` so far. It waits
for its alarm when nothing comes, and what follows the null byte must fit in `Erdstash`. -/
def etrdmsg : ℕ → ℕ → List UInt8 → Receiver → Option (List UInt8 × Receiver)
  | 0, _, _, _ => none
  | fuel + 1, i, got, r =>
    let (chunk, stream) := r.stream.read ready i
    if chunk = [] then none
    else if 0 ∈ chunk then
      let text := chunk.takeWhile (· ≠ 0)
      let stash := r.stash ++ chunk.drop (text.length + 1)
      if EBUFSIZ < stash.length then none else some (got ++ text, ⟨stream, stash⟩)
    else etrdmsg fuel (i - chunk.length) (got ++ chunk) ⟨stream, r.stash⟩

def erdmsg (r : Receiver) : Option (List UInt8 × Receiver) := etrdmsg ready EBUFSIZ EBUFSIZ [] r

/-- `isspace`. -/
def isSpace (c : UInt8) : Bool := c = 32 || 9 ≤ c && c ≤ 13

/-- An optional sign; whether it is a minus. -/
def scanSign : List UInt8 → Bool × List UInt8
  | [] => (false, [])
  | c :: bytes =>
    if c = 45 then (true, bytes) else if c = 43 then (false, bytes) else (false, c :: bytes)

/-- `sscanf` with `%ld`; without a number there is none. -/
def scanLong (bytes : List UInt8) : Option ℤ :=
  let (minus, bytes) := scanSign (bytes.dropWhile isSpace)
  match bytes.takeWhile isDigit with
  | [] => none
  | digits => some (if minus then -(decValue digits : ℤ) else decValue digits)

/-- The length that comes first, from the stash as far as that goes. -/
def readLength (r : Receiver) : Option (List UInt8 × Receiver) :=
  if EMESGLEN ≤ r.stash.length then
    some (r.stash.take EMESGLEN, ⟨r.stream, r.stash.drop EMESGLEN⟩)
  else
    let len := EMESGLEN - r.stash.length
    let (bytes, stream) := erdblk ready len r.stream
    if bytes.length ≠ len then none else some (r.stash ++ bytes, ⟨stream, []⟩)

/-- The loop of `erddata`, with `msglen` still to come. It never leaves the loop at the end of
the stream. -/
def erdBlocks (store : Bool) : ℕ → ℤ → List UInt8 → Stream UInt8 →
    Option (List UInt8 × Stream UInt8)
  | 0, _, _, _ => none
  | fuel + 1, msglen, file, s =>
    let (block, s) := erdblk ready (min msglen EBUFSIZ) s
    let msglen := msglen - block.length
    if msglen < 0 then none
    else
      let file := if store then file ++ block else file
      if msglen = 0 then some (file, s) else erdBlocks store fuel msglen file s

/-- `erddata`: whether the file is smaller than the limit, what is stored of it, and the receiver
afterwards. -/
def erddata (Ulimit : ℤ) (r : Receiver) : Option (Bool × List UInt8 × Receiver) := do
  let (cmsglen, r) ← readLength ready r
  let msglen ← scanLong cmsglen
  let store := decide ((msglen - 1).tdiv 512 + 1 ≤ Ulimit)
  let (file, stream) ← erdBlocks ready store (r.stream.rest.length + 1)
    (msglen - r.stash.length) r.stash r.stream
  return (store, file, ⟨stream, []⟩)

/-- What is sent: a message, or a file, for which what happens to be in `cmsglen` is given. -/
inductive Item
  | msg (type : UInt8) (str : List UInt8)
  | file (junk : ℕ → UInt8) (bytes : List UInt8)

def sendItem (l : Link) : Item → Option Link
  | .msg type str => ewrmsg type str l
  | .file junk bytes =>
    let sent := ewrdata junk (openFile bytes none) l
    if sent.success then some sent.link else none

def sendItems : List Item → Link → Option Link
  | [], l => some l
  | item :: items, l => (sendItem l item).bind (sendItems items)

/-- What has arrived: the text of a message, or the result and the contents of a file. -/
inductive Arrival
  | msg (text : List UInt8)
  | file (ok : Bool) (bytes : List UInt8)
  deriving DecidableEq, Repr

/-- The call that matches an item. -/
def receiveItem (Ulimit : ℤ) (r : Receiver) : Item → Option (Arrival × Receiver)
  | .msg _ _ => (erdmsg ready r).map fun (text, r) => (.msg text, r)
  | .file _ _ => (erddata ready Ulimit r).map fun (ok, bytes, r) => (.file ok bytes, r)

def receiveItems (Ulimit : ℤ) : List Item → Receiver → Option (List Arrival)
  | [], _ => some []
  | item :: items, r => do
    let (arrival, r) ← receiveItem ready Ulimit r item
    return arrival :: (← receiveItems Ulimit items r)

/-- What should arrive. -/
def Item.arrival : Item → Arrival
  | .msg type str => .msg (message type str)
  | .file _ bytes => .file true bytes

/-- What an item puts on the line. -/
def Item.wire : Item → List UInt8
  | .msg type str => message type str ++ [0]
  | .file junk bytes => cmsglen junk bytes.length ++ bytes

def wire (items : List Item) : List UInt8 := items.flatMap Item.wire

/-- The messages fit their buffers and hold no null byte; the files have a size and are within
the limit of the receiver. -/
def Item.Valid (Ulimit : ℤ) : Item → Prop
  | .msg type str => 0 ∉ message type str ∧ (message type str).length < EBUFSIZ
  | .file _ bytes => bytes.length < 2 ^ 63 ∧ ((bytes.length : ℤ) - 1).tdiv 512 + 1 ≤ Ulimit

/-- Where the `Read` ends that gets a message up to `target`, from `pos` on with room for `i`
bytes, when the stream ends at `last`. -/
def readEnd (last target : ℕ) : ℕ → ℕ → ℕ → ℕ
  | 0, _, pos => pos
  | fuel + 1, i, pos =>
    let next := min (pos + min i (ready pos + 1)) last
    if target ≤ next then next else readEnd last target fuel (i - (next - pos)) next

/-- How far beyond a message its last `Read` may go. -/
def slack : List Item → ℕ → Prop
  | [], _ => True
  | .msg _ _ :: _, n => n = 0
  | .file junk bytes :: _, n => n ≤ (Item.file junk bytes).wire.length

/-- The `Read` that ends a message brings no byte of another message, and no byte that comes
after the next file. -/
def CutsOk (last : ℕ) : ℕ → List Item → Prop
  | _, [] => True
  | pos, .msg type str :: items =>
    let target := pos + (Item.msg type str).wire.length
    slack items (readEnd ready last target EBUFSIZ EBUFSIZ pos - target) ∧
      CutsOk last target items
  | pos, .file junk bytes :: items => CutsOk last (pos + (Item.file junk bytes).wire.length) items

theorem etrdmsg_eq (fuel : ℕ) : ∀ i got text after pos, 0 ∉ text → text.length < i → i ≤ fuel →
    i ≤ EBUFSIZ →
    let last := pos + (text ++ 0 :: after).length
    let target := pos + text.length + 1
    let e := readEnd ready last target fuel i pos
    target ≤ e ∧ e ≤ last ∧ e ≤ pos + i ∧
      etrdmsg ready fuel i got ⟨⟨text ++ 0 :: after, pos⟩, []⟩ =
        some (got ++ text, ⟨⟨after.drop (e - target), e⟩, after.take (e - target)⟩) := by
  induction fuel with
  | zero => omega
  | succ fuel ih =>
    intro i got text after pos htext hi hfuel hbuf last target
    have hlast : last = pos + text.length + 1 + after.length := by
      simp only [last, List.length_append, List.length_cons]
      omega
    rw [readEnd, etrdmsg, Stream.read]
    dsimp only
    generalize hk : min i (ready pos + 1) = k
    have hkpos : 0 < k := by omega
    have hne : (text ++ 0 :: after).take k ≠ [] := by
      intro hnil
      rcases List.take_eq_nil_iff.mp hnil with h | h
      · omega
      · simp at h
    rw [if_neg hne]
    by_cases hfound : text.length + 1 ≤ k
    · have hchunk : (text ++ 0 :: after).take k =
          text ++ 0 :: after.take (k - (text.length + 1)) := by
        obtain ⟨j, rfl⟩ : ∃ j, k = text.length + (j + 1) := ⟨k - (text.length + 1), by omega⟩
        rw [List.take_length_add_append, List.take_succ_cons,
          show text.length + (j + 1) - (text.length + 1) = j by omega]
      have htake : (text ++ 0 :: after.take (k - (text.length + 1))).takeWhile (· ≠ 0) = text := by
        rw [List.takeWhile_append_of_pos, List.takeWhile_cons_of_neg (by simp), List.append_nil]
        intro c hc
        have : c ≠ 0 := fun h => htext (h ▸ hc)
        simpa using this
      have hmem : 0 ∈ text ++ 0 :: after.take (k - (text.length + 1)) := by simp
      have hdrop : (text ++ 0 :: after.take (k - (text.length + 1))).drop (text.length + 1) =
          after.take (k - (text.length + 1)) := by
        rw [List.drop_length_add_append, List.drop_succ_cons, List.drop_zero]
      have hrest : (text ++ 0 :: after).drop k = after.drop (k - (text.length + 1)) := by
        obtain ⟨j, rfl⟩ : ∃ j, k = text.length + (j + 1) := ⟨k - (text.length + 1), by omega⟩
        rw [List.drop_length_add_append, List.drop_succ_cons,
          show text.length + (j + 1) - (text.length + 1) = j by omega]
      have hfit : ¬ EBUFSIZ < ([] ++ after.take (k - (text.length + 1))).length := by
        rw [List.nil_append, List.length_take]
        omega
      have hpos : pos + min k (text ++ 0 :: after).length = min (pos + k) last := by
        rw [show (text ++ 0 :: after).length = text.length + 1 + after.length by
          rw [List.length_append, List.length_cons]; omega]
        omega
      rw [if_pos (show target ≤ min (pos + k) last by omega), hchunk, if_pos hmem, htake, hdrop,
        if_neg hfit, hrest, hpos, List.nil_append]
      refine ⟨by omega, by omega, by omega, ?_⟩
      have hover : min (pos + k) last - target = min (k - (text.length + 1)) after.length := by
        omega
      rw [hover, ← List.take_eq_take_min, ← List.drop_eq_drop_min]
    · have hchunk : (text ++ 0 :: after).take k = text.take k :=
        List.take_append_of_le_length (by omega)
      have hrest : (text ++ 0 :: after).drop k = text.drop k ++ 0 :: after :=
        List.drop_append_of_le_length (by omega)
      have hsub : ∀ c ∈ text.take k, c ∈ text := fun c => List.mem_of_mem_take
      have hlen : (text.take k).length = k := by
        rw [List.length_take]
        omega
      have hpos : pos + min k (text ++ 0 :: after).length = pos + k := by
        rw [List.length_append]
        omega
      have hnext : min (pos + k) last = pos + k := by omega
      rw [hchunk, if_neg (fun h => htext (hsub 0 h)), hlen, hrest, hpos, hnext,
        if_neg (by omega), Nat.add_sub_cancel_left]
      have hdroplen : (text.drop k).length = text.length - k := List.length_drop
      have hlast' : pos + k + (text.drop k ++ 0 :: after).length = last := by
        rw [List.length_append, List.length_cons]
        omega
      have htarget : pos + k + (text.drop k).length + 1 = target := by omega
      have := ih (i - k) (got ++ text.take k) (text.drop k) after (pos + k)
        (fun h => htext (List.mem_of_mem_drop h)) (by omega) (by omega) (by omega)
      dsimp only at this
      rw [hlast', htarget, List.append_assoc, List.take_append_drop] at this
      obtain ⟨h1, h2, h3, h4⟩ := this
      exact ⟨h1, h2, by omega, h4⟩

theorem length_cmsglen (junk : ℕ → UInt8) (n : ℕ) : (cmsglen junk n).length = EMESGLEN := by
  rw [cmsglen, List.length_map, List.length_range]

/-- The digits and a null byte come first in `cmsglen`. -/
theorem cmsglen_eq (junk : ℕ → UInt8) {n : ℕ} (hn : n < 2 ^ 63) :
    ∃ rest, cmsglen junk n = decimal n ++ 0 :: rest := by
  have hlen : (decimal n).length ≤ 19 := length_decimal_le (by decide) (by norm_num at hn ⊢; omega)
  refine ⟨(cmsglen junk n).drop ((decimal n).length + 1), ?_⟩
  have htake : (cmsglen junk n).take ((decimal n).length + 1) = decimal n ++ [0] := by
    apply List.ext_getElem
    · rw [List.length_take, length_cmsglen, List.length_append, List.length_singleton,
        show EMESGLEN = 20 from rfl]
      omega
    · intro i h1 h2
      rw [List.getElem_take]
      simp only [cmsglen, List.getElem_map, List.getElem_range]
      rw [List.getD_eq_getElem?_getD, List.getElem?_eq_getElem, Option.getD_some]
  calc cmsglen junk n = (cmsglen junk n).take ((decimal n).length + 1) ++
        (cmsglen junk n).drop ((decimal n).length + 1) := (List.take_append_drop _ _).symm
    _ = _ := by rw [htake, List.append_assoc, List.singleton_append]

theorem not_isSpace_of_isDigit {c : UInt8} (h : isDigit c = true) : isSpace c = false := by
  simp only [isDigit, Bool.and_eq_true, decide_eq_true_eq, UInt8.le_iff_toNat_le] at h
  simp only [isSpace, Bool.or_eq_false_iff, Bool.and_eq_false_iff, decide_eq_false_iff_not,
    ← UInt8.toNat_inj, UInt8.le_iff_toNat_le]
  change 48 ≤ c.toNat ∧ c.toNat ≤ 57 at h
  change ¬ c.toNat = 32 ∧ (¬ 9 ≤ c.toNat ∨ ¬ c.toNat ≤ 13)
  omega

/-- `sscanf` reads back what `sprintf` has written. -/
theorem scanLong_decimal (n : ℕ) (rest : List UInt8) :
    scanLong (decimal n ++ 0 :: rest) = some (n : ℤ) := by
  have htake := takeWhile_decimal n (c := 0) (by decide) rest
  have hval := decValue_decimal n
  have hdigit := decimal_isDigit n
  cases hdec : decimal n with
  | nil => exact absurd hdec (decimal_ne_nil n)
  | cons c cs =>
    rw [hdec] at htake hdigit hval
    have hc := hdigit c List.mem_cons_self
    have hminus : c ≠ 45 := by
      rintro rfl
      exact absurd hc (by decide)
    have hplus : c ≠ 43 := by
      rintro rfl
      exact absurd hc (by decide)
    unfold scanLong
    rw [List.cons_append] at htake ⊢
    rw [List.dropWhile_cons_of_neg (by rw [not_isSpace_of_isDigit hc]; decide)]
    rw [scanSign, if_neg hminus, if_neg hplus]
    dsimp only
    rw [htake]
    simp only [Bool.false_eq_true, if_false, hval]

theorem erdBlocks_eq (fuel : ℕ) : ∀ (n : ℕ) file s, n ≤ s.rest.length → s.rest.length < fuel →
    erdBlocks ready true fuel n file s = some (file ++ s.rest.take n, s.skip n) := by
  induction fuel with
  | zero => omega
  | succ fuel ih =>
    intro n file s hn hfuel
    have hmin : (min (n : ℤ) EBUFSIZ).toNat = min n EBUFSIZ := by omega
    have hlen : (s.rest.take (min n EBUFSIZ)).length = min n EBUFSIZ := by
      rw [List.length_take]
      omega
    rw [erdBlocks, erdblk_eq, hmin]
    dsimp only
    rw [hlen, if_neg (by omega), if_pos rfl]
    by_cases hall : n ≤ EBUFSIZ
    · rw [if_pos (by omega), Nat.min_eq_left hall]
    · have hE : EBUFSIZ = 1024 := rfl
      have hsub : (n : ℤ) - (min n EBUFSIZ : ℕ) = ((n - EBUFSIZ : ℕ) : ℤ) := by omega
      have hskip : (s.skip EBUFSIZ).rest = s.rest.drop EBUFSIZ := rfl
      rw [if_neg (by omega), hsub, Nat.min_eq_right (by omega), ih _ _ _ (by
          rw [hskip, List.length_drop]
          omega) (by
          rw [hskip, List.length_drop]
          omega), Stream.skip_skip _ _ _ (by omega), Nat.add_sub_cancel' (by omega), hskip,
        List.append_assoc, ← List.take_add, Nat.add_sub_cancel' (by omega)]

/-- The length of a file, from a stash that may reach into the file. -/
theorem readLength_eq {head rest : List UInt8} (hhead : head.length = EMESGLEN) {r : Receiver}
    (h : r.stash ++ r.stream.rest = head ++ rest) :
    ∃ r', readLength ready r = some (head, r') ∧ r'.stash ++ r'.stream.rest = rest ∧
      r'.stash.length = r.stash.length - EMESGLEN ∧
      r'.stream.pos = r.stream.pos + (EMESGLEN - r.stash.length) := by
  unfold readLength
  by_cases hlong : EMESGLEN ≤ r.stash.length
  · have htake : r.stash.take EMESGLEN = head := by
      rw [← List.take_append_of_le_length hlong, h, ← hhead, List.take_left]
    have hdrop : r.stash.drop EMESGLEN ++ r.stream.rest = rest := by
      rw [← List.drop_append_of_le_length hlong, h, ← hhead, List.drop_left]
    rw [if_pos hlong, htake]
    refine ⟨_, rfl, hdrop, List.length_drop, ?_⟩
    dsimp only
    omega
  · have hlen := congrArg List.length h
    rw [List.length_append, List.length_append] at hlen
    have hn : ((EMESGLEN - r.stash.length : ℕ) : ℤ).toNat = EMESGLEN - r.stash.length := by omega
    have htake : r.stash ++ r.stream.rest.take (EMESGLEN - r.stash.length) = head := by
      have := congrArg (List.take EMESGLEN) h
      rw [← hhead, List.take_left, List.take_append, List.take_of_length_le (by omega)] at this
      rw [← hhead]
      exact this
    have hdrop : r.stream.rest.drop (EMESGLEN - r.stash.length) = rest := by
      have := congrArg (List.drop EMESGLEN) h
      rw [← hhead, List.drop_left, List.drop_append, List.drop_eq_nil_of_le (by omega),
        List.nil_append] at this
      rw [← hhead]
      exact this
    rw [if_neg hlong]
    dsimp only
    rw [erdblk_eq, hn]
    dsimp only
    rw [if_neg (by rw [List.length_take]; omega), htake]
    refine ⟨_, rfl, ?_, by simp; omega, ?_⟩
    · rw [List.nil_append]
      exact hdrop
    · simp only [Stream.skip]
      omega

/-- A file is read as it was sent, when the stash reaches no further than its end. -/
theorem erddata_eq {Ulimit : ℤ} {junk : ℕ → UInt8} {bytes rest : List UInt8} {r : Receiver}
    (hv : (Item.file junk bytes).Valid Ulimit)
    (h : r.stash ++ r.stream.rest = (Item.file junk bytes).wire ++ rest)
    (hstash : r.stash.length ≤ (Item.file junk bytes).wire.length) :
    erddata ready Ulimit r = some (true, bytes, ⟨⟨rest, r.stream.pos +
      ((Item.file junk bytes).wire.length - r.stash.length)⟩, []⟩) := by
  obtain ⟨hsize, hlimit⟩ := hv
  have hwire : (Item.file junk bytes).wire.length = EMESGLEN + bytes.length := by
    rw [Item.wire, List.length_append, length_cmsglen]
  rw [Item.wire, List.append_assoc] at h
  obtain ⟨r', hread, hrest, hlen, hpos⟩ := readLength_eq ready (length_cmsglen junk _) h
  obtain ⟨tail, hcms⟩ := cmsglen_eq junk hsize
  have hscan : scanLong (cmsglen junk bytes.length) = some (bytes.length : ℤ) := by
    rw [hcms, scanLong_decimal]
  have hle : r'.stash.length ≤ bytes.length := by omega
  have hfile : r'.stash ++ r'.stream.rest.take (bytes.length - r'.stash.length) = bytes := by
    have := congrArg (List.take bytes.length) hrest
    rwa [List.take_left, List.take_append, List.take_of_length_le hle] at this
  have hend : r'.stream.rest.drop (bytes.length - r'.stash.length) = rest := by
    have := congrArg (List.drop bytes.length) hrest
    rwa [List.drop_left, List.drop_append, List.drop_eq_nil_of_le hle, List.nil_append] at this
  have hlens := congrArg List.length hrest
  rw [List.length_append, List.length_append] at hlens
  have hsub : (bytes.length : ℤ) - r'.stash.length = ((bytes.length - r'.stash.length : ℕ) : ℤ) := by
    omega
  unfold erddata
  rw [hread]
  simp only [Option.bind_eq_bind, Option.bind_some, hscan, hlimit, decide_true]
  rw [hsub, erdBlocks_eq ready _ _ _ _ (by omega) (Nat.lt_succ_self _)]
  simp only [Option.bind_some, hfile, Stream.skip, hend, Option.pure_def, Option.some.injEq,
    Prod.mk.injEq, true_and, Receiver.mk.injEq, Stream.mk.injEq, and_true]
  omega

theorem ewrBlocks_wire (fuel : ℕ) : ∀ handed rest l, rest.length < fuel →
    (∀ i, l.accepts i) →
    let sent := ewrBlocks fuel handed rest.length ⟨rest, none, false⟩ l
    sent.success ∧ (∀ i, sent.link.accepts i) ∧ sent.link.written = l.written ++ rest := by
  have hE : EBUFSIZ = 1024 := rfl
  induction fuel with
  | zero => exact fun _ _ _ h => absurd h (Nat.not_lt_zero _)
  | succ fuel ih =>
    intro handed rest l hfuel hl
    rw [ewrBlocks, LocalFile.read]
    dsimp only
    cases hblock : rest.take EBUFSIZ with
    | nil =>
      obtain rfl : rest = [] := by
        rcases List.take_eq_nil_iff.mp hblock with h | h
        · omega
        · exact h
      exact ⟨by simp, hl, (List.append_nil _).symm⟩
    | cons c cs =>
      have hlen : (rest.take EBUFSIZ).length = min EBUFSIZ rest.length := List.length_take
      dsimp only
      rw [← hblock, Link.write, if_pos (hl _)]
      dsimp only
      by_cases hall : rest.length ≤ EBUFSIZ
      · rw [if_pos (by omega), List.take_of_length_le hall]
        exact ⟨rfl, hl, rfl⟩
      · have hdrop : ((rest.drop EBUFSIZ).length : ℤ) =
            rest.length - (rest.take EBUFSIZ).length := by
          rw [List.length_drop]
          omega
        obtain ⟨hsucc, hacc, hwritten⟩ := ih (handed ++ rest.take EBUFSIZ) (rest.drop EBUFSIZ)
          ⟨l.accepts, l.jumps, l.calls + 1, l.written ++ rest.take EBUFSIZ⟩
          (by rw [List.length_drop]; omega) hl
        rw [if_neg (by omega), ← hdrop]
        refine ⟨hsucc, hacc, ?_⟩
        rw [hwritten, List.append_assoc, List.take_append_drop]

theorem sendItem_eq (item : Item) {l : Link} (hl : ∀ i, l.accepts i) :
    ∃ l', sendItem l item = some l' ∧ (∀ i, l'.accepts i) ∧
      l'.written = l.written ++ item.wire := by
  cases item with
  | msg type str =>
    refine ⟨⟨l.accepts, l.jumps, l.calls + 1, l.written ++ (message type str ++ [0])⟩, ?_, hl, rfl⟩
    rw [sendItem, ewrmsg, Link.write, if_pos (hl _)]
  | file junk bytes =>
    obtain ⟨hsucc, hacc, hwritten⟩ := ewrBlocks_wire (bytes.length + 1) [] bytes
      ⟨l.accepts, l.jumps, l.calls + 1, l.written ++ cmsglen junk bytes.length⟩
      (Nat.lt_succ_self _) hl
    have hsent : ewrdata junk (openFile bytes none) l = ewrBlocks (bytes.length + 1) []
        bytes.length ⟨bytes, none, false⟩
        ⟨l.accepts, l.jumps, l.calls + 1, l.written ++ cmsglen junk bytes.length⟩ := by
      rw [ewrdata, Link.write, if_pos (hl _)]
      rfl
    rw [sendItem, hsent]
    refine ⟨_, if_pos hsucc, hacc, ?_⟩
    rw [hwritten, List.append_assoc]
    rfl

theorem sendItems_eq (items : List Item) : ∀ {l : Link}, (∀ i, l.accepts i) →
    ∃ l', sendItems items l = some l' ∧ l'.written = l.written ++ wire items := by
  induction items with
  | nil => exact fun {l} _ => ⟨l, rfl, (List.append_nil _).symm⟩
  | cons item items ih =>
    intro l hl
    obtain ⟨l', hsend, hacc, hwritten⟩ := sendItem_eq item hl
    obtain ⟨l'', hsends, hwrittens⟩ := ih hacc
    refine ⟨l'', ?_, ?_⟩
    · rw [sendItems, hsend, Option.bind_some, hsends]
    · rw [hwrittens, hwritten, List.append_assoc]
      rfl

/-- Between two calls: what is still to come, and a stash that lies within the next file. -/
structure Between (items : List Item) (pos last : ℕ) (r : Receiver) : Prop where
  rest : r.stash ++ r.stream.rest = wire items
  pos_eq : r.stream.pos = pos + r.stash.length
  slack : slack items r.stash.length
  last_eq : last = pos + (wire items).length

theorem slack_zero (items : List Item) : slack items 0 := by
  match items with
  | [] => trivial
  | .msg _ _ :: _ => rfl
  | .file _ _ :: _ => exact Nat.zero_le _

theorem receiveItems_eq {Ulimit : ℤ} {last : ℕ} (items : List Item) :
    ∀ pos r, (∀ item ∈ items, item.Valid Ulimit) → CutsOk ready last pos items →
      Between items pos last r →
      receiveItems ready Ulimit items r = some (items.map Item.arrival) := by
  induction items with
  | nil => exact fun _ _ _ _ _ => rfl
  | cons item items ih =>
    intro pos r hvalid hcuts hb
    have hv := hvalid item List.mem_cons_self
    have hvs : ∀ item ∈ items, item.Valid Ulimit := fun i hi =>
      hvalid i (List.mem_cons_of_mem item hi)
    have hwire : wire (item :: items) = item.wire ++ wire items := rfl
    have hrest := hb.rest
    have hlast := hb.last_eq
    rw [hwire] at hrest hlast
    rw [List.length_append] at hlast
    suffices h : ∃ r', receiveItem ready Ulimit r item = some (item.arrival, r') ∧
        CutsOk ready last (pos + item.wire.length) items ∧
        Between items (pos + item.wire.length) last r' by
      obtain ⟨r', hreceive, hcuts', hb'⟩ := h
      rw [receiveItems, hreceive]
      simp only [Option.bind_eq_bind, Option.bind_some, ih _ r' hvs hcuts' hb', List.map_cons,
        Option.pure_def]
    cases item with
    | msg type str =>
      obtain ⟨hnul, hsize⟩ := hv
      obtain ⟨hslack, hcuts'⟩ := hcuts
      have hempty : r.stash = [] := List.length_eq_zero_iff.mp hb.slack
      obtain ⟨⟨rest, rpos⟩, stash⟩ := r
      obtain rfl : stash = [] := hempty
      obtain rfl : rpos = pos := hb.pos_eq
      obtain rfl : rest = message type str ++ 0 :: wire items := by
        rw [List.nil_append, Item.wire, List.append_assoc, List.singleton_append] at hrest
        exact hrest
      have hwlen : (Item.msg type str).wire.length = (message type str).length + 1 := by
        rw [Item.wire, List.length_append, List.length_singleton]
      obtain ⟨hge, hle, _, hread⟩ := etrdmsg_eq ready EBUFSIZ EBUFSIZ [] (message type str)
        (wire items) rpos hnul hsize le_rfl le_rfl
      have hlast' : rpos + (message type str ++ 0 :: wire items).length = last := by
        rw [List.length_append, List.length_cons]
        omega
      rw [hlast', Nat.add_assoc, ← hwlen] at hge hle hread
      let e := readEnd ready last (rpos + (Item.msg type str).wire.length) EBUFSIZ EBUFSIZ rpos
      let ahead := e - (rpos + (Item.msg type str).wire.length)
      refine ⟨⟨⟨(wire items).drop ahead, e⟩, (wire items).take ahead⟩, ?_, hcuts', ?_, ?_, ?_, ?_⟩
      · rw [receiveItem, erdmsg, hread]
        rfl
      · exact List.take_append_drop _ _
      · dsimp only
        rw [List.length_take]
        omega
      · dsimp only
        rw [List.length_take, Nat.min_eq_left (by omega)]
        exact hslack
      · omega
    | file junk bytes =>
      refine ⟨⟨⟨wire items, r.stream.pos +
        ((Item.file junk bytes).wire.length - r.stash.length)⟩, []⟩, ?_, hcuts, ?_, ?_, ?_, ?_⟩
      · rw [receiveItem, erddata_eq ready hv hrest hb.slack]
        rfl
      · exact List.nil_append (wire items)
      · have hpos := hb.pos_eq
        have hslack : r.stash.length ≤ (Item.file junk bytes).wire.length := hb.slack
        dsimp only
        rw [List.length_nil]
        omega
      · exact slack_zero items
      · omega

/-- A message `S`, and a file of one byte. -/
def someItems : List Item := [.msg 83 [], .file (fun _ => 0) [97]]

end Unitas.Bnu
