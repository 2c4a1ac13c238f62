import Mathlib.Data.Int.Basic
import Mathlib.Logic.Function.Basic

/-! The two buffers of `tftpsubs.c`, in octet mode: a sender reads the file ahead into the
one that is not being sent, a receiver writes behind the one that is being filled. -/
namespace Unitas.Tftp

def segSize : ℕ := 512

/-- `counter` is the size of the data in the buffer, or one of the two flags. -/
structure Bf where
  counter : ℤ
  buf : List UInt8

def bfAlloc : ℤ := -3
def bfFree : ℤ := -2

/-- `bfs[2]`; the index `0` is `false`. -/
structure Bufs where
  bfs : Bool → Bf
  nextone : Bool
  current : Bool

def Bufs.set (b : Bufs) (i : Bool) (bf : Bf) : Bufs :=
  { b with bfs := Function.update b.bfs i bf }

def Bufs.setCounter (b : Bufs) (i : Bool) (counter : ℤ) : Bufs :=
  b.set i { b.bfs i with counter }

/-- The packet that `recvfrom` stores in the current buffer has the data `buf`. -/
def Bufs.store (b : Bufs) (buf : List UInt8) : Bufs :=
  b.set b.current { b.bfs b.current with buf }

def rwInit (x : Bool) : Bufs where
  bfs i := if i then ⟨bfFree, []⟩ else ⟨bfAlloc, []⟩
  nextone := x
  current := false

/-- `file` is what is left of the file. Its `read` does not fail. -/
def readAhead (b : Bufs) (file : List UInt8) : Bufs × List UInt8 :=
  if (b.bfs b.nextone).counter ≠ bfFree then (b, file)
  else
    let data := file.take segSize
    ({ b.set b.nextone ⟨data.length, data⟩ with nextone := !b.nextone }, file.drop segSize)

/-- The size it returns is the counter of the buffer that is current afterwards. -/
def readit (b : Bufs) (file : List UInt8) : Bufs × List UInt8 :=
  let b := { b.setCounter b.current bfFree with current := !b.current }
  if (b.bfs b.current).counter = bfFree then readAhead b file else (b, file)

/-- `file` is what has been written so far. -/
def writeBehind (b : Bufs) (file : List UInt8) : Bufs × List UInt8 :=
  let bf := b.bfs b.nextone
  if bf.counter < -1 then (b, file)
  else
    ({ b.setCounter b.nextone bfFree with nextone := !b.nextone },
      if bf.counter ≤ 0 then file else file ++ bf.buf.take bf.counter.toNat)

def writeit (b : Bufs) (ct : ℤ) (file : List UInt8) : Bufs × List UInt8 :=
  let b := { b.setCounter b.current ct with current := !b.current }
  let (b, file) :=
    if (b.bfs b.current).counter ≠ bfFree then writeBehind b file else (b, file)
  (b.setCounter b.current bfAlloc, file)

@[simp] theorem Bufs.set_bfs_self (b : Bufs) (i : Bool) (bf : Bf) : (b.set i bf).bfs i = bf :=
  Function.update_self ..

@[simp] theorem Bufs.set_bfs_not (b : Bufs) (i : Bool) (bf : Bf) :
    (b.set i bf).bfs (!i) = b.bfs (!i) :=
  Function.update_of_ne (by simp) ..

@[simp] theorem Bufs.set_not_bfs (b : Bufs) (i : Bool) (bf : Bf) :
    (b.set (!i) bf).bfs i = b.bfs i :=
  Function.update_of_ne (by simp) ..

@[simp] theorem Bufs.set_nextone (b : Bufs) (i : Bool) (bf : Bf) :
    (b.set i bf).nextone = b.nextone := rfl

@[simp] theorem Bufs.set_current (b : Bufs) (i : Bool) (bf : Bf) :
    (b.set i bf).current = b.current := rfl

/-! ### What a sender's buffers hold between two calls -/

/-- The current buffer is being sent and the other one holds the segment after it. -/
structure Bufs.Ahead (b : Bufs) (next : List UInt8) : Prop where
  nextone : b.nextone = b.current
  busy : (b.bfs b.current).counter ≠ bfFree
  next : b.bfs (!b.current) = ⟨next.length, next⟩

theorem length_ne_bfFree (l : List UInt8) : (l.length : ℤ) ≠ bfFree := by
  unfold bfFree
  omega

theorem readAhead_of_busy {b : Bufs} (h : (b.bfs b.nextone).counter ≠ bfFree)
    (file : List UInt8) : readAhead b file = (b, file) := by
  unfold readAhead
  rw [if_pos h]

theorem Bufs.Ahead.readAhead_eq {b : Bufs} {next : List UInt8} (h : b.Ahead next)
    (file : List UInt8) : readAhead b file = (b, file) :=
  readAhead_of_busy (by rw [h.nextone]; exact h.busy) file

theorem readAhead_of_free {b : Bufs} (h : (b.bfs b.nextone).counter = bfFree)
    (file : List UInt8) :
    readAhead b file =
      ({ b.set b.nextone ⟨(file.take segSize).length, file.take segSize⟩ with
          nextone := !b.nextone }, file.drop segSize) := by
  unfold readAhead
  rw [if_neg (not_not.mpr h)]

/-- With the other buffer free, reading ahead fills it. -/
theorem ahead_readAhead {b : Bufs} (hnext : b.nextone = !b.current)
    (hbusy : (b.bfs b.current).counter ≠ bfFree)
    (hfree : (b.bfs (!b.current)).counter = bfFree) (file : List UInt8) :
    ∃ b', readAhead b file = (b', file.drop segSize) ∧ b'.bfs b'.current = b.bfs b.current ∧
      b'.Ahead (file.take segSize) := by
  refine ⟨_, readAhead_of_free (by rw [hnext]; exact hfree) file, ?_, ?_, ?_, ?_⟩
  · simp [hnext]
  · simp [hnext]
  · simpa [hnext] using hbusy
  · simp [hnext]

/-- After `readit` the segment that was ahead is the current one, and `readAhead` fetches
the one after it. -/
theorem Bufs.Ahead.readit {b : Bufs} {next : List UInt8} (h : b.Ahead next)
    (file : List UInt8) :
    ∃ b' b'', Tftp.readit b file = (b', file) ∧ b'.bfs b'.current = ⟨next.length, next⟩ ∧
      readAhead b' file = (b'', file.drop segSize) ∧
      b''.bfs b''.current = ⟨next.length, next⟩ ∧ b''.Ahead (file.take segSize) := by
  have hbusy := length_ne_bfFree next
  have hread : Tftp.readit b file =
      ({ b.setCounter b.current bfFree with current := !b.current }, file) := by
    unfold Tftp.readit
    simp only [setCounter, set_bfs_not, h.next]
    rw [if_neg hbusy]
  have hcur : ({ b.setCounter b.current bfFree with current := !b.current } : Bufs).bfs
      (!b.current) = ⟨next.length, next⟩ := by
    simp [setCounter, h.next]
  obtain ⟨b'', hahead, hheld, hb''⟩ := ahead_readAhead
    (b := { b.setCounter b.current bfFree with current := !b.current })
    (by simp [setCounter, h.nextone]) (by rw [hcur]; exact hbusy) (by simp [setCounter]) file
  exact ⟨_, b'', hread, hcur, hahead, hheld.trans hcur, hb''⟩

/-! ### What a receiver's buffers hold between two calls -/

/-- The current buffer is being filled and the other one has been written. -/
structure Bufs.Behind (b : Bufs) : Prop where
  nextone : b.nextone = b.current
  alloc : (b.bfs b.current).counter = bfAlloc
  free : (b.bfs (!b.current)).counter = bfFree

theorem behind_rwInit : (rwInit false).Behind := ⟨rfl, rfl, rfl⟩

theorem Bufs.Behind.store {b : Bufs} (h : b.Behind) (buf : List UInt8) :
    (b.store buf).Behind := by
  constructor <;> simp [Bufs.store, h.nextone, h.alloc, h.free]

theorem Bufs.Behind.writeBehind {b : Bufs} (h : b.Behind) (file : List UInt8) :
    Tftp.writeBehind b file = (b, file) := by
  have hlt : (b.bfs b.nextone).counter < -1 := by
    rw [h.nextone, h.alloc]
    decide
  unfold Tftp.writeBehind
  exact if_pos hlt

theorem writeit_of_free {b : Bufs} (h : (b.bfs (!b.current)).counter = bfFree) (ct : ℤ)
    (file : List UInt8) :
    Tftp.writeit b ct file =
      (Bufs.setCounter { b.setCounter b.current ct with current := !b.current } (!b.current)
        bfAlloc, file) := by
  have hfree : ((b.setCounter b.current ct).bfs (!b.current)).counter = bfFree := by
    simpa [Bufs.setCounter] using h
  unfold Tftp.writeit
  simp only [hfree, ne_eq, not_true, if_false]

theorem writeBehind_of_data {b : Bufs} {n : ℕ} (h : (b.bfs b.nextone).counter = n)
    (file : List UInt8) :
    Tftp.writeBehind b file =
      ({ b.setCounter b.nextone bfFree with nextone := !b.nextone },
        file ++ (b.bfs b.nextone).buf.take n) := by
  unfold Tftp.writeBehind
  rw [if_neg (by omega)]
  rcases Nat.eq_zero_or_pos n with rfl | hn
  · simp [h]
  · rw [if_neg (by omega), h, Int.toNat_natCast]

/-- Data that has come into the current buffer is in the file once `writeit` and
`writeBehind` are done. -/
theorem Bufs.Behind.writeit {b : Bufs} (h : b.Behind) (data file : List UInt8) :
    ∃ b' b'', Tftp.writeit (b.store data) data.length file = (b', file) ∧
      Tftp.writeBehind b' file = (b'', file ++ data) ∧ b''.Behind := by
  have hwrite := writeit_of_free (h.store data).free data.length file
  have hcounter : ∀ b' : Bufs, b' = Bufs.setCounter
      { (b.store data).setCounter (b.store data).current data.length with
        current := !(b.store data).current } (!(b.store data).current) bfAlloc →
      b'.bfs b'.nextone = ⟨data.length, data⟩ := by
    rintro b' rfl
    simp [Bufs.store, setCounter, h.nextone]
  have hbehind := writeBehind_of_data (congrArg Bf.counter (hcounter _ rfl)) file
  rw [hcounter _ rfl, List.take_length] at hbehind
  refine ⟨_, _, hwrite, hbehind, ?_, ?_, ?_⟩ <;> simp [Bufs.store, setCounter, h.nextone]

end Unitas.Tftp
