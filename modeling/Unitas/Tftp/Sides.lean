import Mathlib.Data.List.TakeDrop
import Unitas.Tftp.Model

/-! What each side of a transfer keeps between two packets, and what a packet does to it. -/
namespace Unitas.Tftp

/-- The data of block `k`; the first is block `1`. -/
def Config.chunk (c : Config) (k : ℕ) : List UInt8 :=
  (c.file.drop ((k - 1) * segSize)).take segSize

/-- The number of the last block. -/
def Config.blocks (c : Config) : ℕ := c.file.length / segSize + 1

/-- The packet `sendfile` sends as block `b`. -/
def Config.sent (c : Config) (b : ℕ) : Packet :=
  if b = 0 then .request else .data (UInt16.ofNat b) (c.chunk b)

/-- The packet `recvfile` sends after block `a`. -/
def Config.acked (c : Config) (a : ℕ) : Packet :=
  if a = 0 ∧ c.write = false then .request else .ack (UInt16.ofNat a)

variable {c : Config} {k : ℕ}

theorem blocks_pos (c : Config) : 1 ≤ c.blocks := Nat.succ_pos _

theorem length_chunk_eq (hk : 1 ≤ k) (hle : k ≤ c.blocks) :
    (c.chunk k).length = segSize ↔ k < c.blocks := by
  unfold Config.blocks segSize at *
  simp only [Config.chunk, segSize, List.length_take, List.length_drop]
  omega

theorem chunk_succ (c : Config) (k : ℕ) :
    c.chunk (k + 1) = (c.file.drop (k * segSize)).take segSize := rfl

theorem take_append_chunk (c : Config) (k : ℕ) :
    c.file.take (k * segSize) ++ c.chunk (k + 1) = c.file.take ((k + 1) * segSize) := by
  rw [chunk_succ, Nat.succ_mul, List.take_add]

theorem take_blocks (c : Config) : c.file.take (c.blocks * segSize) = c.file := by
  apply List.take_of_length_le
  unfold Config.blocks segSize
  omega

/-! ### `sendfile` -/

/-- `sendfile` waits for the acknowledgement of its block. -/
structure Sending (c : Config) (s : Sender) : Prop where
  running : s.ended = false
  le : s.block ≤ c.blocks
  request : s.block = 0 → c.write = true
  ahead : s.bufs.Ahead (c.chunk (s.block + 1))
  file : s.file = c.file.drop ((s.block + 1) * segSize)
  held : 0 < s.block →
    s.bufs.bfs s.bufs.current = ⟨(c.chunk s.block).length, c.chunk s.block⟩ ∧
      s.size = (c.chunk s.block).length

variable {s : Sender}

theorem Sending.packet (h : Sending c s) : s.packet = c.sent s.block := by
  unfold Sender.packet Config.sent
  split_ifs with h0
  · rfl
  · obtain ⟨hbuf, hsize⟩ := h.held (Nat.pos_of_ne_zero h0)
    rw [hbuf, hsize, Int.toNat_natCast, List.take_length]

theorem Sending.sendData (h : Sending c s) : s.sendData = (s, [c.sent s.block]) := by
  unfold Sender.sendData
  rw [h.ahead.readAhead_eq, h.packet]

/-- A sender whose buffers hold block `b` and the one after it. -/
theorem sending_of_held {b : ℕ} {bufs : Bufs} (hle : b + 1 ≤ c.blocks)
    (hheld : bufs.bfs bufs.current = ⟨(c.chunk (b + 1)).length, c.chunk (b + 1)⟩)
    (hahead : bufs.Ahead (c.chunk (b + 2))) :
    Sending c ⟨b + 1, (c.chunk (b + 1)).length, bufs, c.file.drop ((b + 2) * segSize), false⟩ :=
  ⟨rfl, hle, fun h => absurd h (Nat.succ_ne_zero b), hahead, rfl, fun _ => ⟨hheld, rfl⟩⟩

theorem Sending.nextBlock (h : Sending c s) (hlt : s.block < c.blocks) :
    ∃ s', Sender.nextBlock { s with block := s.block + 1 } = (s', [c.sent (s.block + 1)]) ∧
      Sending c s' ∧ s'.block = s.block + 1 := by
  obtain ⟨b, b', hread, hheld, hahead, hheld', hb'⟩ := h.ahead.readit s.file
  have hdrop : s.file.drop segSize = c.file.drop ((s.block + 2) * segSize) := by
    rw [h.file, List.drop_drop, ← Nat.succ_mul]
  have hnext : s.file.take segSize = c.chunk (s.block + 2) := by
    rw [h.file, chunk_succ]
  rw [hnext] at hb'
  have hs' := sending_of_held hlt hheld' hb'
  refine ⟨_, ?_, hs', rfl⟩
  unfold Sender.nextBlock Sender.sendData
  simp only [hread, hahead, hheld, hdrop, h.running]
  rw [Sender.packet]
  simp [Config.sent, hheld]

theorem Sending.recvfrom_ack_lt (h : Sending c s) {th : UInt16} (hth : th.toNat = s.block)
    (hlt : s.block < c.blocks) :
    ∃ s', s.recvfrom (.ack th) = (s', [c.sent (s.block + 1)]) ∧ Sending c s' ∧
      s'.block = s.block + 1 := by
  have hmore : s.size = (segSize : ℤ) ∨ s.block + 1 = 1 := by
    rcases Nat.eq_zero_or_pos s.block with h0 | h0
    · exact .inr (by omega)
    · exact .inl (by rw [(h.held h0).2, (length_chunk_eq h0 h.le).mpr hlt])
  obtain ⟨s', hs', hrest⟩ := h.nextBlock hlt
  refine ⟨s', ?_, hrest⟩
  unfold Sender.recvfrom
  simp only [hth, if_true, if_pos hmore, hs']

theorem Sending.recvfrom_ack_last (h : Sending c s) {th : UInt16} (hth : th.toNat = s.block)
    (hlast : s.block = c.blocks) :
    s.recvfrom (.ack th) = ({ s with block := c.blocks + 1, ended := true }, []) := by
  have hpos : 0 < s.block := by rw [hlast]; exact Nat.succ_pos _
  have hend : ¬ (s.size = (segSize : ℤ) ∨ s.block + 1 = 1) := by
    rw [(h.held hpos).2]
    have hlen := (length_chunk_eq hpos h.le).not.mpr (by omega)
    omega
  unfold Sender.recvfrom
  simp only [hth, if_true, if_neg hend]
  rw [hlast]

/-- Any other packet has the block sent again, or does nothing. -/
theorem Sending.recvfrom_other (h : Sending c s) {p : Packet}
    (hp : ∀ th, p = .ack th → th.toNat ≠ s.block) :
    ∃ ps, s.recvfrom p = (s, ps) ∧ ∀ q ∈ ps, q = c.sent s.block := by
  cases p with
  | request => exact ⟨[], rfl, by simp⟩
  | data => exact ⟨[], rfl, by simp⟩
  | ack th =>
    unfold Sender.recvfrom
    simp only [if_neg (hp th rfl)]
    split_ifs
    · exact ⟨_, h.sendData, by simp⟩
    · exact ⟨[], rfl, by simp⟩

theorem sending_sendfile (hw : c.write = true) :
    ∃ s, c.sendfile = (s, [c.sent 0]) ∧ Sending c s ∧ s.block = 0 := by
  obtain ⟨b, hread, -, hb⟩ := ahead_readAhead (b := rwInit true) rfl (by decide) rfl c.file
  refine ⟨⟨0, c.requestSize, b, c.file.drop segSize, false⟩, ?_, ?_, rfl⟩
  · unfold Config.sendfile Sender.sendData
    rw [hread]
    rfl
  · exact ⟨rfl, Nat.zero_le _, fun _ => hw, by simpa [chunk_succ] using hb, by simp, by simp⟩

theorem sending_answerRead (c : Config) :
    ∃ s, c.answerRead = (s, [c.sent 1]) ∧ Sending c s ∧ s.block = 1 := by
  let b : Bufs := { (rwInit true).setCounter false bfFree with current := true }
  let b' : Bufs := { b.set true ⟨(c.chunk 1).length, c.chunk 1⟩ with nextone := false }
  have hfirst : c.file.take segSize = c.chunk 1 := by simp [chunk_succ]
  have hread : readit (rwInit true) c.file = (b', c.file.drop segSize) := by
    have hfree := readAhead_of_free (b := b) rfl c.file
    rw [hfirst] at hfree
    exact hfree
  have hheld : b'.bfs b'.current = ⟨(c.chunk 1).length, c.chunk 1⟩ := rfl
  obtain ⟨b'', hahead, hheld', hb''⟩ := ahead_readAhead (b := b') rfl
    (by rw [hheld]; exact length_ne_bfFree _) rfl (c.file.drop segSize)
  rw [List.drop_drop, ← Nat.two_mul] at hahead
  have hs' := sending_of_held (Nat.succ_pos _) (hheld'.trans hheld)
    (by simpa [chunk_succ] using hb'')
  refine ⟨_, ?_, hs', rfl⟩
  unfold Config.answerRead Sender.nextBlock Sender.sendData
  simp only [hread, hahead, hheld]
  rw [Sender.packet]
  simp [Config.sent, hheld]

/-! ### `recvfile` -/

/-- `recvfile` waits for its block. -/
structure Receiving (c : Config) (r : Receiver) : Prop where
  running : r.ended = false
  pos : 1 ≤ r.block
  le : r.block ≤ c.blocks
  behind : r.bufs.Behind
  file : r.file = c.file.take ((r.block - 1) * segSize)
  ackbuf : r.ackbuf = c.acked (r.block - 1)

variable {r : Receiver}

theorem Receiving.sendAck (h : Receiving c r) : r.sendAck = (r, [c.acked (r.block - 1)]) := by
  rw [← h.ackbuf]
  unfold Receiver.sendAck
  rw [h.behind.writeBehind]

theorem acked_of_pos {a : ℕ} (ha : 1 ≤ a) : c.acked a = .ack (UInt16.ofNat a) :=
  if_neg fun h => absurd h.1 (by omega)

/-- The next block comes and is not the last. -/
theorem Receiving.recvfrom_data_lt (h : Receiving c r) {th : UInt16} (hth : th.toNat = r.block)
    (hlt : r.block < c.blocks) :
    ∃ r', r.recvfrom (.data th (c.chunk r.block)) = (r', [c.acked r.block]) ∧ Receiving c r' ∧
      r'.block = r.block + 1 := by
  obtain ⟨b, b', hwrite, hbehind, hb'⟩ := h.behind.writeit (c.chunk r.block) r.file
  have hlen := (length_chunk_eq h.pos h.le).mpr hlt
  have hack := acked_of_pos (c := c) h.pos
  have hfile : r.file ++ c.chunk r.block = c.file.take (r.block * segSize) := by
    have hchunk := take_append_chunk c (r.block - 1)
    rwa [Nat.sub_add_cancel h.pos, ← h.file] at hchunk
  refine ⟨⟨r.block + 1, c.acked r.block, b', r.file ++ c.chunk r.block, false⟩, ?_, ?_, rfl⟩
  · unfold Receiver.recvfrom Receiver.sendAck
    simp only [hth, if_true, hwrite, if_pos hlen, hbehind, h.running, hack]
  · exact ⟨rfl, Nat.succ_pos _, hlt, hb', hfile, rfl⟩

/-- The last block comes. -/
theorem Receiving.recvfrom_data_last (h : Receiving c r) {th : UInt16}
    (hth : th.toNat = r.block) (hlast : r.block = c.blocks) :
    ∃ r', r.recvfrom (.data th (c.chunk r.block)) = (r', [c.acked r.block]) ∧
      r'.ended = true ∧ r'.block = c.blocks ∧ r'.file = c.file := by
  obtain ⟨b, b', hwrite, hbehind, hb'⟩ := h.behind.writeit (c.chunk r.block) r.file
  have hlen := (length_chunk_eq h.pos h.le).not.mpr (by omega)
  have hack := acked_of_pos (c := c) h.pos
  have hfile : r.file ++ c.chunk r.block = c.file := by
    have hchunk := take_append_chunk c (r.block - 1)
    rwa [Nat.sub_add_cancel h.pos, ← h.file, hlast, take_blocks, ← hlast] at hchunk
  refine ⟨⟨r.block, c.acked r.block, b', r.file ++ c.chunk r.block, true⟩, ?_, rfl, hlast, hfile⟩
  unfold Receiver.recvfrom Receiver.sendAck
  simp only [hth, if_true, hwrite, if_neg hlen, hbehind, hack]

/-- Any other packet has the acknowledgement sent again, or does nothing but use the buffer. -/
theorem Receiving.recvfrom_other (h : Receiving c r) {p : Packet}
    (hp : ∀ th data, p = .data th data → th.toNat ≠ r.block) :
    ∃ r' ps, r.recvfrom p = (r', ps) ∧ Receiving c r' ∧ r'.block = r.block ∧
      ∀ q ∈ ps, q = c.acked (r.block - 1) := by
  cases p with
  | request => exact ⟨r, [], rfl, h, rfl, by simp⟩
  | ack => exact ⟨r, [], rfl, h, rfl, by simp⟩
  | data th data =>
    have hstore : Receiving c { r with bufs := r.bufs.store data } :=
      ⟨h.running, h.pos, h.le, h.behind.store data, h.file, h.ackbuf⟩
    unfold Receiver.recvfrom
    simp only [if_neg (hp th data rfl)]
    split_ifs
    · exact ⟨_, _, hstore.sendAck, hstore, rfl, by simp⟩
    · exact ⟨_, _, rfl, hstore, rfl, by simp⟩

theorem receiving_start (c : Config) {ackbuf : Packet} (hack : ackbuf = c.acked 0) :
    ∃ r, Receiver.sendAck ⟨1, ackbuf, rwInit false, [], false⟩ = (r, [c.acked 0]) ∧
      Receiving c r ∧ r.block = 1 := by
  have hr : Receiving c ⟨1, ackbuf, rwInit false, [], false⟩ :=
    ⟨rfl, le_rfl, Nat.succ_pos _, behind_rwInit, by simp, hack⟩
  exact ⟨_, hr.sendAck, hr, rfl⟩

theorem receiving_recvfile (hw : c.write = false) :
    ∃ r, c.recvfile = (r, [c.acked 0]) ∧ Receiving c r ∧ r.block = 1 :=
  receiving_start c (by simp [Config.acked, hw])

theorem receiving_answerWrite (hw : c.write = true) :
    ∃ r, c.answerWrite = (r, [c.acked 0]) ∧ Receiving c r ∧ r.block = 1 :=
  receiving_start c (by simp [Config.acked, hw])

end Unitas.Tftp
