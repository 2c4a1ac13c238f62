import Unitas.Tftp.Moves

/-! Runs of a transfer. Where alarms go off, it comes to its end if the number of the last block
fits into sixteen bits, no side gives up before the last block is there, and the last
acknowledgement, which is sent once, comes while the sender waits for it. -/
namespace Unitas.Tftp
open Unitas.Transition Filter

/-- A run of two sides that do not look at their clocks. -/
abbrev Run (c : Config) := Exec c.exchange c.init

abbrev Session (c : Config) := Exec c.step c.start

/-- Alarms go off as long as a side waits. -/
structure Alarmed {c : Config} (r : Session c) : Prop where
  sendTimer : (∀ᶠ n in atTop, (r.state n).sendClock.gone = false ∧
      ∃ x, (r.state n).state.sender = some x ∧ x.ended = false) →
    ∃ᶠ n in atTop, r.label n = .sendTimer
  recvTimer : (∀ᶠ n in atTop, (r.state n).recvClock.gone = false ∧
      ∃ x, (r.state n).state.receiver = some x ∧ x.ended = false) →
    ∃ᶠ n in atTop, r.label n = .recvTimer

/-- The sender's loop has ended and the receiver holds the whole file. -/
def State.Complete (c : Config) (s : State) : Prop := s.SenderEnded ∧ s.written = c.file

/-- The acknowledgement with which the receiver ends comes before the sender gives up. -/
def LastAckArrives {c : Config} (r : Session c) : Prop :=
  ∀ n, (r.state n).state.ReceiverEnded →
    ∃ m, (r.state m).sendClock.gone = false ∧ r.label m = .toSender (c.acked c.blocks)

/-- Until the receiver ends, the alarms of a block whose number has sixteen bits do not add up to
`maxtimeout`: what its side waits for comes before. -/
structure InTime {c : Config} (r : Session c) : Prop where
  sender : ∀ n, ¬ (r.state n).state.ReceiverEnded → r.label n = .sendTimer →
    ∀ x, (r.state n).state.sender = some x → x.block < 65536 →
      (r.state n).sendClock.timeout + c.rexmtval < c.maxtimeout
  receiver : ∀ n, ¬ (r.state n).state.ReceiverEnded → r.label n = .recvTimer →
    ∀ x, (r.state n).state.receiver = some x → x.block < 65536 →
      (r.state n).recvClock.timeout + c.rexmtval < c.maxtimeout

variable {c : Config} {s s' : State} {l : Label}

/-- How far each side has come; `0` is a peer that has not been asked. -/
def State.sendRank (s : State) : ℕ := (s.sender.map fun x => x.block + 1).getD 0

def State.recvRank (s : State) : ℕ := (s.receiver.map fun x => x.accepted + 1).getD 0

theorem Move.sendRank_le (hm : Move c s l s') : s.sendRank ≤ s'.sendRank := by
  cases hm with
  | stay | reply | accept | answerWrite => exact le_rfl
  | resend hx => simp [State.sendRank, State.sends, hx]
  | advance hx _ _ _ hblock => simp [State.sendRank, State.sends, hx, hblock]
  | finish hx _ _ hlast => simp [State.sendRank, State.sends, hx, hlast]
  | answerRead hx => simp [State.sendRank, State.sends, hx]

theorem Move.recvRank_le (hm : Move c s l s') : s.recvRank ≤ s'.recvRank := by
  cases hm with
  | stay | resend | advance | finish | answerRead => exact le_rfl
  | reply hx hr h' hblock =>
    simp [State.recvRank, State.replies, hx, hr.accepted, h'.accepted, hblock]
  | accept hx hr _ _ _ hacc =>
    simp [State.recvRank, State.replies, hx, hr.accepted, hacc]
  | answerWrite hx => simp [State.recvRank, State.replies, hx]

theorem Inv.block_le_blocks (h : Inv c s) : s.block ≤ c.blocks + 1 := by
  cases hx : s.sender with
  | none => simp [State.block, hx]
  | some x =>
    rw [State.block_some hx]
    rcases h.sender x hx with hsend | ⟨-, hblock⟩
    · exact hsend.le.trans (Nat.le_succ _)
    · exact hblock.le

theorem sendRank_le_block (s : State) : s.sendRank ≤ s.block + 1 := by
  unfold State.sendRank State.block
  cases s.sender <;> simp

theorem recvRank_le_accepted (s : State) : s.recvRank ≤ s.accepted + 1 := by
  unfold State.recvRank State.accepted
  cases s.receiver <;> simp

section
variable (r : Run c)

theorem Run.inv (n : ℕ) : Inv c (r.state n) :=
  r.invariant (inv_init c) (fun _ _ _ h hs => h.of_move (h.move hs)) n

theorem Run.sendRank_monotone : Monotone fun n => (r.state n).sendRank :=
  r.monotone (Run.inv r) fun _ _ _ h hs => (h.move hs).sendRank_le

theorem Run.recvRank_monotone : Monotone fun n => (r.state n).recvRank :=
  r.monotone (Run.inv r) fun _ _ _ h hs => (h.move hs).recvRank_le

/-- From time `N` on neither side comes further. -/
def Still (N : ℕ) : Prop := ∀ n, N ≤ n → (r.state n).sendRank = (r.state N).sendRank ∧
    (r.state n).recvRank = (r.state N).recvRank

theorem Run.exists_still : ∃ N, Still r N := by
  obtain ⟨N₁, h₁⟩ := eventually_constant (c.blocks + 2) (Run.sendRank_monotone r)
    fun n => (sendRank_le_block _).trans (Nat.succ_le_succ (Run.inv r n).block_le_blocks)
  obtain ⟨N₂, h₂⟩ := eventually_constant (c.blocks + 2) (Run.recvRank_monotone r)
    fun n => (recvRank_le_accepted _).trans (Nat.succ_le_succ
      ((Run.inv r n).accepted_le.trans (Run.inv r n).block_le_blocks))
  refine ⟨max N₁ N₂, fun n hn => ⟨?_, ?_⟩⟩
  · rw [h₁ n (le_of_max_le_left hn), h₁ _ (le_max_left ..)]
  · rw [h₂ n (le_of_max_le_right hn), h₂ _ (le_max_right ..)]

end

/-! ### How a run comes to its end -/

theorem sendRank_eq_succ {b : ℕ} :
    s.sendRank = b + 1 ↔ ∃ x, s.sender = some x ∧ x.block = b := by
  unfold State.sendRank
  cases s.sender <;> simp

theorem recvRank_eq_succ {a : ℕ} :
    s.recvRank = a + 1 ↔ ∃ x, s.receiver = some x ∧ x.accepted = a := by
  unfold State.recvRank
  cases s.receiver <;> simp

theorem Inv.exists_sending (h : Inv c s) {b : ℕ} (hb : b ≤ c.blocks)
    (hrank : s.sendRank = b + 1) : ∃ x, s.sender = some x ∧ Sending c x ∧ x.block = b := by
  obtain ⟨x, hx, hblock⟩ := sendRank_eq_succ.mp hrank
  rcases h.sender x hx with hsend | ⟨-, hend⟩
  · exact ⟨x, hx, hsend, hblock⟩
  · omega

variable {r : Run c} {N : ℕ}

/-! What a delivery brings about. -/

theorem exchange_toSender {p : Packet} (hs : c.exchange s (.toSender p) = some s') :
    p ∈ s.fromReceiver ∧ s' = c.toSender s p := by
  obtain ⟨hp, hs⟩ := Option.ite_none_right_eq_some.mp hs
  exact ⟨hp, (Option.some.inj hs).symm⟩

/-- The acknowledgement of its block takes the sender to the next, or to the loop's end. -/
theorem Inv.sendRank_of_ack (h : Inv c s) {b : ℕ} (hb : b ≤ c.blocks) (hwire : b < 65536)
    (hrank : s.sendRank = b + 1) :
    (c.toSender s (.ack (UInt16.ofNat b))).sendRank = b + 2 := by
  obtain ⟨x, hx, hsend, hblock⟩ := h.exists_sending hb hrank
  have hth : (UInt16.ofNat b).toNat = x.block := by rw [hblock, toNat_ofNat hwire]
  rcases Nat.lt_or_ge x.block c.blocks with hlt | hge
  · obtain ⟨x', hrecv, -, hblock'⟩ := hsend.recvfrom_ack_lt hth hlt
    simp [Config.toSender, hx, hsend.running, hrecv, State.sendRank, State.sends, hblock', hblock]
  · have hlast := le_antisymm hsend.le hge
    simp [Config.toSender, hx, hsend.running, hsend.recvfrom_ack_last hth hlast, State.sendRank,
      State.sends, ← hlast, hblock]

theorem Inv.receiver_ended (h : Inv c s) (hacc : c.blocks ≤ s.accepted) :
    s.ReceiverEnded ∧ s.written = c.file := by
  have hpos := blocks_pos c
  cases hy : s.receiver with
  | none =>
    rw [State.accepted, hy] at hacc
    exact absurd (Nat.le_zero.mp hacc) (Nat.ne_of_gt hpos)
  | some y =>
    rw [State.accepted_some hy] at hacc
    rcases h.receiver y hy with hrecv | ⟨hend, -, hfile⟩
    · have hle := hrecv.le
      have hpos := hrecv.pos
      rw [hrecv.accepted] at hacc
      omega
    · exact ⟨⟨y, hy, hend⟩, by simp [State.written, hy, hfile]⟩

/-- The acknowledgement of the last block ends the sender's loop. -/
theorem Run.sendRank_of_lastAck (hblocks : c.blocks < 65536) {m : ℕ}
    (hl : r.label m = .toSender (c.acked c.blocks)) :
    (r.state (m + 1)).sendRank = c.blocks + 2 := by
  have hinv := Run.inv r m
  have hack : c.acked c.blocks = .ack (UInt16.ofNat c.blocks) := acked_of_pos (blocks_pos c)
  obtain ⟨hp, hstep⟩ := exchange_toSender (hl ▸ r.next m)
  obtain ⟨j, hj, hpj⟩ := hinv.fromReceiver _ hp
  have hwire := hinv.wire
  have hjK : j = c.blocks := by
    have hth := ofNat_of_acked (hpj.symm.trans hack)
    rw [← toNat_ofNat hblocks, hth, toNat_ofNat (by omega)]
  have hle : c.blocks ≤ (r.state m).block := hjK ▸ hj.trans hinv.accepted_le
  rw [hstep, hack]
  cases hx : (r.state m).sender with
  | none =>
    rw [State.block, hx] at hle
    exact absurd hle (Nat.not_succ_le_zero _)
  | some x =>
    have hblock := State.block_some hx
    rcases hinv.sender x hx with hsend | ⟨hend, hblock'⟩
    · have hxK : x.block = c.blocks := le_antisymm hsend.le (hblock ▸ hle)
      exact hinv.sendRank_of_ack le_rfl hblocks (sendRank_eq_succ.mpr ⟨x, hx, hxK⟩)
    · simp [Config.toSender, hx, hend, State.sendRank, hblock']

theorem Inv.complete_of_sendRank (h : Inv c s) (hrank : s.sendRank = c.blocks + 2) :
    s.Complete c := by
  obtain ⟨x, hx, hblock⟩ := sendRank_eq_succ.mp hrank
  have hge := h.block_le
  rw [State.block_some hx, hblock] at hge
  rcases h.sender x hx with hsend | ⟨hend, -⟩
  · have hle := hsend.le
    omega
  · exact ⟨⟨x, hx, hend⟩, (h.receiver_ended (by omega)).2⟩

/-! ### What a run that has come to its end was -/

theorem Inv.blocks_of_receiverEnded (h : Inv c s) (hend : s.ReceiverEnded) :
    c.blocks < 65536 := by
  obtain ⟨y, hy, hend⟩ := hend
  have hwire := h.wire
  rcases h.receiver y hy with hrecv | ⟨-, hblock, -⟩
  · simp [hrecv.running] at hend
  · rwa [State.accepted_some hy, Receiver.accepted, if_pos hend, hblock] at hwire

theorem Inv.blocks_of_senderEnded (h : Inv c s) (hend : s.SenderEnded) : c.blocks < 65536 := by
  obtain ⟨x, hx, hend⟩ := hend
  have hge := h.block_le
  have hwire := h.wire
  rw [State.block_some hx] at hge
  rcases h.sender x hx with hsend | ⟨-, hblock⟩
  · simp [hsend.running] at hend
  · omega

theorem Move.lastAck_of_ends (hm : Move c s l s') (hnot : ¬ s.SenderEnded)
    (hend : s'.SenderEnded) : l = .toSender (.ack (UInt16.ofNat c.blocks)) := by
  cases hm with
  | stay | reply | accept | answerWrite => exact absurd hend hnot
  | finish _ _ _ _ hl => exact hl
  | resend hx h | advance hx _ _ h | answerRead hx h =>
    obtain ⟨x', hx', hend⟩ := hend
    rw [← Option.some.inj hx', h.running] at hend
    cases hend

theorem not_senderEnded_init (c : Config) : ¬ c.init.SenderEnded := by
  rintro ⟨x, hx, hend⟩
  unfold Config.init at hx
  split_ifs at hx with hw
  · obtain ⟨x', hx', hsend, -⟩ := sending_sendfile hw
    rw [hx'] at hx
    rw [← Option.some.inj hx, hsend.running] at hend
    cases hend
  · cases hx

theorem Run.exists_lastAck {n : ℕ} (hend : (r.state n).SenderEnded) :
    ∃ m, r.label m = .toSender (c.acked c.blocks) := by
  obtain ⟨m, hnot, hend⟩ := r.exists_step (not_senderEnded_init c) hend
  have hl := ((Run.inv r m).move (r.next m)).lastAck_of_ends hnot hend
  exact ⟨m, hl.trans (by rw [acked_of_pos (blocks_pos c)])⟩

theorem Inv.accepted_of_receiverEnded (h : Inv c s) (hend : s.ReceiverEnded) :
    s.recvRank = c.blocks + 1 := by
  obtain ⟨y, hy, hend⟩ := hend
  rcases h.receiver y hy with hrecv | ⟨-, hblock, -⟩
  · simp [hrecv.running] at hend
  · exact recvRank_eq_succ.mpr ⟨y, hy, by rw [Receiver.accepted, if_pos hend, hblock]⟩

theorem Inv.block_of_senderEnded (h : Inv c s) (hend : s.SenderEnded) :
    s.sendRank = c.blocks + 2 := by
  obtain ⟨x, hx, hend⟩ := hend
  rcases h.sender x hx with hsend | ⟨-, hblock⟩
  · simp [hsend.running] at hend
  · exact sendRank_eq_succ.mpr ⟨x, hx, hblock⟩

theorem Inv.receiverEnded_of_recvRank (h : Inv c s) (hrank : c.blocks + 1 ≤ s.recvRank) :
    s.ReceiverEnded :=
  (h.receiver_ended (by have := recvRank_le_accepted s; omega)).1

/-- A side that has come to its end stays there. -/
theorem Run.receiverEnded_mono {m n : ℕ} (hmn : m ≤ n) (h : (r.state m).ReceiverEnded) :
    (r.state n).ReceiverEnded := by
  have hrank := (Run.inv r m).accepted_of_receiverEnded h
  have hle : (r.state m).recvRank ≤ (r.state n).recvRank := Run.recvRank_monotone r hmn
  exact (Run.inv r n).receiverEnded_of_recvRank (by omega)

theorem Run.senderEnded_mono {m n : ℕ} (hmn : m ≤ n) (h : (r.state m).SenderEnded) :
    (r.state n).SenderEnded := by
  have hrank := (Run.inv r m).block_of_senderEnded h
  have hle : (r.state m).sendRank ≤ (r.state n).sendRank := Run.sendRank_monotone r hmn
  have hblock := sendRank_le_block (r.state n)
  have hmax := (Run.inv r n).block_le_blocks
  exact ((Run.inv r n).complete_of_sendRank (by omega)).1

theorem blocks_lt_iff (c : Config) : c.blocks < 65536 ↔ c.file.length < 65535 * segSize := by
  unfold Config.blocks segSize
  omega

/-! ### The run behind a session -/

/-- What a step is for two sides that do not look at their clocks: nothing, for one that has given
up. -/
def Transfer.passed (c : Config) (t : Transfer) : Label → Label
  | .sendTimer => if (c.timer t.sendClock).gone then .idle else .sendTimer
  | .recvTimer => if (c.timer t.recvClock).gone then .idle else .recvTimer
  | .toSender p => if t.sendClock.gone then .idle else .toSender p
  | .toReceiver p => if t.recvClock.gone then .idle else .toReceiver p
  | .idle => .idle

variable {t t' : Transfer}

/-- What an alarm does. -/
theorem step_sendTimer (h : c.step t .sendTimer = some t') :
    c.rexmtval ≠ 0 ∧ t.sendClock.gone = false ∧ ∃ s, c.exchange t.state .sendTimer = some s ∧
      t' = { t with
        state := if (c.timer t.sendClock).gone then t.state else s
        sendClock := c.timer t.sendClock } := by
  unfold Config.step at h
  obtain ⟨hnot, h⟩ := Option.ite_none_left_eq_some.mp h
  obtain ⟨s, hs, ht'⟩ := Option.map_eq_some_iff.mp h
  rw [not_or, Bool.not_eq_true] at hnot
  exact ⟨hnot.1, hnot.2, s, hs, ht'.symm⟩

theorem step_recvTimer (h : c.step t .recvTimer = some t') :
    c.rexmtval ≠ 0 ∧ t.recvClock.gone = false ∧ ∃ s, c.exchange t.state .recvTimer = some s ∧
      t' = { t with
        state := if (c.timer t.recvClock).gone then t.state else s
        recvClock := c.timer t.recvClock } := by
  unfold Config.step at h
  obtain ⟨hnot, h⟩ := Option.ite_none_left_eq_some.mp h
  obtain ⟨s, hs, ht'⟩ := Option.map_eq_some_iff.mp h
  rw [not_or, Bool.not_eq_true] at hnot
  exact ⟨hnot.1, hnot.2, s, hs, ht'.symm⟩

theorem step_toSender {p : Packet} (h : c.step t (.toSender p) = some t') :
    p ∈ t.state.fromReceiver ∧ t' = if t.sendClock.gone then t else
      { t with
        state := c.toSender t.state p
        sendClock := t.sendClock.goOn (t.state.sender.map Sender.block)
          ((c.toSender t.state p).sender.map Sender.block) } := by
  unfold Config.step at h
  obtain ⟨hp, h⟩ := Option.ite_none_left_eq_some.mp h
  refine ⟨not_not.mp hp, ?_⟩
  split_ifs at h ⊢ <;> exact (Option.some.inj h).symm

theorem step_toReceiver {p : Packet} (h : c.step t (.toReceiver p) = some t') :
    p ∈ t.state.fromSender ∧ t' = if t.recvClock.gone then t else
      { t with
        state := c.toReceiver t.state p
        recvClock := t.recvClock.goOn (t.state.receiver.map Receiver.block)
          ((c.toReceiver t.state p).receiver.map Receiver.block) } := by
  unfold Config.step at h
  obtain ⟨hp, h⟩ := Option.ite_none_left_eq_some.mp h
  refine ⟨not_not.mp hp, ?_⟩
  split_ifs at h ⊢ <;> exact (Option.some.inj h).symm

theorem exchange_passed (h : c.step t l = some t') :
    c.exchange t.state (t.passed c l) = some t'.state := by
  unfold Transfer.passed
  cases l with
  | sendTimer =>
    obtain ⟨-, -, s, hs, rfl⟩ := step_sendTimer h
    dsimp only
    split_ifs
    · rfl
    · exact hs
  | recvTimer =>
    obtain ⟨-, -, s, hs, rfl⟩ := step_recvTimer h
    dsimp only
    split_ifs
    · rfl
    · exact hs
  | toSender p =>
    obtain ⟨hp, rfl⟩ := step_toSender h
    dsimp only
    split_ifs
    · rfl
    · exact if_pos hp
  | toReceiver p =>
    obtain ⟨hp, rfl⟩ := step_toReceiver h
    dsimp only
    split_ifs
    · rfl
    · exact if_pos hp
  | idle =>
    obtain rfl := Option.some.inj h
    rfl

/-- The two sides of a session, without their clocks. -/
def Session.run (r : Session c) : Run c where
  state n := (r.state n).state
  label n := (r.state n).passed c (r.label n)
  init := by rw [r.init]; rfl
  next n := exchange_passed (r.next n)

theorem Session.inv (r : Session c) (n : ℕ) : Inv c (r.state n).state := Run.inv (Session.run r) n

/-! ### Clocks -/

/-- What a step is for one side: its alarm, nothing, or a packet. -/
inductive Tick {β : Type} (c : Config) (block : β → ℕ) (alarm : Prop) (k : Clock)
    (x : Option β) : Clock → Option β → Prop
  | alarm {x' : Option β} (h : alarm) (hpos : c.rexmtval ≠ 0) (hgoing : k.gone = false)
      (hsame : (c.timer k).gone = true → x' = x) : Tick c block alarm k x (c.timer k) x'
  | same (h : ¬ alarm) : Tick c block alarm k x k x
  | packet {x' : Option β} (h : ¬ alarm) (hgoing : k.gone = false) :
      Tick c block alarm k x (k.goOn (x.map block) (x'.map block)) x'

theorem sender_toReceiver (c : Config) (s : State) (p : Packet) :
    (c.toReceiver s p).sender = s.sender := by
  unfold Config.toReceiver
  split
  · split_ifs <;> rfl
  · split_ifs <;> rfl

theorem receiver_toSender (c : Config) (s : State) (p : Packet) :
    (c.toSender s p).receiver = s.receiver := by
  unfold Config.toSender
  split
  · split_ifs <;> rfl
  · split_ifs <;> rfl

theorem step_sender (h : c.step t l = some t') :
    Tick c Sender.block (l = .sendTimer) t.sendClock t.state.sender t'.sendClock
      t'.state.sender := by
  cases l with
  | sendTimer =>
    obtain ⟨hpos, hgoing, s, -, rfl⟩ := step_sendTimer h
    exact .alarm rfl hpos hgoing fun hgone => by rw [if_pos hgone]
  | recvTimer =>
    obtain ⟨-, -, s, hs, rfl⟩ := step_recvTimer h
    obtain ⟨x, -, rfl⟩ := Option.map_eq_some_iff.mp hs
    dsimp only
    split_ifs
    · exact .same (by simp)
    · exact .same (by simp)
  | toSender p =>
    rw [(step_toSender h).2]
    split_ifs with hgone
    · exact .same (by simp)
    · exact .packet (by simp) (by simpa using hgone)
  | toReceiver p =>
    rw [(step_toReceiver h).2]
    split_ifs
    · exact .same (by simp)
    · dsimp only
      rw [sender_toReceiver]
      exact .same (by simp)
  | idle =>
    rw [← Option.some.inj h]
    exact .same (by simp)

theorem step_receiver (h : c.step t l = some t') :
    Tick c Receiver.block (l = .recvTimer) t.recvClock t.state.receiver t'.recvClock
      t'.state.receiver := by
  cases l with
  | sendTimer =>
    obtain ⟨-, -, s, hs, rfl⟩ := step_sendTimer h
    obtain ⟨x, -, rfl⟩ := Option.map_eq_some_iff.mp hs
    dsimp only
    split_ifs
    · exact .same (by simp)
    · exact .same (by simp)
  | recvTimer =>
    obtain ⟨hpos, hgoing, s, -, rfl⟩ := step_recvTimer h
    exact .alarm rfl hpos hgoing fun hgone => by rw [if_pos hgone]
  | toSender p =>
    rw [(step_toSender h).2]
    split_ifs
    · exact .same (by simp)
    · dsimp only
      rw [receiver_toSender]
      exact .same (by simp)
  | toReceiver p =>
    rw [(step_toReceiver h).2]
    split_ifs with hgone
    · exact .same (by simp)
    · exact .packet (by simp) (by simpa using hgone)
  | idle =>
    rw [← Option.some.inj h]
    exact .same (by simp)

section
variable {β : Type} {block : β → ℕ} {alarm : ℕ → Prop} {k : ℕ → Clock} {x : ℕ → Option β}

/-- A side that has given up stays where it was. -/
theorem gone_of_ticks (h : ∀ n, Tick c block (alarm n) (k n) (x n) (k (n + 1)) (x (n + 1)))
    {n m : ℕ} (hgone : (k n).gone = true) (hm : n ≤ m) : (k m).gone = true ∧ x m = x n := by
  induction m, hm using Nat.le_induction with
  | base => exact ⟨hgone, rfl⟩
  | succ m _ ih =>
    obtain ⟨hgone', hsame⟩ := ih
    have hm := h m
    generalize k (m + 1) = k' at hm ⊢
    generalize x (m + 1) = x' at hm ⊢
    cases hm with
    | alarm _ _ hgoing => exact absurd (hgone'.symm.trans hgoing) (by decide)
    | same => exact ⟨hgone', hsame⟩
    | packet _ hgoing => exact absurd (hgone'.symm.trans hgoing) (by decide)

/-- A side that no alarm makes give up does not give up. -/
theorem going_of_ticks (h : ∀ n, Tick c block (alarm n) (k n) (x n) (k (n + 1)) (x (n + 1)))
    (h0 : (k 0).gone = false)
    (hintime : ∀ n, alarm n → (k n).timeout + c.rexmtval < c.maxtimeout) (n : ℕ) :
    (k n).gone = false := by
  induction n with
  | zero => exact h0
  | succ n ih =>
    have hn := h n
    generalize k (n + 1) = k' at hn ⊢
    generalize x (n + 1) = x' at hn
    cases hn with
    | alarm halarm => exact decide_eq_false (not_le.mpr (hintime n halarm))
    | same => exact ih
    | packet =>
      unfold Clock.goOn
      split_ifs
      · exact ih
      · exact ih

/-- The clock of a side that stays at its block runs on. -/
theorem Tick.timeout {alarm : Prop} {k k' : Clock} {x x' : Option β}
    (h : Tick c block alarm k x k' x') (hsame : x.map block = x'.map block) :
    k.timeout ≤ k'.timeout ∧ (alarm → k.timeout < k'.timeout) := by
  cases h with
  | alarm _ hpos =>
    have hlt : k.timeout < k.timeout + c.rexmtval := by omega
    exact ⟨hlt.le, fun _ => hlt⟩
  | same h => exact ⟨le_rfl, fun halarm => absurd halarm h⟩
  | packet h =>
    rw [Clock.goOn, if_pos hsame]
    exact ⟨le_rfl, fun halarm => absurd halarm h⟩

/-- A side whose alarms have added up gives up. -/
theorem Tick.late {alarm : Prop} {k k' : Clock} {x x' : Option β}
    (h : Tick c block alarm k x k' x') (halarm : alarm)
    (hlate : c.maxtimeout ≤ k.timeout + c.rexmtval) : k'.gone = true ∧ x' = x := by
  have hgone : (c.timer k).gone = true := decide_eq_true hlate
  cases h with
  | alarm _ _ _ hsame => exact ⟨hgone, hsame hgone⟩
  | same h => exact absurd halarm h
  | packet h => exact absurd halarm h

/-- A side that stays at its block for ever is not called again and again, or else gives up. -/
theorem not_frequently_alarm
    (h : ∀ n, Tick c block (alarm n) (k n) (x n) (k (n + 1)) (x (n + 1)))
    (hintime : ∀ n, alarm n → (k n).timeout + c.rexmtval < c.maxtimeout) {N : ℕ} {b : Option ℕ}
    (hstill : ∀ n, N ≤ n → (x n).map block = b) : ¬ ∃ᶠ n in atTop, alarm n := by
  have hsame : ∀ n, N ≤ n → (x n).map block = (x (n + 1)).map block := fun n hn =>
    (hstill n hn).trans (hstill (n + 1) (Nat.le_succ_of_le hn)).symm
  refine @not_frequently_of_rises (fun n => (k n).timeout) alarm N c.maxtimeout
    (fun n hn => ((h n).timeout (hsame n hn)).1) fun n hn halarm => ?_
  exact ⟨((h n).timeout (hsame n hn)).2 halarm, by have := hintime n halarm; omega⟩

end

/-! ### When a session comes to its end -/

variable {r : Session c}

/-- A session that has come to its end was in time. -/
theorem Session.inTime {n : ℕ} (hend : (r.state n).state.Complete c) : InTime r := by
  have hrecv : (r.state n).state.ReceiverEnded := by
    have hinv := Session.inv r n
    have hrank := hinv.block_of_senderEnded hend.1
    obtain ⟨x, hx, hblock⟩ := sendRank_eq_succ.mp hrank
    have hge := hinv.block_le
    rw [State.block_some hx, hblock] at hge
    exact (hinv.receiver_ended (by omega)).1
  constructor
  · intro m hnot hl x hx _
    by_contra hlate
    obtain ⟨hgone, hsame⟩ := (step_sender (r.next m)).late hl (not_lt.mp hlate)
    have hnext := r.next m
    rw [hl] at hnext
    obtain ⟨-, -, s, hs, -⟩ := step_sendTimer hnext
    have hstay : ¬ (r.state m).state.SenderEnded := by
      obtain ⟨y, hy, -⟩ := Option.map_eq_some_iff.mp hs
      obtain ⟨hy, hrun⟩ := Option.filter_eq_some_iff.mp hy
      rintro ⟨z, hz, hended⟩
      rw [hy] at hz
      obtain rfl := Option.some.inj hz
      simp [hended] at hrun
    rcases Nat.le_total n m with hnm | hmn
    · exact hstay (Run.senderEnded_mono (r := Session.run r) hnm hend.1)
    · have hn : m + 1 ≤ n ∨ n = m := by omega
      rcases hn with hn | rfl
      · obtain ⟨-, hfrozen⟩ := gone_of_ticks (fun n => step_sender (r.next n)) hgone hn
        obtain ⟨z, hz, hended⟩ := hend.1
        exact hstay ⟨z, by rw [← hsame, ← hfrozen, hz], hended⟩
      · exact hstay hend.1
  · intro m hnot hl x hx _
    by_contra hlate
    obtain ⟨hgone, hsame⟩ := (step_receiver (r.next m)).late hl (not_lt.mp hlate)
    rcases Nat.lt_or_ge m n with hmn | hnm
    · obtain ⟨-, hfrozen⟩ := gone_of_ticks (fun n => step_receiver (r.next n)) hgone hmn
      obtain ⟨z, hz, hended⟩ := hrecv
      exact hnot ⟨z, by rw [← hsame, ← hfrozen, hz], hended⟩
    · exact hnot (Run.receiverEnded_mono (r := Session.run r) hnm hrecv)

theorem Session.lastAckArrives {n : ℕ} (hend : (r.state n).state.SenderEnded) :
    LastAckArrives r := by
  obtain ⟨m, hm⟩ := Run.exists_lastAck (r := Session.run r) hend
  refine fun _ _ => ⟨m, ?_⟩
  change (r.state m).passed c (r.label m) = _ at hm
  unfold Transfer.passed at hm
  split at hm
  · split_ifs at hm
  · split_ifs at hm
  · rename_i p hl
    split_ifs at hm with hgone
    exact ⟨Bool.eq_false_iff.mpr hgone, hl.trans hm⟩
  · split_ifs at hm
  · cases hm

/-- A receiver that ends makes the session come to its end, if its last acknowledgement comes. -/
theorem Session.complete_of_receiverEnded (hblocks : c.blocks < 65536) (hlast : LastAckArrives r)
    {n : ℕ} (hn : (r.state n).state.ReceiverEnded) : ∃ n, (r.state n).state.Complete c := by
  obtain ⟨m, hgoing, hl⟩ := hlast n hn
  have hpassed : (Session.run r).label m = .toSender (c.acked c.blocks) := by
    change (r.state m).passed c (r.label m) = _
    rw [hl, Transfer.passed, if_neg (by rw [hgoing]; decide)]
  exact ⟨m + 1, (Session.inv r (m + 1)).complete_of_sendRank
    (Run.sendRank_of_lastAck (r := Session.run r) hblocks hpassed)⟩

/-- A receiver whose transfer is in time ends: the client does not wait for ever. -/
theorem Session.exists_receiverEnded (ha : Alarmed r) (hblocks : c.blocks < 65536)
    (hintime : InTime r) : ∃ n, (r.state n).state.ReceiverEnded := by
  by_contra! hnot
  obtain ⟨N, hN⟩ := Run.exists_still (Session.run r)
  have hacc : ∀ n, (r.state n).state.accepted < c.blocks := fun n => by
    by_contra hge
    exact hnot n ((Session.inv r n).receiver_ended (not_lt.mp hge)).1
  have hsending : ∀ n x, (r.state n).state.sender = some x → Sending c x := by
    intro n x hx
    rcases (Session.inv r n).sender x hx with hsend | ⟨-, hblock⟩
    · exact hsend
    · have hle := (Session.inv r n).block_le
      have := hacc n
      rw [State.block_some hx] at hle
      omega
  have hreceiving : ∀ n x, (r.state n).state.receiver = some x → Receiving c x := by
    intro n x hx
    rcases (Session.inv r n).receiver x hx with hrecv | ⟨hend, -, -⟩
    · exact hrecv
    · exact absurd ⟨x, hx, hend⟩ (hnot n)
  cases hw : c.write with
  | true =>
    have hsome : ∀ n, ∃ x, (r.state n).state.sender = some x := fun n => by
      refine Option.ne_none_iff_exists'.mp fun hx => ?_
      rw [(Session.inv r n).noSender hx] at hw
      cases hw
    have halarm : ∀ n, r.label n = .sendTimer →
        (r.state n).sendClock.timeout + c.rexmtval < c.maxtimeout := by
      intro n hl
      obtain ⟨x, hx⟩ := hsome n
      exact hintime.sender n (hnot n) hl x hx ((hsending n x hx).le.trans_lt hblocks)
    have hticks := fun n => step_sender (r.next n)
    have hgoing := going_of_ticks hticks (by rw [r.init]; rfl) halarm
    obtain ⟨x, hx⟩ := hsome N
    refine not_frequently_alarm hticks halarm (N := N) (b := some x.block) (fun n hn => ?_)
      (ha.sendTimer (eventually_atTop.mpr ⟨N, fun n _ => ⟨hgoing n, ?_⟩⟩))
    · obtain ⟨y, hy⟩ := hsome n
      have hrank := (hN n hn).1
      have hy' := (sendRank_eq_succ (s := (r.state n).state)).mpr ⟨y, hy, rfl⟩
      have hx' := (sendRank_eq_succ (s := (r.state N).state)).mpr ⟨x, hx, rfl⟩
      rw [hy, Option.map_some]
      have : y.block + 1 = x.block + 1 := hy'.symm.trans (hrank.trans hx')
      rw [Nat.succ.inj this]
    · obtain ⟨y, hy⟩ := hsome n
      exact ⟨y, hy, (hsending n y hy).running⟩
  | false =>
    have hsome : ∀ n, ∃ x, (r.state n).state.receiver = some x := fun n => by
      refine Option.ne_none_iff_exists'.mp fun hx => ?_
      rw [((Session.inv r n).noReceiver hx).1] at hw
      cases hw
    have halarm : ∀ n, r.label n = .recvTimer →
        (r.state n).recvClock.timeout + c.rexmtval < c.maxtimeout := by
      intro n hl
      obtain ⟨x, hx⟩ := hsome n
      exact hintime.receiver n (hnot n) hl x hx ((hreceiving n x hx).le.trans_lt hblocks)
    have hticks := fun n => step_receiver (r.next n)
    have hgoing := going_of_ticks hticks (by rw [r.init]; rfl) halarm
    obtain ⟨x, hx⟩ := hsome N
    refine not_frequently_alarm hticks halarm (N := N) (b := some x.block) (fun n hn => ?_)
      (ha.recvTimer (eventually_atTop.mpr ⟨N, fun n _ => ⟨hgoing n, ?_⟩⟩))
    · obtain ⟨y, hy⟩ := hsome n
      have hrank := (hN n hn).2
      have hy' := (recvRank_eq_succ (s := (r.state n).state)).mpr ⟨y, hy, rfl⟩
      have hx' := (recvRank_eq_succ (s := (r.state N).state)).mpr ⟨x, hx, rfl⟩
      have hacc' : y.accepted + 1 = x.accepted + 1 := hy'.symm.trans (hrank.trans hx')
      have hyr := hreceiving n y hy
      have hxr := hreceiving N x hx
      rw [hyr.accepted, hxr.accepted] at hacc'
      have hypos := hyr.pos
      have hxpos := hxr.pos
      rw [hy, Option.map_some]
      congr 1
      omega
    · obtain ⟨y, hy⟩ := hsome n
      exact ⟨y, hy, (hreceiving n y hy).running⟩

end Unitas.Tftp
