import Unitas.Tftp.Sides

/-! The moves of a transfer. Every step of the two sides and the network is one of them, and
each keeps what holds between the sides. -/
namespace Unitas.Tftp
open Unitas.Transition

/-- How many blocks the receiver has taken. -/
def Receiver.accepted (r : Receiver) : ℕ := if r.ended then r.block else r.block - 1

def State.block (s : State) : ℕ := (s.sender.map Sender.block).getD 0

def State.accepted (s : State) : ℕ := (s.receiver.map Receiver.accepted).getD 0

def SenderOk (c : Config) (x : Sender) : Prop :=
  Sending c x ∨ x.ended = true ∧ x.block = c.blocks + 1

def ReceiverOk (c : Config) (x : Receiver) : Prop :=
  Receiving c x ∨ x.ended = true ∧ x.block = c.blocks ∧ x.file = c.file

structure Inv (c : Config) (s : State) : Prop where
  sender : ∀ x, s.sender = some x → SenderOk c x
  receiver : ∀ x, s.receiver = some x → ReceiverOk c x
  noSender : s.sender = none → c.write = false
  noReceiver : s.receiver = none → c.write = true ∧ s.fromReceiver = [] ∧ s.block = 0
  accepted_le : s.accepted ≤ s.block
  block_le : s.block ≤ s.accepted + 1
  wire : s.accepted < 65536
  fromSender : ∀ p ∈ s.fromSender, ∃ j, j ≤ s.block ∧ j ≤ c.blocks ∧ p = c.sent j
  fromReceiver : ∀ p ∈ s.fromReceiver, ∃ j, j ≤ s.accepted ∧ p = c.acked j

variable {c : Config} {s s' : State} {l : Label}

inductive Move (c : Config) (s : State) (l : Label) : State → Prop
  | stay : Move c s l s
  | resend {x : Sender} {ps : List Packet} (hx : s.sender = some x) (h : Sending c x)
      (hps : ∀ q ∈ ps, q = c.sent x.block) : Move c s l (s.sends (x, ps))
  | advance {x x' : Sender} (hx : s.sender = some x) (hasked : s.receiver ≠ none)
      (hacc : x.block = s.accepted) (h : Sending c x')
      (hblock : x'.block = x.block + 1) : Move c s l (s.sends (x', [c.sent (x.block + 1)]))
  /-- The acknowledgement of the last block ends the sender's loop. -/
  | finish {x : Sender} (hx : s.sender = some x) (hasked : s.receiver ≠ none)
      (hacc : x.block = s.accepted) (hlast : x.block = c.blocks)
      (hl : l = .toSender (.ack (UInt16.ofNat c.blocks))) :
      Move c s l (s.sends ({ x with block := c.blocks + 1, ended := true }, []))
  | answerRead {x' : Sender} (hx : s.sender = none) (h : Sending c x') (hblock : x'.block = 1) :
      Move c s l (s.sends (x', [c.sent 1]))
  | reply {x x' : Receiver} {ps : List Packet} (hx : s.receiver = some x) (hr : Receiving c x)
      (h : Receiving c x') (hblock : x'.block = x.block)
      (hps : ∀ q ∈ ps, q = c.acked (x.block - 1)) : Move c s l (s.replies (x', ps))
  /-- The receiver takes its block; of the sixteen-bit numbers only its own is equal to it. -/
  | accept {x x' : Receiver} (hx : s.receiver = some x) (hr : Receiving c x)
      (hblk : x.block ≤ s.block) (hwire : x.block < 65536) (h : ReceiverOk c x')
      (hacc : x'.accepted = x.block) : Move c s l (s.replies (x', [c.acked x.block]))
  | answerWrite {x' : Receiver} (hx : s.receiver = none) (h : Receiving c x')
      (hblock : x'.block = 1) : Move c s l (s.replies (x', [c.acked 0]))

theorem Receiving.accepted {x : Receiver} (h : Receiving c x) : x.accepted = x.block - 1 := by
  simp [Receiver.accepted, h.running]

theorem SenderOk.sending {x : Sender} (h : SenderOk c x) (hrun : x.ended = false) :
    Sending c x := by
  rcases h with h | ⟨hend, -⟩
  · exact h
  · simp [hrun] at hend

theorem ReceiverOk.receiving {x : Receiver} (h : ReceiverOk c x) (hrun : x.ended = false) :
    Receiving c x := by
  rcases h with h | ⟨hend, -⟩
  · exact h
  · simp [hrun] at hend

theorem State.block_some {x : Sender} (hx : s.sender = some x) : s.block = x.block := by
  simp [State.block, hx]

theorem State.accepted_some {x : Receiver} (hx : s.receiver = some x) :
    s.accepted = x.accepted := by
  simp [State.accepted, hx]

theorem toNat_ofNat {j : ℕ} (hj : j < 65536) : (UInt16.ofNat j).toNat = j :=
  UInt16.toNat_ofNat_of_lt' hj

theorem ofNat_of_acked {j : ℕ} {th : UInt16} (h : c.acked j = .ack th) : th = UInt16.ofNat j := by
  unfold Config.acked at h
  split_ifs at h
  exact (Packet.ack.inj h).symm

theorem eq_of_sent {j : ℕ} {th : UInt16} {data : List UInt8} (h : c.sent j = .data th data) :
    th = UInt16.ofNat j ∧ data = c.chunk j := by
  unfold Config.sent at h
  split_ifs at h
  exact ⟨(Packet.data.inj h).1.symm, (Packet.data.inj h).2.symm⟩

/-! ### Every step is a move -/

theorem Inv.sendTimer (h : Inv c s) (hs : c.exchange s .sendTimer = some s') :
    Move c s .sendTimer s' := by
  obtain ⟨x, hx, rfl⟩ := Option.map_eq_some_iff.mp hs
  obtain ⟨hx, hrun⟩ := Option.filter_eq_some_iff.mp hx
  have hsend := (h.sender x hx).sending (by simpa using hrun)
  rw [hsend.sendData]
  exact .resend hx hsend (by simp)

theorem Inv.recvTimer (h : Inv c s) (hs : c.exchange s .recvTimer = some s') :
    Move c s .recvTimer s' := by
  obtain ⟨x, hx, rfl⟩ := Option.map_eq_some_iff.mp hs
  obtain ⟨hx, hrun⟩ := Option.filter_eq_some_iff.mp hx
  have hrecv := (h.receiver x hx).receiving (by simpa using hrun)
  rw [hrecv.sendAck]
  exact .reply hx hrecv hrecv rfl (by simp)

theorem Inv.toSender (h : Inv c s) {p : Packet} (hs : c.exchange s (.toSender p) = some s') :
    Move c s (.toSender p) s' := by
  obtain ⟨hp, hs⟩ := Option.ite_none_right_eq_some.mp hs
  obtain ⟨j, hj, hpj⟩ := h.fromReceiver p hp
  rw [← Option.some.inj hs, Config.toSender]
  cases hx : s.sender with
  | none =>
    simp only
    split_ifs with hreq
    · obtain ⟨x', hans, hx', hblock⟩ := sending_answerRead c
      rw [hans]
      exact .answerRead hx hx' hblock
    · exact .stay
  | some x =>
    simp only
    split_ifs with hend
    · exact .stay
    have hsend := (h.sender x hx).sending (by simpa using hend)
    by_cases hmatch : ∃ th, p = .ack th ∧ th.toNat = x.block
    · obtain ⟨th, rfl, hth⟩ := hmatch
      have hwire := h.wire
      have hle := h.accepted_le
      have hthj := ofNat_of_acked hpj.symm
      have hjx : j = x.block := by rw [← hth, hthj, toNat_ofNat (by omega)]
      have hacc : x.block = s.accepted := by rw [State.block_some hx] at hle; omega
      have hasked : s.receiver ≠ none := fun hn => by simp [(h.noReceiver hn).2.1] at hp
      rcases Nat.lt_or_ge x.block c.blocks with hlt | hge
      · obtain ⟨x', hrecv, hx', hblock⟩ := hsend.recvfrom_ack_lt hth hlt
        rw [hrecv]
        exact .advance hx hasked hacc hx' hblock
      · have hlast : x.block = c.blocks := le_antisymm hsend.le hge
        rw [hsend.recvfrom_ack_last hth hlast]
        exact .finish hx hasked hacc hlast (by rw [hthj, hjx, hlast])
    · obtain ⟨ps, hrecv, hps⟩ := hsend.recvfrom_other fun th hth hblock =>
        hmatch ⟨th, hth, hblock⟩
      rw [hrecv]
      exact .resend hx hsend hps

/-- What the receiver does with its next block. -/
theorem Receiving.recvfrom_data {x : Receiver} (h : Receiving c x) {th : UInt16}
    (hth : th.toNat = x.block) :
    ∃ x', x.recvfrom (.data th (c.chunk x.block)) = (x', [c.acked x.block]) ∧
      ReceiverOk c x' ∧ x'.accepted = x.block := by
  rcases Nat.lt_or_ge x.block c.blocks with hlt | hge
  · obtain ⟨x', hrecv, hx', hblock⟩ := h.recvfrom_data_lt hth hlt
    exact ⟨x', hrecv, .inl hx', by rw [hx'.accepted, hblock, Nat.add_sub_cancel]⟩
  · have hlast : x.block = c.blocks := le_antisymm h.le hge
    obtain ⟨x', hrecv, hend, hblock, hfile⟩ := h.recvfrom_data_last hth hlast
    exact ⟨x', hrecv, .inr ⟨hend, hblock, hfile⟩,
      by rw [Receiver.accepted, if_pos hend, hblock, hlast]⟩

theorem Inv.toReceiver (h : Inv c s) {p : Packet} (hs : c.exchange s (.toReceiver p) = some s') :
    Move c s (.toReceiver p) s' := by
  obtain ⟨hp, hs⟩ := Option.ite_none_right_eq_some.mp hs
  obtain ⟨j, hj, -, hpj⟩ := h.fromSender p hp
  rw [← Option.some.inj hs, Config.toReceiver]
  cases hx : s.receiver with
  | none =>
    simp only
    split_ifs with hreq
    · obtain ⟨x', hans, hx', hblock⟩ := receiving_answerWrite (h.noReceiver hx).1
      rw [hans]
      exact .answerWrite hx hx' hblock
    · exact .stay
  | some x =>
    simp only
    split_ifs with hend
    · exact .stay
    have hrecv := (h.receiver x hx).receiving (by simpa using hend)
    by_cases hmatch : ∃ th data, p = .data th data ∧ th.toNat = x.block
    · obtain ⟨th, data, rfl, hth⟩ := hmatch
      obtain ⟨hthj, rfl⟩ := eq_of_sent hpj.symm
      have hwire : x.block < 65536 := by rw [← hth]; exact th.toNat_lt
      have hblk := h.block_le
      have hacc := State.accepted_some hx
      have hpos := hrecv.pos
      rw [hrecv.accepted] at hacc
      -- `j` is at most `65536`, whose number on the wire is `0`.
      have hjx : j = x.block := by
        have hmod : j % 65536 = x.block := by
          rw [← hth, hthj]
          exact (UInt16.toNat_ofNat' ..).symm
        omega
      rw [hjx] at hj ⊢
      obtain ⟨x', hdata, hok, hacc'⟩ := hrecv.recvfrom_data hth
      rw [hdata]
      exact .accept hx hrecv hj hwire hok hacc'
    · obtain ⟨x', ps, hother, hx', hblock, hps⟩ := hrecv.recvfrom_other
        fun th data hth hblock => hmatch ⟨th, data, hth, hblock⟩
      rw [hother]
      exact .reply hx hrecv hx' hblock hps

theorem Inv.move (h : Inv c s) (hs : c.exchange s l = some s') : Move c s l s' := by
  cases l with
  | sendTimer => exact h.sendTimer hs
  | recvTimer => exact h.recvTimer hs
  | toSender p => exact h.toSender hs
  | toReceiver p => exact h.toReceiver hs
  | idle => exact Option.some.inj hs ▸ .stay

/-! ### Every move keeps what holds between the sides -/

theorem Inv.sends (h : Inv c s) {x' : Sender} {ps : List Packet} (hok : SenderOk c x')
    (hle : s.block ≤ x'.block) (hacc : x'.block ≤ s.accepted + 1)
    (hasked : s.receiver = none → x'.block = 0)
    (hps : ∀ q ∈ ps, ∃ j, j ≤ x'.block ∧ j ≤ c.blocks ∧ q = c.sent j) :
    Inv c (s.sends (x', ps)) where
  sender x hx := Option.some.inj hx ▸ hok
  receiver := h.receiver
  noSender hx := nomatch hx
  noReceiver hx := ⟨(h.noReceiver hx).1, (h.noReceiver hx).2.1, hasked hx⟩
  accepted_le := h.accepted_le.trans hle
  block_le := hacc
  wire := h.wire
  fromSender p hp := by
    rcases List.mem_append.mp hp with hp | hp
    · obtain ⟨j, hj, hrest⟩ := h.fromSender p hp
      exact ⟨j, hj.trans hle, hrest⟩
    · exact hps p hp
  fromReceiver := h.fromReceiver

theorem Inv.replies (h : Inv c s) {x' : Receiver} {ps : List Packet} (hok : ReceiverOk c x')
    (hle : s.accepted ≤ x'.accepted) (hblock : x'.accepted ≤ s.block)
    (hwire : x'.accepted < 65536) (hps : ∀ q ∈ ps, ∃ j, j ≤ x'.accepted ∧ q = c.acked j) :
    Inv c (s.replies (x', ps)) where
  sender := h.sender
  receiver x hx := Option.some.inj hx ▸ hok
  noSender := h.noSender
  noReceiver hx := nomatch hx
  accepted_le := hblock
  block_le := h.block_le.trans (Nat.succ_le_succ hle)
  wire := hwire
  fromSender := h.fromSender
  fromReceiver p hp := by
    rcases List.mem_append.mp hp with hp | hp
    · obtain ⟨j, hj, hrest⟩ := h.fromReceiver p hp
      exact ⟨j, hj.trans hle, hrest⟩
    · exact hps p hp

theorem Inv.of_move (h : Inv c s) (hm : Move c s l s') : Inv c s' := by
  have hle := h.accepted_le
  have hge := h.block_le
  have hwire := h.wire
  cases hm with
  | stay => exact h
  | resend hx hsend hps =>
    have hblock := State.block_some hx
    refine h.sends (.inl hsend) hblock.le (hblock ▸ hge)
      (fun hn => hblock ▸ (h.noReceiver hn).2.2) ?_
    exact fun q hq => ⟨_, le_rfl, hsend.le, hps q hq⟩
  | advance hx hasked hacc hsend hblock =>
    have hblock' := State.block_some hx
    refine h.sends (.inl hsend) (by omega) (by omega) (fun hn => absurd hn hasked) ?_
    intro q hq
    rw [List.mem_singleton.mp hq, ← hblock]
    exact ⟨_, le_rfl, hsend.le, rfl⟩
  | finish hx hasked hacc hlast hl =>
    have hblock := State.block_some hx
    refine h.sends (.inr ⟨rfl, rfl⟩) ?_ ?_ (fun hn => absurd hn hasked) (by simp)
    · change s.block ≤ c.blocks + 1
      omega
    · change c.blocks + 1 ≤ s.accepted + 1
      omega
  | answerRead hx hsend hblock =>
    have hblock' : s.block = 0 := by simp [State.block, hx]
    refine h.sends (.inl hsend) (by omega) (by omega) (fun hn => ?_) ?_
    · exact absurd (h.noReceiver hn).1 (by simp [h.noSender hx])
    · intro q hq
      rw [List.mem_singleton.mp hq, ← hblock]
      exact ⟨_, le_rfl, hsend.le, rfl⟩
  | reply hx hr hrecv hblock hps =>
    have hacc : s.accepted = _ := (State.accepted_some hx).trans hr.accepted
    have hacc' := hrecv.accepted
    rw [hblock] at hacc'
    refine h.replies (.inl hrecv) (by omega) (by omega) (by omega) ?_
    exact fun q hq => ⟨_, hacc'.ge, hps q hq⟩
  | accept hx hr hblk hwire' hok hacc =>
    have hacc' : s.accepted = _ := (State.accepted_some hx).trans hr.accepted
    refine h.replies hok (by omega) (by omega) (by omega) ?_
    intro q hq
    rw [List.mem_singleton.mp hq]
    exact ⟨_, hacc.ge, rfl⟩
  | answerWrite hx hrecv hblock =>
    have hacc : s.accepted = 0 := by simp [State.accepted, hx]
    have hacc' := hrecv.accepted
    refine h.replies (.inl hrecv) (by omega) (by omega) (by omega) ?_
    intro q hq
    rw [List.mem_singleton.mp hq]
    exact ⟨0, Nat.zero_le _, rfl⟩

theorem inv_init (c : Config) : Inv c c.init := by
  unfold Config.init
  split_ifs with hw
  · obtain ⟨x, hx, hsend, hblock⟩ := sending_sendfile hw
    rw [hx]
    exact
      { sender := fun y hy => Option.some.inj hy ▸ .inl hsend
        receiver := nofun
        noSender := nofun
        noReceiver := fun _ => ⟨hw, rfl, hblock⟩
        accepted_le := Nat.zero_le _
        block_le := by change x.block ≤ 1; omega
        wire := Nat.succ_pos _
        fromSender := fun p hp => ⟨0, Nat.zero_le _, Nat.zero_le _, List.mem_singleton.mp hp⟩
        fromReceiver := nofun }
  · obtain ⟨x, hx, hrecv, hblock⟩ := receiving_recvfile (c := c) (by simpa using hw)
    have hacc := hrecv.accepted
    rw [hx]
    exact
      { sender := nofun
        receiver := fun y hy => Option.some.inj hy ▸ .inl hrecv
        noSender := fun _ => by simpa using hw
        noReceiver := nofun
        accepted_le := by change x.accepted ≤ 0; omega
        block_le := Nat.zero_le _
        wire := by change x.accepted < 65536; omega
        fromSender := nofun
        fromReceiver := fun p hp => ⟨0, Nat.zero_le _, List.mem_singleton.mp hp⟩ }

/-- At every moment the receiver has written a prefix of the file. -/
theorem Inv.written (h : Inv c s) : s.written <+: c.file := by
  cases hx : s.receiver with
  | none => simp [State.written, hx]
  | some x =>
    have hwritten : s.written = x.file := by simp [State.written, hx]
    rcases h.receiver x hx with hrecv | ⟨-, -, hfile⟩
    · rw [hwritten, hrecv.file]
      exact List.take_prefix ..
    · exact (hwritten.trans hfile) ▸ List.prefix_rfl

end Unitas.Tftp
