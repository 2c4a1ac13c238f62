import Unitas.Tftp.Runs

/-! When a transfer succeeds. That there are runs in which alarms go off is shown by a schedule
that takes turns: deliver the packet each side is at, let each alarm go off. -/
namespace Unitas.Tftp
open Unitas.Transition Filter

def turn (c : Config) (n : ℕ) (t : Transfer) : Label :=
  match n % 4 with
  | 0 => match t.state.sender with
    | some x => if x.packet ∈ t.state.fromSender then .toReceiver x.packet else .idle
    | none => .idle
  | 1 => match t.state.receiver with
    | some x => if x.ackbuf ∈ t.state.fromReceiver then .toSender x.ackbuf else .idle
    | none => .idle
  | 2 => match t.state.sender with
    | some x => if x.ended ∨ t.sendClock.gone ∨ c.rexmtval = 0 then .idle else .sendTimer
    | none => .idle
  | _ => match t.state.receiver with
    | some x => if x.ended ∨ t.recvClock.gone ∨ c.rexmtval = 0 then .idle else .recvTimer
    | none => .idle

theorem isSome_step_turn (c : Config) (n : ℕ) (t : Transfer) :
    (c.step t (turn c n t)).isSome := by
  unfold turn
  split <;> split <;> try split_ifs
  all_goals simp_all [Config.step, Config.exchange]
  all_goals split_ifs <;> rfl

def turns (c : Config) : Session c :=
  Exec.ofSchedule (turn c) (isSome_step_turn c) c.start

theorem alarmed_turns {c : Config} (hpos : c.rexmtval ≠ 0) : Alarmed (turns c) where
  sendTimer h := by
    obtain ⟨N, hN⟩ := eventually_atTop.mp h
    refine frequently_mod (k := 4) (i := 2) (N := N) (by omega) fun n hn hmod => ?_
    obtain ⟨hgoing, x, hx, hrun⟩ := hN n hn
    change turn c n ((turns c).state n) = _
    simp [turn, hmod, hx, hrun, hgoing, hpos]
  recvTimer h := by
    obtain ⟨N, hN⟩ := eventually_atTop.mp h
    refine frequently_mod (k := 4) (i := 3) (N := N) (by omega) fun n hn hmod => ?_
    obtain ⟨hgoing, x, hx, hrun⟩ := hN n hn
    change turn c n ((turns c).state n) = _
    simp [turn, hmod, hx, hrun, hgoing, hpos]

/-- The bytes written are a prefix of the file in every run. One in which alarms go off comes to the
sender's end and the whole file if and only if the blocks' numbers fit into sixteen bits, the
alarms of no block add up to `maxtimeout` before the receiver ends, and the last acknowledgement
comes before the sender gives up. -/
theorem transfer_iff (c : Config) (r : Session c) :
    (∀ n, (r.state n).state.written <+: c.file) ∧
      (Alarmed r → ((∃ n, (r.state n).state.Complete c) ↔
        c.file.length < 65535 * segSize ∧ InTime r ∧ LastAckArrives r)) := by
  refine ⟨fun n => (Session.inv r n).written, fun ha => ?_⟩
  rw [← blocks_lt_iff]
  constructor
  · rintro ⟨n, hend⟩
    exact ⟨(Session.inv r n).blocks_of_senderEnded hend.1, Session.inTime hend,
      Session.lastAckArrives hend.1⟩
  · rintro ⟨hblocks, hintime, hlast⟩
    obtain ⟨n, hn⟩ := Session.exists_receiverEnded ha hblocks hintime
    exact Session.complete_of_receiverEnded hblocks hlast hn

/-- A file of `65535 * 512` bytes is sent as `65536` blocks. The last has the number `0` on
the wire, so the receiver never takes it, whatever the network does. -/
theorem transfer_not_complete :
    let c : Config := ⟨List.replicate (65535 * segSize) 0, true, 0, 5, 25⟩
    (∃ r : Session c, Alarmed r) ∧ ∀ (r : Session c) (n : ℕ),
      ¬ (r.state n).state.ReceiverEnded ∧ ¬ (r.state n).state.SenderEnded := by
  intro c
  have hblocks : ¬ c.blocks < 65536 := by
    rw [blocks_lt_iff, List.length_replicate]
    exact lt_irrefl _
  refine ⟨⟨turns c, alarmed_turns (Nat.succ_ne_zero 4)⟩, fun r n => ⟨fun hend => ?_, fun hend => ?_⟩⟩
  · exact hblocks ((Session.inv r n).blocks_of_receiverEnded hend)
  · exact hblocks ((Session.inv r n).blocks_of_senderEnded hend)

end Unitas.Tftp
