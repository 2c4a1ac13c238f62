import Unitas.Lib.Hoare
import Unitas.Lib.Weave
import Unitas.Sccs.Rdmod

/-! The body of an s-file as a weave, and the queue as its open blocks. -/
namespace Unitas.Sccs
open Unitas.Hoare Unitas.Weave

/-- What a line of the body is. -/
def item (maxser : ℕ) (l : Line) : Option (Item Line) :=
  if chr l ≠ CTLCHAR then some (.text l)
  else
    let iord := chr l.tail
    let ser := (satoi (NONBLANK l.tail.tail)).1
    if ¬ (0 < ser ∧ ser ≤ maxser) then none
    else if iord = END then some (.stop ser)
    else if iord = INS ∨ iord = DEL then some (.start (iord == INS) ser)
    else none

def Queue.block (e : Queue) : ℕ × Bool := (e.q_sernum, e.q_iord == INS)

/-- The queue says of each block what the applied deltas make of it. -/
def Honest (applied : ℕ → Bool) (q : List Queue) : Prop :=
  ∀ e ∈ q, (e.q_iord = INS ∨ e.q_iord = DEL) ∧ e.q_keep = blockKeep (applied e.q_sernum) e.q_iord

variable {applied : ℕ → Bool}

theorem insertq_block (e : Queue) (q : List Queue) :
    (insertq e q).map (·.map Queue.block) = enter e.q_sernum (e.q_iord == INS) (q.map Queue.block) := by
  induction q with
  | nil => rfl
  | cons cur q ih =>
    rw [insertq, List.map_cons, enter]
    have hser : cur.block.1 = cur.q_sernum := rfl
    rw [hser]
    split_ifs
    · rfl
    · rfl
    · rw [← ih, Option.map_map, Option.map_map]
      rfl

theorem removeq_block (ser : ℕ) (q : List Queue) :
    (removeq ser q).map (·.map Queue.block) = leave ser (q.map Queue.block) := by
  induction q with
  | nil => rfl
  | cons cur q ih =>
    rw [removeq, List.map_cons, leave]
    have hser : cur.block.1 = cur.q_sernum := rfl
    rw [hser]
    split_ifs
    · rfl
    · rw [← ih, Option.map_map, Option.map_map]
      rfl

theorem mem_insertq {e : Queue} {q q' : List Queue} (h : insertq e q = some q') {c : Queue}
    (hc : c ∈ q') : c = e ∨ c ∈ q := by
  induction q generalizing q' with
  | nil =>
    cases h
    exact Or.inl (List.mem_singleton.mp hc)
  | cons cur q ih =>
    rw [insertq] at h
    split_ifs at h
    · cases h
      exact List.mem_cons.mp hc
    · obtain ⟨t, ht, rfl⟩ := Option.map_eq_some_iff.mp h
      rcases List.mem_cons.mp hc with rfl | hc
      · exact Or.inr List.mem_cons_self
      · exact (ih ht hc).imp_right (List.mem_cons_of_mem cur)

theorem mem_removeq {ser : ℕ} {q q' : List Queue} (h : removeq ser q = some q') {c : Queue}
    (hc : c ∈ q') : c ∈ q := by
  induction q generalizing q' with
  | nil => cases h
  | cons cur q ih =>
    rw [removeq] at h
    split_ifs at h
    · cases h
      exact List.mem_cons_of_mem cur hc
    · obtain ⟨t, ht, rfl⟩ := Option.map_eq_some_iff.mp h
      rcases List.mem_cons.mp hc with rfl | hc
      · exact List.mem_cons_self
      · exact List.mem_cons_of_mem cur (ih ht hc)

/-- What `p_keep` says is what the open blocks show. -/
theorem setkeep_visible {q : List Queue} (h : Honest applied q) :
    setkeep q = YES ↔ visible applied (q.map Queue.block) = true := by
  induction q with
  | nil => simp [setkeep, visible, NO, YES]
  | cons e q ih =>
    obtain ⟨⟨hiord, hkeep⟩, hq⟩ := List.forall_mem_cons.mp h
    have ih := ih hq
    rw [setkeep, List.map_cons, visible, hkeep]
    have hins : (INS == INS) = true := rfl
    have hdel : (DEL == INS) = false := rfl
    have hne : DEL ≠ INS := by decide
    cases happ : applied e.q_sernum with
    | true =>
      rcases hiord with hi | hi
      · simp [Queue.block, blockKeep, hi, happ, YES]
      · simp [Queue.block, blockKeep, hi, happ, hne, NO, YES, hdel]
    | false =>
      rcases hiord with hi | hi
      · simp [Queue.block, blockKeep, hi, happ, NO, YES]
      · simp [Queue.block, blockKeep, hi, happ, hne, hdel, ih]

def setQueue (pkt : Packet) (q : List Queue) : Packet := { pkt with p_q := q, p_keep := setkeep q }

theorem setq_eq (q : Option (List Queue)) (pkt : Packet) :
    setq q pkt = q.map fun q => ((), setQueue pkt q) := by
  cases q with
  | none => rfl
  | some q => rfl

/-- What a control line does. -/
def controlled (pkt : Packet) : Item Line → Option (List Queue)
  | .text _ => none
  | .start ins ser =>
    let iord := if ins then INS else DEL
    insertq ⟨ser, blockKeep ((pkt.p_apply ser).a_code = APPLY) iord, iord⟩ pkt.p_q
  | .stop ser => removeq ser pkt.p_q

theorem control_cases (l : Line) (pkt : Packet) : control l pkt =
    let iord := chr l.tail
    let ser := (satoi (NONBLANK l.tail.tail)).1
    if iord ≠ INS ∧ iord ≠ DEL ∧ iord ≠ END then none
    else if ¬ (0 < ser ∧ ser ≤ pkt.maxser) then none
    else if iord = END then setq (removeq ser pkt.p_q) pkt
    else setq (insertq ⟨ser, blockKeep ((pkt.p_apply ser).a_code = APPLY) iord, iord⟩ pkt.p_q)
      pkt := by
  change ((fatalIf (chr l.tail ≠ INS ∧ chr l.tail ≠ DEL ∧ chr l.tail ≠ END) : M Unit) pkt).bind
    _ = _
  unfold fatalIf doIf
  dsimp only
  split_ifs
  all_goals rfl

theorem control_eq {l : Line} (hl : chr l = CTLCHAR) (pkt : Packet) : control l pkt =
    ((item pkt.maxser l).bind (controlled pkt)).map fun q => ((), setQueue pkt q) := by
  rw [control_cases, item, if_neg (not_not.mpr hl)]
  dsimp only
  by_cases hser : 0 < (satoi (NONBLANK l.tail.tail)).1 ∧
    (satoi (NONBLANK l.tail.tail)).1 ≤ pkt.maxser
  · rw [if_neg (not_not.mpr hser), if_neg (not_not.mpr hser)]
    have hDI : DEL ≠ INS := by decide
    have hIE : INS ≠ END := by decide
    have hDE : DEL ≠ END := by decide
    by_cases hend : chr l.tail = END
    · rw [if_neg (by simp [hend]), if_pos hend, if_pos hend, setq_eq]
      rfl
    · rw [if_neg hend, if_neg hend, setq_eq]
      by_cases hins : chr l.tail = INS
      · rw [if_neg (by simp [hins]), if_pos (Or.inl hins), hins]
        rfl
      · by_cases hdel : chr l.tail = DEL
        · rw [if_neg (by simp [hdel]), if_pos (Or.inr hdel), hdel]
          rfl
        · rw [if_pos ⟨hins, hdel, hend⟩, if_neg (not_or.mpr ⟨hins, hdel⟩)]
          rfl
  · rw [if_pos hser, ite_self, if_pos hser]
    rfl

end Unitas.Sccs
