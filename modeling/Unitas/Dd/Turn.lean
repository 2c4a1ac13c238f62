import Unitas.Dd.Process

/-! A turn of the loop of `dd` by its parts: reading, conversion, and what is done with the block. -/
namespace Unitas.Dd
open Unitas.ByteStream Unitas.CInt

variable (ready : ℕ → ℕ)

/-- What is written is counted. -/
def State.put (a : Args) (bytes : List UInt8) (d : State) : State :=
  let d := { d with written := d.written ++ bytes }
  if bytes.length < a.obs then { d with ogotp := d.ogotp + 1 } else { d with ogotf := d.ogotf + 1 }

/-- The block counter. -/
def endTurn (a : Args) (d : State) : Except Stop State :=
  if a.bcount = 0 then .ok d
  else if d.counter = 1 then .error (.done d)
  else .ok { d with counter := d.counter - 1 }

/-- The end of a turn, for a block of `s` bytes. -/
def copyOut (a : Args) (s : ℕ) (d : State) : Except Stop State := do
  let d ← blkcpy a d
  let bytes ← writeOut a s d.obuf
  endTurn a (d.put a bytes)

/-- A block of `s` bytes is counted. -/
def State.counted (a : Args) (s : ℕ) (d : State) : State :=
  if s < a.ibs then { d with igotp := d.igotp + 1 } else { d with igotf := d.igotf + 1 }

section Counted
variable (a : Args) (s : ℕ) (d : State)

@[simp] theorem counted_input : (d.counted a s).input = d.input := by
  unfold State.counted
  split_ifs <;> rfl

@[simp] theorem counted_ibuf : (d.counted a s).ibuf = d.ibuf := by
  unfold State.counted
  split_ifs <;> rfl

@[simp] theorem counted_obuf : (d.counted a s).obuf = d.obuf := by
  unfold State.counted
  split_ifs <;> rfl

@[simp] theorem counted_written : (d.counted a s).written = d.written := by
  unfold State.counted
  split_ifs <;> rfl

@[simp] theorem counted_counter : (d.counted a s).counter = d.counter := by
  unfold State.counted
  split_ifs <;> rfl

end Counted

/-- The state when `bytes` have been read. -/
def State.filled (d : State) (bytes : List UInt8) (input : Input) : State :=
  { d with input, ibuf := bytes ++ d.ibuf.drop bytes.length }

variable {ready} {a : Args} {d : State} {bytes : List UInt8} {input : Input}

theorem readIn_eq (hblock : a.mode.block = false)
    (hread : d.input.fread ready a.ibs = (bytes, input)) : readIn ready a d =
      .ok (bytes.length, d.filled bytes input) := by
  rw [readIn, hblock, hread]
  rfl

theorem turn_eof (heof : d.input.eof = true) : turn ready a d = .error (.done d) := by
  rw [turn, heof]
  rfl

/-- A turn that gets nothing. -/
theorem turn_empty (hblock : a.mode.block = false) (heof : d.input.eof = false)
    (hread : d.input.fread ready a.ibs = ([], input)) :
    turn ready a d = .ok { d with input } := by
  rw [turn, heof, readIn_eq hblock hread]
  rfl

/-- A block that is cut short by an error ends the program. -/
theorem turn_failed (hblock : a.mode.block = false) (hnoerror : a.mode.noerror = false)
    (heof : d.input.eof = false) (hread : d.input.fread ready a.ibs = (bytes, input))
    (hne : bytes ≠ []) (herr : input.error = true) : turn ready a d = .error (.exit 1) := by
  have hzero : bytes.length ≠ 0 := fun h => hne (List.length_eq_zero_iff.mp h)
  have herr : (d.filled bytes input).input.error = true := herr
  rw [turn, heof, readIn_eq hblock hread, hnoerror]
  simp only [bind, Except.bind, pure, Except.pure, hzero, herr]
  rfl

/-- A turn that gets something, without an error that ends the program. -/
theorem turn_of_readIn {d₁ : State} {s : ℕ} (heof : d.input.eof = false)
    (hin : readIn ready a d = .ok (s, d₁)) (hs : s ≠ 0)
    (herr : (d₁.input.error && !a.mode.noerror) = false) :
    turn ready a d = convert a (d₁.counted a s) >>= copyOut a s := by
  rw [turn, heof, hin]
  simp only [bind, Except.bind, pure, Except.pure, Bool.false_eq_true, if_false, hs, herr]
  rfl

/-- A turn that gets a block. -/
theorem turn_eq (hblock : a.mode.block = false) (heof : d.input.eof = false)
    (hread : d.input.fread ready a.ibs = (bytes, input)) (hne : bytes ≠ [])
    (herr : input.error = false) : turn ready a d =
      convert a ((d.filled bytes input).counted a bytes.length) >>= copyOut a bytes.length :=
  turn_of_readIn heof (readIn_eq hblock hread) (fun h => hne (List.length_eq_zero_iff.mp h))
    (Bool.and_eq_false_iff.mpr (.inl herr))

/-- `blkcpy` with the number of bytes it copies taken out. -/
theorem blkcpyLen_eq {a : Args} {d : State} (n : ℕ) (hibuf : d.ibuf.length = a.ibs)
    (hobuf : d.obuf.length = a.obs) :
    (do
      let obuf ← memset d.obuf 0 a.obs
      let obuf ← memcpy obuf d.ibuf n
      return { d with obuf, truncs := if a.obs < a.ibs then d.truncs + 1 else d.truncs }) =
      if n ≤ a.obs ∧ n ≤ a.ibs then
        Except.ok { d with
          obuf := d.ibuf.take n ++ List.replicate (a.obs - n) 0
          truncs := if a.obs < a.ibs then d.truncs + 1 else d.truncs }
      else .error .undefined := by
  have hset : memset d.obuf 0 a.obs = .ok (List.replicate a.obs 0) := by
    rw [memset, if_pos hobuf.ge, List.drop_eq_nil_of_le hobuf.le, List.append_nil]
  have hcpy : memcpy (List.replicate a.obs 0) d.ibuf n =
      if n ≤ a.obs ∧ n ≤ a.ibs then .ok (d.ibuf.take n ++ List.replicate (a.obs - n) 0)
      else .error .undefined := by
    rw [memcpy, List.length_replicate, hibuf, List.drop_replicate]
  rw [hset]
  simp only [bind, Except.bind, hcpy]
  by_cases hfit : n ≤ a.obs ∧ n ≤ a.ibs
  · rw [if_pos hfit, if_pos hfit]
    rfl
  · rw [if_neg hfit, if_neg hfit]

theorem blkcpy_eq {a : Args} {d : State} (hibuf : d.ibuf.length = a.ibs)
    (hobuf : d.obuf.length = a.obs) :
    blkcpy a d =
      if blkcpyLen a ≤ a.obs ∧ blkcpyLen a ≤ a.ibs then
        .ok { d with
          obuf := d.ibuf.take (blkcpyLen a) ++ List.replicate (a.obs - blkcpyLen a) 0
          truncs := if a.obs < a.ibs then d.truncs + 1 else d.truncs }
      else .error .undefined :=
  blkcpyLen_eq (blkcpyLen a) hibuf hobuf

/-- The copy of a block of `s` bytes and what is written of it stay within the buffers. -/
def Room (a : Args) (s : ℕ) : Prop :=
  blkcpyLen a ≤ a.ibs ∧ blkcpyLen a ≤ a.obs ∧ (s < a.ibs → s ≤ a.obs)

theorem copyOut_spec (hunblock : a.mode.unblock = false) (hosync : a.mode.osync = false)
    (hibuf : d.ibuf.length = a.ibs) (hobuf : d.obuf.length = a.obs) (s : ℕ) :
    (Room a s → ∃ d', d'.input = d.input ∧ d'.ibuf = d.ibuf ∧ d'.obuf.length = a.obs ∧
      d'.counter = d.counter ∧ d'.written = d.written ++
        (d.ibuf.take (blkcpyLen a) ++ List.replicate (a.obs - blkcpyLen a) 0).take
          (if s < a.ibs then s else a.obs) ∧
      copyOut a s d = if a.bcount = 0 then .ok d' else if d.counter = 1 then .error (.done d')
        else .ok { d' with counter := d'.counter - 1 }) ∧
    (¬ Room a s → copyOut a s d = .error .undefined) := by
  have hblk := blkcpy_eq hibuf hobuf
  have hout : ∀ obuf, writeOut a s obuf = fwrite obuf (if s < a.ibs then s else a.obs) := by
    intro obuf
    rw [writeOut, hunblock, hosync]
    simp
  have hroom : Room a s ↔ (blkcpyLen a ≤ a.obs ∧ blkcpyLen a ≤ a.ibs) ∧
      (if s < a.ibs then s else a.obs) ≤ a.obs := by
    have hw : (s < a.ibs → s ≤ a.obs) ↔ (if s < a.ibs then s else a.obs) ≤ a.obs := by
      split_ifs with h
      · exact ⟨fun hle => hle h, fun hle _ => hle⟩
      · exact ⟨fun _ => le_rfl, fun _ hlt => absurd hlt h⟩
    rw [Room, hw, and_assoc, and_left_comm]
  by_cases hcpy : blkcpyLen a ≤ a.obs ∧ blkcpyLen a ≤ a.ibs
  · have hlen : (d.ibuf.take (blkcpyLen a) ++
        List.replicate (a.obs - blkcpyLen a) 0).length = a.obs := by
      rw [List.length_append, List.length_take, hibuf, List.length_replicate,
        Nat.min_eq_left hcpy.2, Nat.add_sub_cancel' hcpy.1]
    rw [if_pos hcpy] at hblk
    rw [copyOut, hblk]
    simp only [bind, Except.bind, hout, fwrite, hlen]
    constructor
    · intro hfit
      rw [if_pos (hroom.mp hfit).2]
      let d₃ : State := { d with
        obuf := d.ibuf.take (blkcpyLen a) ++ List.replicate (a.obs - blkcpyLen a) 0
        truncs := if a.obs < a.ibs then d.truncs + 1 else d.truncs }
      let out := d₃.obuf.take (if s < a.ibs then s else a.obs)
      have hput : (d₃.put a out).input = d.input ∧ (d₃.put a out).ibuf = d.ibuf ∧
          (d₃.put a out).obuf = d₃.obuf ∧ (d₃.put a out).counter = d.counter ∧
          (d₃.put a out).written = d.written ++ out := by
        unfold State.put
        split_ifs <;> exact ⟨rfl, rfl, rfl, rfl, rfl⟩
      obtain ⟨hinput, hibuf', hobuf', hcounter, hwritten⟩ := hput
      refine ⟨d₃.put a out, hinput, hibuf', (congrArg List.length hobuf').trans hlen, hcounter,
        hwritten, ?_⟩
      change endTurn a (d₃.put a out) = _
      rw [endTurn, hcounter]
    · intro hnot
      rw [if_neg fun hw => hnot (hroom.mpr ⟨hcpy, hw⟩)]
  · rw [if_neg hcpy] at hblk
    rw [copyOut, hblk]
    exact ⟨fun hfit => absurd (hroom.mp hfit).1 hcpy, fun _ => rfl⟩

end Unitas.Dd
