import Mathlib.Data.List.TakeWhile
import Unitas.Dd.Copy
import Unitas.Lib.Stopping

/-! `dd conv=block`: the end of a line becomes a null byte, and no record is padded. -/
namespace Unitas.Dd
open Unitas.ByteStream Unitas.CInt Unitas.Stopping

/-- `dd conv=block` with all block sizes `n`. -/
def block (n : ℕ) : Args := ⟨{ noMode with block := true }, n, n, 0⟩

/-- `dd conv=unblock` with all block sizes `n`. -/
def unblock (n : ℕ) : Args := ⟨{ noMode with unblock := true }, n, n, 0⟩

/-- Lines with their newlines. -/
def text (lines : List (List UInt8)) : List UInt8 := lines.flatMap (· ++ [10])

/-- A record of `n` bytes for each line. -/
def records (n : ℕ) (lines : List (List UInt8)) : List UInt8 :=
  lines.flatMap fun line => line ++ List.replicate (n - line.length) 32

variable {ready : ℕ → ℕ} {a : Args}

/-! What has been written stays. -/

/-- A part of a turn that writes nothing. -/
def Quiet (f : State → Except Stop State) : Prop :=
  ∀ d d', (f d = .ok d' → d'.written = d.written) ∧ f d ≠ .error (.done d')

theorem Quiet.bind {f g : State → Except Stop State} (hf : Quiet f) (hg : Quiet g) :
    Quiet fun d => f d >>= g := by
  intro d d'
  constructor
  · intro h
    obtain ⟨d₁, hfd, hgd⟩ := exists_of_bind_ok h
    rw [(hg d₁ d').1 hgd, (hf d d₁).1 hfd]
  · intro h
    rcases or_of_bind_error h with hfd | ⟨d₁, -, hgd⟩
    · exact (hf d d').2 hfd
    · exact (hg d₁ d').2 hgd

theorem quiet_eachByte (f : UInt8 → UInt8) (a : Args) : Quiet (eachByte f a) := by
  intro d d'
  rw [eachByte]
  split_ifs
  · exact ⟨nofun, nofun⟩
  · exact ⟨nofun, nofun⟩
  · exact ⟨fun h => Except.ok.inj h ▸ rfl, nofun⟩

theorem quiet_bswab (a : Args) : Quiet (bswab a) := by
  intro d d'
  rw [bswab]
  split_ifs
  · exact ⟨nofun, nofun⟩
  · exact ⟨nofun, nofun⟩
  · exact ⟨fun h => Except.ok.inj h ▸ rfl, nofun⟩

theorem Quiet.applyIf {f : Args → State → Except Stop State} (hf : Quiet (f a)) (b : Bool) :
    Quiet (applyIf b f a) := by
  cases b with
  | false => exact fun d d' => ⟨fun h => Except.ok.inj h ▸ rfl, nofun⟩
  | true => exact hf

theorem quiet_convert (a : Args) : Quiet (convert a) :=
  ((quiet_eachByte _ a).applyIf _).bind <| ((quiet_eachByte _ a).applyIf _).bind <|
    ((quiet_eachByte _ a).applyIf _).bind <| ((quiet_bswab a).applyIf _).bind <|
    ((quiet_eachByte _ a).applyIf _).bind <| (quiet_eachByte _ a).applyIf _

/-- A condition that is checked on a buffer does not end the loop. -/
theorem checked_ne_done {α : Type} {c : Prop} [Decidable c] {r : α} {d' : State} :
    (if c then .ok r else .error .undefined : Except Stop α) ≠ .error (.done d') := by
  split_ifs <;> exact nofun

theorem quiet_blkcpy (a : Args) : Quiet (blkcpy a) := by
  intro d d'
  unfold blkcpy
  constructor
  · intro h
    obtain ⟨obuf, -, h⟩ := exists_of_bind_ok h
    obtain ⟨obuf', -, h⟩ := exists_of_bind_ok h
    exact Except.ok.inj h ▸ rfl
  · intro h
    rcases or_of_bind_error h with h | ⟨obuf, -, h⟩
    · exact checked_ne_done h
    · rcases or_of_bind_error h with h | ⟨obuf', -, h⟩
      · exact checked_ne_done h
      · exact nomatch h

theorem writeOut_ne_done (s : ℕ) (obuf : List UInt8) (d' : State) :
    writeOut a s obuf ≠ .error (.done d') := by
  rw [writeOut]
  by_cases hunblock : a.mode.unblock = true
  · rw [if_pos hunblock]
    intro h
    rcases or_of_bind_error h with h | ⟨line, -, h⟩
    · exact checked_ne_done h
    · cases h
  · rw [if_neg hunblock]
    exact checked_ne_done

/-- How a run can go on or come to an end after a turn, or part of one. -/
def Grows (d : State) (r : Except Stop State) : Prop :=
  ∀ d', r = .ok d' ∨ r = .error (.done d') → d.written <+: d'.written

theorem grows_endTurn (bytes : List UInt8) (d : State) : Grows d (endTurn a (d.put a bytes)) := by
  have hput : d.written <+: (d.put a bytes).written := by
    unfold State.put
    split_ifs <;> exact List.prefix_append _ _
  unfold endTurn
  split_ifs
  · rintro d' (h | h)
    · exact Except.ok.inj h ▸ hput
    · exact nomatch h
  · rintro d' (h | h)
    · exact nomatch h
    · exact Stop.done.inj (Except.error.inj h) ▸ hput
  · rintro d' (h | h)
    · exact Except.ok.inj h ▸ hput
    · exact nomatch h

theorem grows_copyOut (s : ℕ) (d : State) : Grows d (copyOut a s d) := by
  rintro d' (h | h)
  · obtain ⟨d₁, hcpy, h⟩ := exists_of_bind_ok h
    obtain ⟨bytes, -, h⟩ := exists_of_bind_ok h
    exact (quiet_blkcpy a d d₁).1 hcpy ▸ grows_endTurn bytes d₁ d' (.inl h)
  · rcases or_of_bind_error h with h | ⟨d₁, hcpy, h⟩
    · exact absurd h (quiet_blkcpy a d d').2
    · rcases or_of_bind_error h with h | ⟨bytes, -, h⟩
      · exact absurd h (writeOut_ne_done s d₁.obuf d')
      · exact (quiet_blkcpy a d d₁).1 hcpy ▸ grows_endTurn bytes d₁ d' (.inr h)

theorem readIn_written {d : State} : (∀ s d', readIn ready a d = .ok (s, d') →
    d'.written = d.written) ∧ ∀ d', readIn ready a d ≠ .error (.done d') := by
  rw [readIn]
  by_cases hblock : a.mode.block = true
  · rw [if_pos hblock]
    have hfgets : (∀ d', fgets a d = .ok d' → d'.written = d.written) ∧
        ∀ d', fgets a d ≠ .error (.done d') := by
      unfold fgets
      dsimp only
      by_cases hn : (wrap 32 a.ibs).toNat = 0
      · rw [if_pos hn]
        exact ⟨fun _ h => (by cases h), fun _ h => by cases h⟩
      · rw [if_neg hn]
        exact ⟨fun _ h => Except.ok.inj h ▸ rfl, fun _ h => by cases h⟩
    unfold readLine
    constructor
    · intro s d' h
      obtain ⟨d₁, hd₁, h⟩ := exists_of_bind_ok h
      obtain ⟨line, -, h⟩ := exists_of_bind_ok h
      split_ifs at h with hline
      · cases h
      · exact (Prod.mk.inj (Except.ok.inj h)).2 ▸ hfgets.1 d₁ hd₁
    · intro d' h
      rcases or_of_bind_error h with h | ⟨d₁, -, h⟩
      · exact hfgets.2 d' h
      · rcases or_of_bind_error h with h | ⟨line, -, h⟩
        · exact checked_ne_done h
        · split_ifs at h with hline
          · cases h
          · cases h
  · rw [if_neg hblock]
    exact ⟨fun s d' h => (Prod.mk.inj (Except.ok.inj h)).2 ▸ rfl, fun _ h => by cases h⟩

theorem grows_turn (d : State) : Grows d (turn ready a d) := by
  by_cases heof : d.input.eof = true
  · rw [turn_eof heof]
    rintro d' (h | h)
    · cases h
    · exact Stop.done.inj (Except.error.inj h) ▸ List.prefix_rfl
  have heof : d.input.eof = false := by simpa using heof
  obtain ⟨hwritten, hne⟩ := @readIn_written ready a d
  cases hin : readIn ready a d with
  | error stop =>
    have hturn : turn ready a d = .error stop := by
      rw [turn, heof, hin]
      rfl
    rw [hturn]
    rintro d' (h | h)
    · cases h
    · exact absurd (hin.trans (congrArg Except.error (Except.error.inj h))) (hne d')
  | ok r =>
    obtain ⟨s, d₁⟩ := r
    have hw := hwritten s d₁ hin
    by_cases hs : s = 0
    · have hturn : turn ready a d = .ok d₁ := by
        rw [turn, heof, hin, hs]
        rfl
      rw [hturn]
      rintro d' (h | h)
      · exact Except.ok.inj h ▸ hw ▸ List.prefix_rfl
      · cases h
    by_cases herr : (d₁.input.error && !a.mode.noerror) = true
    · have hturn : turn ready a d = .error (.exit 1) := by
        rw [turn, heof, hin]
        simp only [bind, Except.bind, pure, Except.pure, hs, herr]
        rfl
      rw [hturn]
      rintro d' (h | h) <;> cases h
    · rw [turn_of_readIn heof hin hs (by simpa using herr)]
      rintro d' (h | h)
      · obtain ⟨d₂, hconv, h⟩ := exists_of_bind_ok h
        have hw₂ := (quiet_convert a (d₁.counted a s) d₂).1 hconv
        rw [counted_written, hw] at hw₂
        exact hw₂ ▸ grows_copyOut s d₂ d' (.inl h)
      · rcases or_of_bind_error h with h | ⟨d₂, hconv, h⟩
        · exact absurd h (quiet_convert a (d₁.counted a s) d').2
        · have hw₂ := (quiet_convert a (d₁.counted a s) d₂).1 hconv
          rw [counted_written, hw] at hw₂
          exact hw₂ ▸ grows_copyOut s d₂ d' (.inr h)

/-- What has been written after a turn is there in the end. -/
theorem written_of_process {fuel : ℕ} : ∀ {d d' : State},
    process ready a fuel d = some (.done d') → d.written <+: d'.written := by
  induction fuel with
  | zero => exact fun h => nomatch h
  | succ fuel ih =>
    intro d d' h
    rw [process] at h
    cases hturn : turn ready a d with
    | error stop =>
      rw [hturn] at h
      obtain rfl := Option.some.inj h
      exact grows_turn d d' (.inr hturn)
    | ok d₁ =>
      rw [hturn] at h
      exact (grows_turn d d₁ (.inl hturn)).trans (ih h)

/-! The first turn. -/

theorem wrap_le (n : ℕ) : (wrap 32 n).toNat ≤ n := by
  rw [wrap, Int.bmod_def]
  norm_num
  split_ifs <;> omega

theorem length_lineOf (n : ℕ) (bytes : List UInt8) : (lineOf n bytes).length ≤ n := by
  fun_induction lineOf n bytes with
  | case1 => exact Nat.zero_le _
  | case2 => exact Nat.zero_le _
  | case3 n bytes => exact Nat.succ_le_succ (Nat.zero_le _)
  | case4 n c bytes h ih => exact Nat.succ_le_succ ih

theorem length_stored {line : List UInt8} {n : ℕ} (b : Bool) (h : line.length + 1 ≤ n) :
    (if b = true then line else line ++ [0]).length ≤ n := by
  split_ifs
  · exact Nat.le_of_succ_le h
  · rw [List.length_append, List.length_singleton]
    exact h

theorem fgets_spec {a : Args} {d : State} (hfail : d.input.failAt = none)
    (herr : d.input.error = false) (hibuf : d.ibuf.length = a.ibs) :
    fgets a d = .error .undefined ∨ ∃ d', fgets a d = .ok d' ∧ d'.ibuf.length = a.ibs ∧
      d'.obuf = d.obuf ∧ d'.input.error = false := by
  unfold fgets
  dsimp only
  by_cases hm : (wrap 32 a.ibs).toNat = 0
  · rw [if_pos hm]
    exact .inl rfl
  · rw [if_neg hm]
    refine .inr ⟨_, rfl, ?_, rfl, ?_⟩
    · have hle := wrap_le a.ibs
      have hline := length_lineOf ((wrap 32 a.ibs).toNat - 1)
        (d.input.stream.rest.take d.input.available)
      have hroom : (lineOf ((wrap 32 a.ibs).toNat - 1)
          (d.input.stream.rest.take d.input.available)).length + 1 ≤ a.ibs := by omega
      rw [List.length_append, List.length_drop, hibuf]
      exact Nat.add_sub_cancel' (length_stored _ hroom)
    · simp only [Input.advance, herr, hfail, Option.any_none, Bool.and_false, Bool.or_false]

/-- What `conv=block` reads: the last byte of the string becomes null. -/
theorem readLine_spec {a : Args} {d : State} (hfail : d.input.failAt = none)
    (herr : d.input.error = false) (hibuf : d.ibuf.length = a.ibs) :
    readLine a d = .error .undefined ∨ ∃ s d', readLine a d = .ok (s, d') ∧
      0 < s ∧ s < a.ibs ∧ d'.ibuf.length = a.ibs ∧ d'.ibuf[s - 1]? = some 0 ∧ d'.obuf = d.obuf ∧
      d'.input.error = false := by
  unfold readLine
  rcases fgets_spec hfail herr hibuf with h | ⟨d₁, h, hlen, hobuf, herr₁⟩
  · rw [h]
    exact .inl rfl
  rw [h]
  simp only [bind, Except.bind, cstring]
  by_cases hzero : 0 ∈ d₁.ibuf
  · rw [if_pos hzero]
    generalize hline : d₁.ibuf.takeWhile (· ≠ 0) = line
    dsimp only
    by_cases hnil : line = []
    · rw [if_pos hnil]
      exact .inl rfl
    · have hpos := List.length_pos_iff.mpr hnil
      have hlt : line.length < a.ibs := by
        have hsplit := congrArg List.length
          (List.takeWhile_append_dropWhile (p := (· ≠ 0)) (l := d₁.ibuf))
        have hrest : 0 < (d₁.ibuf.dropWhile (· ≠ 0)).length := by
          refine List.length_pos_iff.mpr fun hnil => ?_
          have h0 := List.dropWhile_eq_nil_iff.mp hnil 0 hzero
          simp at h0
        rw [List.length_append, hline, hlen] at hsplit
        omega
      rw [if_neg hnil]
      refine .inr ⟨_, _, rfl, hpos, hlt, ?_, ?_, hobuf, herr₁⟩
      · exact (List.length_set ..).trans hlen
      · exact List.getElem?_set_self (by omega)
  · rw [if_neg hzero]
    exact .inl rfl

/-- The null byte at the end of the line is among the bytes that are written. -/
theorem turn_block_mode {n : ℕ} {d : State} (hfail : d.input.failAt = none)
    (herr : d.input.error = false) (heof : d.input.eof = false) (hibuf : d.ibuf.length = n)
    (hobuf : d.obuf.length = n) : turn ready (block n) d = .error .undefined ∨
      ∃ d', turn ready (block n) d = .ok d' ∧ 0 ∈ d'.written := by
  have hin : readIn ready (block n) d = readLine (block n) d := rfl
  rcases @readLine_spec (block n) d hfail herr hibuf with
    h | ⟨s, d₁, h, hpos, hlt, hibuf₁, hzero, hobuf₁, herr₁⟩
  · left
    rw [turn, heof, hin, h]
    rfl
  have hturn : turn ready (block n) d = copyOut (block n) s (d₁.counted (block n) s) := by
    rw [turn_of_readIn heof (hin.trans h) (by omega) (by rw [herr₁]; rfl)]
    rfl
  obtain ⟨hroom, hover⟩ := @copyOut_spec (block n) (d₁.counted (block n) s) rfl rfl
    (by rw [counted_ibuf]; exact hibuf₁) (by rw [counted_obuf, hobuf₁]; exact hobuf) s
  rw [hturn]
  by_cases hfit : Room (block n) s
  · obtain ⟨d', -, -, -, -, hwritten, hcopy⟩ := hroom hfit
    refine .inr ⟨d', hcopy, ?_⟩
    rw [hwritten, counted_ibuf, if_pos hlt]
    refine List.mem_append_right _ ?_
    have hget : ((d₁.ibuf.take (blkcpyLen (block n)) ++ List.replicate
        ((block n).obs - blkcpyLen (block n)) 0).take s)[s - 1]? = some 0 := by
      have hcpy : (d₁.ibuf.take (blkcpyLen (block n))).length = blkcpyLen (block n) := by
        rw [List.length_take, hibuf₁]
        exact Nat.min_eq_left hfit.1
      rw [List.getElem?_take_of_lt (by omega), List.getElem?_append, hcpy]
      split_ifs with hi
      · rw [List.getElem?_take_of_lt hi, hzero]
      · rw [List.getElem?_replicate, if_pos]
        change s < n at hlt
        change s - 1 - blkcpyLen (block n) < n - blkcpyLen (block n)
        omega
    exact List.mem_of_getElem? hget
  · exact .inl (hover hfit)

/-- In every run of `conv=block` a null byte is written, or a buffer is left. -/
theorem block_writes {n : ℕ} {bytes ibuf obuf : List UInt8} (hi : ibuf.length = n)
    (ho : obuf.length = n) {fuel : ℕ} {d : State}
    (h : process ready (block n) fuel (start (block n) bytes ibuf obuf none) = some (.done d)) :
    0 ∈ d.written := by
  cases fuel with
  | zero => cases h
  | succ fuel =>
    rw [process] at h
    rcases @turn_block_mode ready n (start (block n) bytes ibuf obuf none) rfl rfl rfl hi ho with
      hturn | ⟨d', hturn, hzero⟩
    · rw [hturn] at h
      cases h
    · rw [hturn] at h
      exact (written_of_process h).subset hzero

theorem not_mem_records {n : ℕ} {lines : List (List UInt8)} (h : ∀ l ∈ lines, 0 ∉ l) :
    0 ∉ records n lines := by
  rw [records, List.mem_flatMap]
  rintro ⟨l, hl, hmem⟩
  rcases List.mem_append.mp hmem with hmem | hmem
  · exact h l hl hmem
  · exact absurd (List.eq_of_mem_replicate hmem) (by decide)

/-- For no input does `conv=block` write the records. -/
theorem block_never {n : ℕ} (_ : 0 < n) {lines : List (List UInt8)}
    (hlines : ∀ l ∈ lines, 0 ∉ l ∧ 10 ∉ l ∧ l.length ≤ n - 1 ∧ l.getLast? ≠ some 32)
    {ibuf obuf : List UInt8} (hi : ibuf.length = n) (ho : obuf.length = n) :
    ¬ ((∃ fuel d, process ready (block n) fuel (start (block n) (text lines) ibuf obuf none) =
        some (.done d) ∧ d.written = records n lines) ∧
      ∃ fuel d, process ready (unblock n) fuel
        (start (unblock n) (records n lines) ibuf obuf none) = some (.done d) ∧
          d.written = text lines) := by
  rintro ⟨⟨fuel, d, hdone, hw⟩, -⟩
  exact not_mem_records (fun l hl => (hlines l hl).1) (hw ▸ block_writes hi ho hdone)

/-- One line of one byte in records of two. -/
theorem block_never_line :
    ¬ ((∃ fuel d, process (fun _ => 1) (block 2) fuel
        (start (block 2) (text [[97]]) [0, 0] [0, 0] none) = some (.done d) ∧
          d.written = records 2 [[97]]) ∧
      ∃ fuel d, process (fun _ => 1) (unblock 2) fuel
        (start (unblock 2) (records 2 [[97]]) [0, 0] [0, 0] none) = some (.done d) ∧
          d.written = text [[97]]) :=
  block_never (by decide) (by decide) rfl rfl

/-- The line `a` in records of two bytes. -/
theorem not_block : ¬ ∀ (ready : ℕ → ℕ) (n : ℕ) (lines : List (List UInt8))
    (ibuf obuf : List UInt8), 0 < n →
    (∀ l ∈ lines, 0 ∉ l ∧ 10 ∉ l ∧ l.length ≤ n - 1 ∧ l.getLast? ≠ some 32) →
    ibuf.length = n → obuf.length = n →
    ∃ fuel d, process ready (block n) fuel (start (block n) (text lines) ibuf obuf none) =
      some (.done d) ∧ d.written = records n lines := by
  intro h
  obtain ⟨fuel, d, hdone, hw⟩ := h (fun _ => 1) 2 [[97]] [0, 0] [0, 0] (by decide) (by decide)
    rfl rfl
  have hzero := @block_writes (fun _ => 1) 2 _ [0, 0] [0, 0] rfl rfl _ _ hdone
  rw [hw] at hzero
  exact absurd hzero (by decide)

end Unitas.Dd
