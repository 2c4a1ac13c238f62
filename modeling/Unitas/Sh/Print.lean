import Mathlib
import Unitas.Lib.CInt

/-! Buffered output of the shell: `prc_buff`, `prs_buff` and `flushb` with a descriptor as their
destination, and `prs_cntl`, which works in the same buffer. -/
namespace Unitas.Sh.Print
open Unitas.CInt

abbrev Str := List UInt8

def BUFLEN : ℕ := 256

/-- `out` is what has been written to `buffd`, `err` what `prs_cntl` has written. -/
structure State where
  buffer : Str
  index : ℕ
  out : Str
  err : Str
  deriving DecidableEq, Repr

/-- A store, for which there is no result outside the buffer. -/
def store (buffer : Str) (i : ℕ) (c : UInt8) : Option Str :=
  if i < BUFLEN then some (buffer.set i c) else none

def stores (buffer : Str) (i : ℕ) : Str → Option Str
  | [] => some buffer
  | c :: s => do stores (← store buffer i c) (i + 1) s

/-- The string in the buffer, of which `length` finds the end. -/
def string (buffer : Str) : Option Str :=
  if 0 ∈ buffer then some (buffer.takeWhile (· ≠ 0)) else none

def flushb (s : State) : Option State :=
  if s.index = 0 then some s
  else do
    let buffer ← store s.buffer s.index 0
    return { s with buffer := buffer, index := 0, out := s.out ++ (← string buffer) }

/-- `if (full) flushb()` -/
def flushIf (full : Prop) [Decidable full] (s : State) : Option State :=
  if full then flushb s else some s

def prc_buff (c : UInt8) (s : State) : Option State :=
  if c ≠ 0 then do
    let s ← flushIf (s.index + 1 ≥ BUFLEN) s
    return { s with buffer := ← store s.buffer s.index c, index := s.index + 1 }
  else do
    let s ← flushb s
    return { s with out := s.out ++ [0] }

/-- `len` and its sum with `index` are of type `int`, which wraps around at 32 bits. `movstr` copies
the null character too. -/
def prs_buff (text : Str) (s : State) : Option State := do
  let len := wrap 32 text.length
  let s ← flushIf (wrap 32 (s.index + len) ≥ BUFLEN) s
  if len ≥ BUFLEN then return { s with out := s.out ++ text.take len.toNat }
  else
    return { s with
      buffer := ← stores s.buffer s.index (text ++ [0])
      index := (s.index + len).toNat }

def octal (c : UInt8) : Str := [92, (c >>> 6) + 48, ((c >>> 3) &&& 7) + 48, (c &&& 7) + 48]

/-- What `prs_cntl` puts into the buffer for a character of a single-byte locale. -/
def printed (isprint : UInt8 → Bool) (c : UInt8) : Str :=
  if isprint c then [c]
  else if c < 32 ∧ 0 < c then [94, c + 64]
  else if c = 127 then [94, 63]
  else octal c

/-- `*ptr = '\\0'; prs(bufp)` -/
def prs (ptr : ℕ) (s : State) : Option State := do
  let buffer ← store s.buffer ptr 0
  return { s with buffer := buffer, err := s.err ++ (← string buffer) }

/-- The loop of `prs_cntl` and what follows it. -/
def prs_cntlFrom (isprint : UInt8 → Bool) : Str → ℕ → State → Option State
  | [], ptr, s => prs ptr s
  | c :: text, ptr, s => do
    let s := { s with buffer := ← stores s.buffer ptr (printed isprint c) }
    let ptr := ptr + (printed isprint c).length
    if ptr ≥ BUFLEN - 4 then prs_cntlFrom isprint text 0 (← prs ptr s)
    else prs_cntlFrom isprint text ptr s

def prs_cntl (isprint : UInt8 → Bool) (text : Str) (s : State) : Option State :=
  prs_cntlFrom isprint text 0 s

inductive Call
  | prc_buff (c : UInt8)
  | prs_buff (text : Str)
  | prs_cntl (text : Str)
  | flushb
  deriving DecidableEq, Repr

def Call.run (isprint : UInt8 → Bool) : Call → State → Option State
  | .prc_buff c => Print.prc_buff c
  | .prs_buff text => Print.prs_buff text
  | .prs_cntl text => Print.prs_cntl isprint text
  | .flushb => Print.flushb

def runs (isprint : UInt8 → Bool) : List Call → State → Option State
  | [], s => some s
  | call :: calls, s => do runs isprint calls (← call.run isprint s)

def start : State := ⟨List.replicate BUFLEN 0, 0, [], []⟩

/-- Characters are not null, and strings end at their null character. -/
def Call.Proper : Call → Prop
  | .prc_buff c => c ≠ 0
  | .prs_buff text | .prs_cntl text => 0 ∉ text
  | .flushb => True

/-- The bytes that are handed to the buffer. -/
def Call.bytes : Call → Str
  | .prc_buff c => [c]
  | .prs_buff text => text
  | .prs_cntl _ | .flushb => []

/-- `prs_cntl` needs an empty buffer, and `prs_buff` a sum that is an `int`. -/
def Call.Calm (s : State) : Call → Prop
  | .prs_buff text => s.index + text.length < 2 ^ 31
  | .prs_cntl _ => s.index = 0
  | .prc_buff _ | .flushb => True

/-- No call of `prs_cntl` comes while something is in the buffer, and none of `prs_buff` with a text
that is too long for `len`. -/
def Quiet (isprint : UInt8 → Bool) : List Call → State → Prop
  | [], _ => True
  | call :: calls, s => call.Calm s ∧ ∀ s', call.run isprint s = some s' → Quiet isprint calls s'

/-- What is to come of a run: every store is inside the buffer, and after the last `flushb` all bytes
have been written. -/
def Meets (isprint : UInt8 → Bool) (calls : List Call) : Prop :=
  ∃ s s', runs isprint calls start = some s ∧ flushb s = some s' ∧
    s'.out = calls.flatMap Call.bytes

/-! ### Stores -/

/-- The buffer has its size, and there is room for a null character. -/
structure Sound (s : State) : Prop where
  length : s.buffer.length = BUFLEN
  index : s.index < BUFLEN

theorem store_eq {buffer : Str} {i : ℕ} (h : i < BUFLEN) (c : UInt8) :
    store buffer i c = some (buffer.set i c) := if_pos h

theorem stores_eq {buffer : Str} (hbuffer : buffer.length = BUFLEN) (text : Str) :
    ∀ {i : ℕ}, i + text.length ≤ BUFLEN → ∃ buffer', stores buffer i text = some buffer' ∧
      buffer'.length = BUFLEN ∧ buffer'.take i = buffer.take i ∧
      buffer'.take (i + text.length) = buffer.take i ++ text := by
  induction text generalizing buffer with
  | nil => intro i _; exact ⟨buffer, rfl, hbuffer, rfl, by simp⟩
  | cons c text ih =>
    intro i hi
    rw [List.length_cons] at hi
    obtain ⟨buffer', hstores, hlen, htake, hall⟩ :=
      @ih (buffer.set i c) (by simpa using hbuffer) (i + 1) (by omega)
    have hset : (buffer.set i c).take (i + 1) = buffer.take i ++ [c] := by
      rw [List.take_add_one, List.take_set, List.set_eq_of_length_le (by simp)]
      simp [hbuffer, show i < BUFLEN by omega]
    refine ⟨buffer', ?_, hlen, ?_, ?_⟩
    · rw [stores, store_eq (by omega)]
      exact hstores
    · have := congrArg (List.take i) htake
      rw [hset, List.take_take, min_eq_left (Nat.le_succ i)] at this
      rw [this, List.take_append_of_le_length (by simp [hbuffer]; omega), List.take_take, min_self]
    · rw [List.length_cons, show i + (text.length + 1) = i + 1 + text.length by omega, hall, hset]
      simp

theorem string_eq {buffer text : Str} (htext : 0 ∉ text)
    (h : buffer.take (text.length + 1) = text ++ [0]) : string buffer = some text := by
  rw [← List.take_append_drop (text.length + 1) buffer, h, string, if_pos (by simp),
    List.append_assoc, List.takeWhile_append_of_pos]
  · simp
  · intro c hc
    have hne : c ≠ 0 := fun h0 => htext (h0 ▸ hc)
    simpa using hne

theorem string_isSome {buffer : Str} (h : 0 ∈ buffer) : ∃ text, string buffer = some text :=
  ⟨_, if_pos h⟩

/-! ### Calls -/

variable {s s' : State}

/-- What has been handed to the buffer and not been written is still in it. -/
structure Pending (s : State) (pend : Str) : Prop where
  index : s.index = pend.length
  buffer : s.buffer.take s.index = pend
  proper : 0 ∉ pend

theorem pending_nil (h : s.index = 0) : Pending s [] := ⟨h, by rw [h]; rfl, List.not_mem_nil⟩

theorem flushb_spec (h : Sound s) : ∃ s', flushb s = some s' ∧ Sound s' ∧ s'.index = 0 ∧
    ∀ pend, Pending s pend → s'.out = s.out ++ pend := by
  unfold flushb
  by_cases h0 : s.index = 0
  · refine ⟨s, if_pos h0, h, h0, fun pend hpend => ?_⟩
    have : pend = [] := List.length_eq_zero_iff.mp (hpend.index ▸ h0)
    rw [this, List.append_nil]
  · have hlt : s.index < s.buffer.length := h.length ▸ h.index
    have hzero : 0 ∈ s.buffer.set s.index 0 := List.mem_set hlt 0
    obtain ⟨text, htext⟩ := string_isSome hzero
    rw [if_neg h0, store_eq h.index]
    simp only [bind, Option.bind, htext]
    refine ⟨_, rfl, ⟨by simpa using h.length, show 0 < BUFLEN by decide⟩, rfl,
      fun pend hpend => ?_⟩
    have htake : (s.buffer.set s.index 0).take (pend.length + 1) = pend ++ [0] := by
      rw [← hpend.index, List.take_add_one, List.take_set, List.set_eq_of_length_le (by simp),
        hpend.buffer]
      simp [hlt]
    rw [string_eq hpend.proper htake] at htext
    exact congrArg (s.out ++ ·) (Option.some.inj htext).symm

/-- Flushing, if need be, before something is put behind what is pending. -/
theorem flushIf_spec (h : Sound s) (full : Prop) [Decidable full] :
    ∃ s', flushIf full s = some s' ∧ Sound s' ∧ (full → s'.index = 0) ∧
      (¬ full → s' = s) ∧ ∀ pend, Pending s pend → ∃ pend', Pending s' pend' ∧
        s'.out ++ pend' = s.out ++ pend := by
  by_cases hfull : full
  · obtain ⟨s', hs', hsound, h0, hout⟩ := flushb_spec h
    refine ⟨s', (if_pos hfull).trans hs', hsound, fun _ => h0, fun h => absurd hfull h,
      fun pend hpend => ⟨[], pending_nil h0, ?_⟩⟩
    rw [hout pend hpend, List.append_nil]
  · exact ⟨s, if_neg hfull, h, fun h => absurd h hfull, fun _ => rfl,
      fun pend hpend => ⟨pend, hpend, rfl⟩⟩

theorem prc_buff_spec (h : Sound s) {c : UInt8} (hc : c ≠ 0) :
    ∃ s', prc_buff c s = some s' ∧ Sound s' ∧ ∀ pend, Pending s pend → ∃ pend', Pending s' pend' ∧
      s'.out ++ pend' = s.out ++ pend ++ [c] := by
  obtain ⟨t, ht, hsound, hfull, hnot, hpending⟩ := flushIf_spec h (s.index + 1 ≥ BUFLEN)
  have hroom : t.index + 1 < BUFLEN := by
    by_cases hlt : s.index + 1 ≥ BUFLEN
    · rw [hfull hlt]
      decide
    · rw [hnot hlt]
      omega
  have hlen : t.index < t.buffer.length := hsound.length ▸ hsound.index
  rw [prc_buff, if_pos hc, ht]
  simp only [bind, Option.bind, store_eq hsound.index]
  refine ⟨_, rfl, ⟨by simpa using hsound.length, hroom⟩, fun pend hpend => ?_⟩
  obtain ⟨pend', hpend', hout⟩ := hpending pend hpend
  refine ⟨pend' ++ [c], ⟨?_, ?_, ?_⟩, ?_⟩
  · simp [hpend'.index]
  · change (t.buffer.set t.index c).take (t.index + 1) = _
    rw [List.take_add_one, List.take_set, List.set_eq_of_length_le (by simp), hpend'.buffer]
    simp [hlen]
  · simp [hpend'.proper, hc.symm]
  · change t.out ++ (pend' ++ [c]) = _
    rw [← hout, List.append_assoc]

theorem prs_buff_spec (h : Sound s) {text : Str} (htext : 0 ∉ text)
    (hint : s.index + text.length < 2 ^ 31) :
    ∃ s', prs_buff text s = some s' ∧ Sound s' ∧ ∀ pend, Pending s pend →
      ∃ pend', Pending s' pend' ∧ s'.out ++ pend' = s.out ++ pend ++ text := by
  have hlen : wrap 32 text.length = text.length := by
    rw [wrap, Int.bmod_eq_of_le] <;> omega
  have hsum : wrap 32 (s.index + (text.length : ℤ)) = s.index + text.length := by
    rw [wrap, Int.bmod_eq_of_le] <;> omega
  obtain ⟨t, ht, hsound, hfull, hnot, hpending⟩ :=
    flushIf_spec h ((s.index + text.length : ℤ) ≥ BUFLEN)
  rw [prs_buff, hlen, hsum, ht]
  simp only [bind, Option.bind]
  by_cases hlong : (text.length : ℤ) ≥ BUFLEN
  · rw [if_pos hlong, Int.toNat_natCast, List.take_length]
    refine ⟨_, rfl, ⟨hsound.length, hsound.index⟩, fun pend hpend => ?_⟩
    obtain ⟨pend', hpend', hout⟩ := hpending pend hpend
    have h0 : t.index = 0 := hfull (by omega)
    have hnil : pend' = [] := List.length_eq_zero_iff.mp (hpend'.index ▸ h0)
    refine ⟨[], pending_nil h0, ?_⟩
    change t.out ++ text ++ [] = _
    rw [← hout, hnil, List.append_nil, List.append_nil]
  · have hroom : t.index + text.length < BUFLEN := by
      by_cases hlt : (s.index + text.length : ℤ) ≥ BUFLEN
      · rw [hfull hlt]
        omega
      · rw [hnot hlt]
        omega
    obtain ⟨buffer, hstores, hlen, -, hall⟩ :=
      stores_eq hsound.length (text ++ [0]) (i := t.index) (by simp; omega)
    have hindex : ((t.index : ℤ) + text.length).toNat = t.index + text.length := by omega
    rw [if_neg hlong, hstores, hindex]
    refine ⟨_, rfl, ⟨hlen, hroom⟩, fun pend hpend => ?_⟩
    obtain ⟨pend', hpend', hout⟩ := hpending pend hpend
    refine ⟨pend' ++ text, ⟨?_, ?_, ?_⟩, ?_⟩
    · simp [hpend'.index]
    · change buffer.take (t.index + text.length) = _
      have := congrArg (List.take (t.index + text.length)) hall
      rw [List.take_take, min_eq_left (by simp), hpend'.buffer, ← List.append_assoc,
        List.take_append_of_le_length (by simp [hpend'.index])] at this
      rw [this, List.take_of_length_le (by simp [hpend'.index])]
    · simp [hpend'.proper, htext]
    · change t.out ++ (pend' ++ text) = _
      rw [← hout, List.append_assoc]

variable (isprint : UInt8 → Bool)

theorem length_printed (c : UInt8) : (printed isprint c).length ≤ 4 := by
  rw [printed]
  split_ifs <;> simp [octal]

theorem prs_spec (h : Sound s) {ptr : ℕ} (hptr : ptr < BUFLEN) :
    ∃ s', prs ptr s = some s' ∧ Sound s' ∧ s'.index = s.index ∧ s'.out = s.out := by
  have hzero : 0 ∈ s.buffer.set ptr 0 := List.mem_set (h.length ▸ hptr) 0
  obtain ⟨text, htext⟩ := string_isSome hzero
  rw [prs, store_eq hptr]
  simp only [bind, Option.bind, htext]
  exact ⟨_, rfl, ⟨by simpa using h.length, h.index⟩, rfl, rfl⟩

/-- A character is put into the buffer while `ptr` is at least four bytes before the end of what a
null character leaves. -/
theorem prs_cntlFrom_spec (text : Str) : ∀ {ptr : ℕ} {s : State}, Sound s → ptr < BUFLEN - 4 →
    ∃ s', prs_cntlFrom isprint text ptr s = some s' ∧ Sound s' ∧ s'.index = s.index ∧
      s'.out = s.out := by
  induction text with
  | nil =>
    intro ptr s h hptr
    exact prs_spec h (hptr.trans (by decide))
  | cons c text ih =>
    intro ptr s h hptr
    have hshort := length_printed isprint c
    obtain ⟨buffer, hstores, hlen, -⟩ :=
      stores_eq h.length (printed isprint c) (i := ptr) (by rw [BUFLEN] at *; omega)
    rw [prs_cntlFrom, hstores]
    simp only [bind, Option.bind]
    have hnext : Sound { s with buffer := buffer } := ⟨hlen, h.index⟩
    split_ifs with hfull
    · obtain ⟨t, ht, hsound, hindex, hout⟩ :=
        @prs_spec _ hnext (ptr + (printed isprint c).length) (by rw [BUFLEN] at *; omega)
      rw [ht]
      obtain ⟨s', hs', hsound', hindex', hout'⟩ := @ih 0 t hsound (by decide)
      exact ⟨s', hs', hsound', hindex'.trans hindex, hout'.trans hout⟩
    · exact ih hnext (by omega)

/-- A text that is short enough for `len` whatever is in the buffer. -/
def Call.Short : Call → Prop
  | .prs_buff text => text.length + BUFLEN ≤ 2 ^ 31
  | .prc_buff _ | .prs_cntl _ | .flushb => True

/-- A call with a text that is not too long keeps the buffer sound; if it is calm, nothing is lost. -/
theorem call_spec (h : Sound s) {call : Call} (hcall : call.Proper)
    (hint : call.Short ∨ call.Calm s) :
    ∃ s', call.run isprint s = some s' ∧ Sound s' ∧ (call.Calm s → ∀ pend, Pending s pend →
      ∃ pend', Pending s' pend' ∧ s'.out ++ pend' = s.out ++ pend ++ call.bytes) := by
  cases call with
  | prc_buff c =>
    obtain ⟨s', hs', hsound, hpending⟩ := prc_buff_spec h hcall
    exact ⟨s', hs', hsound, fun _ => hpending⟩
  | prs_buff text =>
    have hlt : s.index + text.length < 2 ^ 31 := by
      rcases hint with hshort | hcalm
      · have := h.index
        have : text.length + BUFLEN ≤ 2 ^ 31 := hshort
        omega
      · exact hcalm
    obtain ⟨s', hs', hsound, hpending⟩ := prs_buff_spec h hcall hlt
    exact ⟨s', hs', hsound, fun _ => hpending⟩
  | prs_cntl text =>
    obtain ⟨s', hs', hsound, hindex, hout⟩ :=
      @prs_cntlFrom_spec isprint text 0 s h (by decide)
    refine ⟨s', hs', hsound, fun hquiet pend hpend => ?_⟩
    have h0 : s.index = 0 := hquiet
    have hnil : pend = [] := List.length_eq_zero_iff.mp (hpend.index ▸ h0)
    refine ⟨[], pending_nil (hindex.trans h0), ?_⟩
    rw [hout, hnil]
    simp [Call.bytes]
  | flushb =>
    obtain ⟨s', hs', hsound, h0, hout⟩ := flushb_spec h
    refine ⟨s', hs', hsound, fun _ pend hpend => ⟨[], pending_nil h0, ?_⟩⟩
    rw [hout pend hpend]
    simp [Call.bytes]

theorem sound_start : Sound start := ⟨by simp [start], by decide⟩

/-- Whatever is called, every store is inside the buffer, if no text is too long for `len`. -/
theorem runs_sound (calls : List Call) : ∀ {s : State}, Sound s → (∀ call ∈ calls, call.Proper) →
    (∀ call ∈ calls, call.Short) → ∃ s', runs isprint calls s = some s' ∧ Sound s' := by
  induction calls with
  | nil => intro s h _ _; exact ⟨s, rfl, h⟩
  | cons call calls ih =>
    intro s h hcalls hshort
    rw [List.forall_mem_cons] at hcalls hshort
    obtain ⟨t, ht, hsound, -⟩ := call_spec isprint h hcalls.1 (.inl hshort.1)
    rw [runs, ht]
    exact ih hsound hcalls.2 hshort.2

theorem runs_pending (calls : List Call) : ∀ {s : State} {pend : Str}, Sound s →
    (∀ call ∈ calls, call.Proper) → Quiet isprint calls s → Pending s pend →
    ∃ s' pend', runs isprint calls s = some s' ∧ Sound s' ∧ Pending s' pend' ∧
      s'.out ++ pend' = s.out ++ pend ++ calls.flatMap Call.bytes := by
  induction calls with
  | nil => intro s pend h _ _ hpend; exact ⟨s, pend, rfl, h, hpend, by simp⟩
  | cons call calls ih =>
    intro s pend h hcalls hquiet hpend
    rw [List.forall_mem_cons] at hcalls
    obtain ⟨t, ht, hsound, hpending⟩ := call_spec isprint h hcalls.1 (.inr hquiet.1)
    obtain ⟨pend', hpend', hout⟩ := hpending hquiet.1 pend hpend
    obtain ⟨s', pend'', hs', hsound', hpend'', hout'⟩ := ih hsound hcalls.2 (hquiet.2 t ht) hpend'
    refine ⟨s', pend'', ?_, hsound', hpend'', ?_⟩
    · rw [runs, ht]
      exact hs'
    · rw [hout', hout, List.flatMap_cons, List.append_assoc]

/-- Every byte is written once and in order if `prs_cntl` is never called while some are pending and
no text with what is pending is too long for an `int`. -/
theorem runs_meets {isprint : UInt8 → Bool} {calls : List Call} (hcalls : ∀ call ∈ calls, call.Proper)
    (hquiet : Quiet isprint calls start) : Meets isprint calls := by
  obtain ⟨s, pend, hs, hsound, hpend, hout⟩ :=
    runs_pending isprint calls sound_start hcalls hquiet (pending_nil rfl)
  obtain ⟨s', hs', -, -, hflush⟩ := flushb_spec hsound
  refine ⟨s, s', hs, hs', ?_⟩
  rw [hflush pend hpend, hout]
  rfl

theorem runs_meets_word : Meets (fun c => 32 ≤ c && c < 127)
    [.prs_cntl [7], .prc_buff 97, .flushb, .prs_cntl [98], .prs_buff [99]] := by
  refine runs_meets ?_ ⟨rfl, fun s hs => ⟨trivial, fun s' hs' => ⟨trivial, fun t ht => ⟨?_,
    fun u hu => ⟨?_, fun _ _ => trivial⟩⟩⟩⟩⟩
  · simp [Call.Proper]
  · obtain rfl := Option.some.inj hs
    obtain rfl := Option.some.inj hs'
    obtain rfl := Option.some.inj ht
    rfl
  · obtain rfl := Option.some.inj hs
    obtain rfl := Option.some.inj hs'
    obtain rfl := Option.some.inj ht
    obtain rfl := Option.some.inj hu
    show 0 + 1 < 2 ^ 31
    decide

/-- `prs_cntl` overwrites what is pending. -/
theorem not_meets_pending : ¬ Meets (fun c => 32 ≤ c && c < 127) [.prc_buff 97, .prs_cntl [98]] := by
  rintro ⟨s, s', hs, hs', hout⟩
  obtain rfl := Option.some.inj hs
  obtain rfl := Option.some.inj hs'
  revert hout
  decide

end Unitas.Sh.Print
