import Unitas.Dd.Options
import Unitas.Dd.Copy

/-! Whether `dd` comes to an end. -/
namespace Unitas.Dd
open Unitas.ByteStream Unitas.CInt

/-- `fread` gets whole blocks up to the end of the file or an error. -/
def whole (a : Args) : ℕ → ℕ := fun _ => a.ibs

/-- `process` returns when no read has failed, or exits with status 1. -/
def Ends (a : Args) (d : State) : Prop :=
  ∃ fuel, process (whole a) a fuel d = some (.exit 1) ∨
    ∃ d', process (whole a) a fuel d = some (.done d') ∧ d'.input.error = false

theorem not_ended_zero {a : Args} {d : State} :
    ¬ (process (whole a) a 0 d = some (.exit 1) ∨
      ∃ d', process (whole a) a 0 d = some (.done d') ∧ d'.input.error = false) := by
  rintro (h | ⟨d', h, -⟩)
  · cases h
  · cases h

theorem ends_step {a : Args} {d d' : State} (h : turn (whole a) a d = .ok d') :
    Ends a d ↔ Ends a d' := by
  have hsucc : ∀ fuel, process (whole a) a (fuel + 1) d = process (whole a) a fuel d' := by
    intro fuel
    rw [process, h]
  constructor
  · rintro ⟨fuel, hend⟩
    cases fuel with
    | zero => exact (not_ended_zero hend).elim
    | succ fuel => exact ⟨fuel, by rwa [hsucc] at hend⟩
  · rintro ⟨fuel, hend⟩
    exact ⟨fuel + 1, by rwa [hsucc]⟩

theorem ends_stop {a : Args} {d : State} {stop : Stop} (h : turn (whole a) a d = .error stop) :
    Ends a d ↔ stop = .exit 1 ∨ ∃ d', stop = .done d' ∧ d'.input.error = false := by
  have hsucc : ∀ fuel, process (whole a) a (fuel + 1) d = some stop := by
    intro fuel
    rw [process, h]
  constructor
  · rintro ⟨fuel, hend⟩
    cases fuel with
    | zero => exact (not_ended_zero hend).elim
    | succ fuel => simpa only [hsucc, Option.some.injEq] using hend
  · intro hend
    exact ⟨1, by simpa only [hsucc, Option.some.injEq] using hend⟩

/-- Between two turns without conversions. -/
structure Open (a : Args) (d : State) : Prop where
  eof : d.input.eof = false
  error : d.input.error = false
  ibuf : d.ibuf.length = a.ibs
  obuf : d.obuf.length = a.obs
  counter : a.bcount ≠ 0 → 0 < d.counter

/-- A read that reaches the end fails. -/
def Input.Failing (i : Input) : Prop :=
  ∃ n, i.failAt = some n ∧ n ≤ i.stream.pos + i.stream.rest.length

instance (i : Input) : Decidable i.Failing :=
  match h : i.failAt with
  | none => .isFalse fun ⟨n, hn, _⟩ => nomatch h.symm.trans hn
  | some n => decidable_of_iff (n ≤ i.stream.pos + i.stream.rest.length) <| by
    rw [Input.Failing, h]
    simp

/-- What is read of a block, and what `fread` finds out. -/
theorem fread_whole (a : Args) (i : Input) (heof : i.eof = false) (herr : i.error = false) :
    ∃ i', i.fread (whole a) a.ibs = (i.stream.rest.take (min a.ibs i.available), i') ∧
      (i.stream.rest.take (min a.ibs i.available)).length = min a.ibs i.available ∧
      i'.available = i.available - a.ibs ∧ (i'.Failing ↔ i.Failing) ∧
      (a.ibs ≤ i.available → i'.eof = false ∧ i'.error = false) ∧
      (i.available < a.ibs → (i.Failing → i'.eof = false ∧ i'.error = true) ∧
        (¬ i.Failing → i'.eof = true ∧ i'.error = false)) := by
  have hwanted : min a.ibs (whole a i.stream.pos + 1) = a.ibs := Nat.min_eq_left (Nat.le_succ _)
  have hle : i.available ≤ i.stream.rest.length := by
    rw [Input.available]
    split
    · exact le_rfl
    · exact Nat.min_le_right _ _
  have hfail : i.failAt = none ∧ i.available = i.stream.rest.length ∨
      ∃ n, i.failAt = some n ∧ i.available = min (n - i.stream.pos) i.stream.rest.length := by
    rw [Input.available]
    cases i.failAt with
    | none => exact .inl ⟨rfl, rfl⟩
    | some n => exact .inr ⟨n, rfl, rfl⟩
  refine ⟨i.advance (min a.ibs i.available) a.ibs, ?_, ?_, ?_, ?_, ?_, ?_⟩
  · rw [Input.fread, hwanted]
  · rw [List.length_take]
    omega
  · rcases hfail with ⟨hnone, hav⟩ | ⟨n, hsome, hav⟩
    · simp only [Input.available, Input.advance, hnone, Stream.skip, List.length_drop]
      omega
    · simp only [Input.available, Input.advance, hsome, Stream.skip, List.length_drop]
      omega
  · simp only [Input.Failing, Input.advance, Stream.skip, List.length_drop]
    refine exists_congr fun n => and_congr_right fun _ => ?_
    omega
  · intro h
    have hlt : ¬ min a.ibs i.available < a.ibs := by omega
    simp [Input.advance, heof, herr, hlt]
  · intro h
    have hlt : min a.ibs i.available < a.ibs := by omega
    rcases hfail with ⟨hnone, hav⟩ | ⟨n, hsome, hav⟩
    · simp [Input.Failing, Input.advance, heof, herr, hlt, hnone]
    · have hfailed : (i.failAt.any fun p => decide (p ≤
          (i.stream.skip (min a.ibs i.available)).pos)) = decide i.Failing := by
        rw [hsome, Option.any_some, decide_eq_decide]
        simp only [Input.Failing, hsome, Option.some.injEq, exists_eq_left', Stream.skip]
        omega
      constructor
      · intro hfailing
        simp [Input.advance, heof, herr, hlt, hfailed, hfailing]
      · intro hfailing
        simp [Input.advance, heof, herr, hlt, hfailed, hfailing]

/-- The turn of a block that has been read without an error. -/
theorem turn_copy {a : Args} (hmode : a.mode = noMode) {d : State} (hd : Open a d)
    {bytes : List UInt8} {input : Input}
    (hread : d.input.fread (whole a) a.ibs = (bytes, input)) (hne : bytes ≠ [])
    (hlen : bytes.length ≤ a.ibs) (herr : input.error = false) :
    (Fits a bytes → ∃ d', d'.input = input ∧ d'.ibuf.length = a.ibs ∧ d'.obuf.length = a.obs ∧
      d'.counter = d.counter ∧ turn (whole a) a d =
        if a.bcount = 0 then .ok d' else if d.counter = 1 then .error (.done d')
        else .ok { d' with counter := d'.counter - 1 }) ∧
    (¬ Fits a bytes → turn (whole a) a d = .error .undefined) := by
  have hibuf : ((d.filled bytes input).counted a bytes.length).ibuf.length = a.ibs := by
    rw [counted_ibuf, State.filled, List.length_append, List.length_drop, hd.ibuf]
    omega
  have hobuf : ((d.filled bytes input).counted a bytes.length).obuf.length = a.obs := by
    rw [counted_obuf]
    exact hd.obuf
  have hturn : turn (whole a) a d =
      copyOut a bytes.length ((d.filled bytes input).counted a bytes.length) := by
    rw [turn_eq (by rw [hmode]; rfl) hd.eof hread hne herr]
    unfold Dd.convert
    rw [hmode]
    rfl
  obtain ⟨hroom, hover⟩ := copyOut_spec (by rw [hmode]; rfl) (by rw [hmode]; rfl) hibuf hobuf
    bytes.length
  rw [hturn]
  refine ⟨fun hfits => ?_, hover⟩
  obtain ⟨d', hinput, hibuf', hobuf', hcounter, -, hcopy⟩ := hroom hfits
  rw [counted_input] at hinput
  rw [counted_counter] at hcounter hcopy
  exact ⟨d', hinput, hibuf' ▸ hibuf, hobuf', hcounter, hcopy⟩

/-- Where no read gets anything and none is at the end of the file, there is no way out. -/
theorem not_ends {a : Args} (hmode : a.mode = noMode) {d : State} (heof : d.input.eof = false)
    (hfail : a.ibs = 0 ∨ d.input.available = 0 ∧ d.input.Failing) : ¬ Ends a d := by
  rintro ⟨fuel, hend⟩
  induction fuel generalizing d with
  | zero => exact not_ended_zero hend
  | succ fuel ih =>
    have hwanted : min a.ibs (whole a d.input.stream.pos + 1) = a.ibs :=
      Nat.min_eq_left (Nat.le_succ _)
    have hnone : min a.ibs d.input.available = 0 := by omega
    have hread : d.input.fread (whole a) a.ibs = ([], d.input.advance 0 a.ibs) := by
      rw [Input.fread, hwanted, hnone, List.take_zero]
    rw [process, turn_empty (by rw [hmode]; rfl) heof hread] at hend
    refine ih ?_ ?_ hend
    · rcases hfail with h | ⟨havail, n, hn, hle⟩
      · simp [Input.advance, heof, h]
      · have hpos : n ≤ (d.input.stream.skip 0).pos := by
          rw [Input.available, hn] at havail
          rw [Stream.skip_zero]
          dsimp only at havail
          omega
        simp [Input.advance, heof, hn, hpos]
    · refine hfail.imp_right ?_
      rintro ⟨havail, hfailing⟩
      rw [Input.available, Input.Failing] at *
      dsimp only [Input.advance]
      rw [Stream.skip_zero]
      exact ⟨havail, hfailing⟩

/-- With which sizes and failures the loop ends, for `n` bytes that can be read and a count. -/
def EndsAt (a : Args) (n count : ℕ) (failing : Prop) : Prop :=
  0 < a.ibs ∧ (a.ibs ≤ n ∨ 0 < n ∧ ¬ failing → blkcpyLen a ≤ a.ibs ∧ blkcpyLen a ≤ a.obs) ∧
    (a.bcount = 0 ∨ n / a.ibs < count →
      (failing → n % a.ibs ≠ 0) ∧ (¬ failing → n % a.ibs ≤ a.obs))

/-- A whole block that is copied makes no difference. -/
theorem endsAt_sub {a : Args} {n count count' : ℕ} {failing : Prop} (hpos : 0 < a.ibs)
    (hn : a.ibs ≤ n) (hfits : blkcpyLen a ≤ a.ibs ∧ blkcpyLen a ≤ a.obs)
    (hcount : a.bcount = 0 ∨ count = count' + 1) :
    EndsAt a n count failing ↔ EndsAt a (n - a.ibs) count' failing := by
  have hmod : (n - a.ibs) % a.ibs = n % a.ibs := (Nat.mod_eq_sub_mod hn).symm
  have hdiv : n / a.ibs = (n - a.ibs) / a.ibs + 1 := Nat.div_eq_sub_div hpos hn
  have hreaches : (a.bcount = 0 ∨ n / a.ibs < count) ↔
      (a.bcount = 0 ∨ (n - a.ibs) / a.ibs < count') := by omega
  rw [EndsAt, EndsAt, hmod, hreaches]
  exact and_congr_right fun _ => and_congr_left fun _ =>
    ⟨fun _ _ => hfits, fun _ _ => hfits⟩

theorem ends_iff {a : Args} (hmode : a.mode = noMode) (n : ℕ) : ∀ {d : State}, Open a d →
    d.input.available = n → (Ends a d ↔ EndsAt a n d.counter d.input.Failing) := by
  have hdone : ∀ {d : State}, d.input.eof = true → d.input.error = false → Ends a d := by
    intro d heof herr
    exact (ends_stop (turn_eof heof)).mpr (.inr ⟨d, rfl, herr⟩)
  induction n using Nat.strong_induction_on with
  | _ n ih =>
    intro d hd hn
    by_cases hpos : a.ibs = 0
    · exact iff_of_false (not_ends hmode hd.eof (.inl hpos)) fun h => absurd h.1 (by omega)
    have hpos := Nat.pos_of_ne_zero hpos
    obtain ⟨i', hread, hlen, havail, hfailing, hfull, hpart⟩ :=
      fread_whole a d.input hd.eof hd.error
    rw [hn] at hread hlen havail hfull hpart
    generalize d.input.stream.rest.take (min a.ibs n) = bytes at hread hlen
    have hreach : n < a.ibs → a.bcount = 0 ∨ n / a.ibs < d.counter := by
      intro hlt
      rw [Nat.div_eq_of_lt hlt]
      by_cases hb : a.bcount = 0
      · exact .inl hb
      · exact .inr (hd.counter hb)
    by_cases hzero : n = 0
    · obtain rfl : bytes = [] := List.length_eq_zero_iff.mp (by omega)
      by_cases hf : d.input.Failing
      · refine iff_of_false (not_ends hmode hd.eof (.inr ⟨hn.trans hzero, hf⟩)) fun h => ?_
        exact (h.2.2 (hreach (by omega))).1 hf (by rw [hzero, Nat.zero_mod])
      · obtain ⟨heof, herr⟩ := (hpart (by omega)).2 hf
        refine iff_of_true ((ends_step (turn_empty (by rw [hmode]; rfl) hd.eof hread)).mpr (hdone heof herr)) ?_
        refine ⟨hpos, fun h => ?_, fun _ => ⟨fun h => absurd h hf, fun _ => ?_⟩⟩
        · omega
        · rw [hzero, Nat.zero_mod]
          exact Nat.zero_le _
    have hne : bytes ≠ [] := by
      rintro rfl
      rw [List.length_nil] at hlen
      omega
    by_cases hlt : n < a.ibs
    · have hmod : n % a.ibs = n := Nat.mod_eq_of_lt hlt
      by_cases hf : d.input.Failing
      · obtain ⟨-, herr⟩ := (hpart hlt).1 hf
        have hturn := turn_failed (by rw [hmode]; rfl) (by rw [hmode]; rfl) hd.eof hread hne herr
        refine iff_of_true ((ends_stop hturn).mpr (.inl rfl)) ⟨hpos, fun h => ?_, fun _ =>
          ⟨fun _ => by rwa [hmod], fun h => absurd hf h⟩⟩
        exact absurd hf (h.resolve_left (by omega)).2
      · obtain ⟨heof, herr⟩ := (hpart hlt).2 hf
        obtain ⟨hcopy, hover⟩ := turn_copy hmode hd hread hne (by omega) herr
        have hfits : EndsAt a n d.counter d.input.Failing ↔ Fits a bytes := by
          have hbytes : bytes.length = n := by omega
          rw [Fits, EndsAt, hmod, hbytes]
          constructor
          · rintro ⟨-, hcpy, hle⟩
            obtain ⟨hi, ho⟩ := hcpy (.inr ⟨by omega, hf⟩)
            exact ⟨hi, ho, fun _ => (hle (hreach hlt)).2 hf⟩
          · rintro ⟨hi, ho, hle⟩
            exact ⟨hpos, fun _ => ⟨hi, ho⟩, fun _ => ⟨fun h => absurd h hf, fun _ => hle hlt⟩⟩
        rw [hfits]
        by_cases hfit : Fits a bytes
        · obtain ⟨d', hinput, -, -, -, hturn⟩ := hcopy hfit
          refine iff_of_true ?_ hfit
          split_ifs at hturn
          · exact (ends_step hturn).mpr (hdone (hinput ▸ heof) (hinput ▸ herr))
          · exact (ends_stop hturn).mpr (.inr ⟨d', rfl, hinput ▸ herr⟩)
          · exact (ends_step hturn).mpr (hdone (hinput ▸ heof) (hinput ▸ herr))
        · refine iff_of_false (fun h => ?_) hfit
          exact ((ends_stop (hover hfit)).mp h).elim nofun fun ⟨_, h, _⟩ => nomatch h
    · obtain ⟨heof, herr⟩ := hfull (by omega)
      obtain ⟨hcopy, hover⟩ := turn_copy hmode hd hread hne (by omega) herr
      have hfits : Fits a bytes ↔ blkcpyLen a ≤ a.ibs ∧ blkcpyLen a ≤ a.obs :=
        ⟨fun h => ⟨h.1, h.2.1⟩, fun h => ⟨h.1, h.2, fun h => absurd h (by omega)⟩⟩
      by_cases hfit : Fits a bytes
      · obtain ⟨d', hinput, hibuf, hobuf, hcounter, hturn⟩ := hcopy hfit
        have hopen : ∀ {count}, (a.bcount ≠ 0 → 0 < count) →
            Open a { d' with counter := count } := fun hcount =>
          ⟨hinput ▸ heof, hinput ▸ herr, hibuf, hobuf, hcount⟩
        split_ifs at hturn with hb hone
        · rw [ends_step hturn, endsAt_sub hpos (by omega) (hfits.mp hfit) (.inl hb), ← hfailing,
            ← hinput]
          exact ih _ (by omega) (hopen fun h => absurd hb h) (hinput ▸ havail)
        · refine iff_of_true ((ends_stop hturn).mpr (.inr ⟨d', rfl, hinput ▸ herr⟩))
            ⟨hpos, fun _ => hfits.mp hfit, fun h => ?_⟩
          have := Nat.div_pos (show a.ibs ≤ n by omega) hpos
          omega
        · have hcount : d.counter = d'.counter - 1 + 1 := by
            have := hd.counter hb
            omega
          rw [ends_step hturn, endsAt_sub hpos (by omega) (hfits.mp hfit) (.inr hcount),
            ← hfailing, ← hinput]
          exact ih _ (by omega) (hopen fun _ => by omega) (hinput ▸ havail)
      · refine iff_of_false (fun h => ?_) fun h => hfit (hfits.mpr (h.2.1 (.inl (by omega))))
        exact ((ends_stop (hover hfit)).mp h).elim nofun fun ⟨_, h, _⟩ => nomatch h

theorem open_start {o : Opts} {bytes ibuf obuf : List UInt8} {failAt : Option ℕ}
    (hi : ibuf.length = o.ibs) (ho : obuf.length = o.obs) :
    Open o.args (start o.args bytes ibuf obuf failAt) :=
  ⟨rfl, rfl, hi, ho, Nat.pos_of_ne_zero⟩

/-- How many of `length` bytes can be read. -/
def readable (length : ℕ) (failAt : Option ℕ) : ℕ := (failAt.map (min length)).getD length

/-- For the options that `main` accepts, `process` ends well if and only if blocks are not empty,
what is copied fits in both buffers, and a read that fails has got a part of a block before. -/
theorem process_ends_iff {argv : List (List UInt8)} {o : Opts} (h : options argv = .ok o)
    {bytes ibuf obuf : List UInt8} (failAt : Option ℕ) (hi : ibuf.length = o.ibs)
    (ho : obuf.length = o.obs) :
    Ends o.args (start o.args bytes ibuf obuf failAt) ↔
      EndsAt o.args (readable bytes.length failAt) o.bcount (∃ n ≤ bytes.length, failAt = some n) := by
  have hmode : o.args.mode = noMode := by
    rw [Opts.args, options_mode h]
    rfl
  have havail : (start o.args bytes ibuf obuf failAt).input.available =
      readable bytes.length failAt := by
    rw [readable]
    cases failAt with
    | none => rfl
    | some n => exact Nat.min_comm _ _
  have hfailing : (start o.args bytes ibuf obuf failAt).input.Failing ↔
      ∃ n ≤ bytes.length, failAt = some n := by
    simp only [Input.Failing, start, Nat.zero_add]
    exact exists_congr fun n => and_comm
  rw [ends_iff hmode _ (open_start hi ho) havail, EndsAt, EndsAt, hfailing]
  rfl

/-- `dd` alone, for an input of one byte. -/
theorem process_ends_iff_defaults :
    Ends defaults.args (start defaults.args [97] (List.replicate 512 0) (List.replicate 512 0) none) ↔
      EndsAt defaults.args (readable 1 none) 0 (∃ n ≤ 1, (none : Option ℕ) = some n) :=
  @process_ends_iff [] defaults rfl [97] _ _ none List.length_replicate List.length_replicate

/-- The first read fails: `dd` reads again and again. -/
theorem not_process_ends : ¬ ∀ (argv : List (List UInt8)) (o : Opts), options argv = .ok o →
    ∀ (bytes ibuf obuf : List UInt8) (failAt : Option ℕ), ibuf.length = o.ibs →
      obuf.length = o.obs → Ends o.args (start o.args bytes ibuf obuf failAt) := by
  intro h
  have hends := h [] defaults rfl [] (List.replicate 512 0) (List.replicate 512 0) (some 0)
    List.length_replicate List.length_replicate
  exact not_ends rfl rfl (.inr ⟨rfl, 0, rfl, le_rfl⟩) hends

end Unitas.Dd
