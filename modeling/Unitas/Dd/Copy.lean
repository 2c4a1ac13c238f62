import Unitas.Dd.Turn

/-! `dd` without conversions: the output is the input when, and only when, `blkcpy` stays within
both buffers and copies what `fread` has brought. -/
namespace Unitas.Dd
open Unitas.ByteStream Unitas.CInt

/-- `dd` with block sizes only. -/
def sizes (ibs obs : ℕ) : Args := ⟨noMode, ibs, obs, 0⟩

variable (ready : ℕ → ℕ)

/-- The blocks in which `fread` returns the input. -/
def blocks (ibs : ℕ) (bytes : List UInt8) : List (List UInt8) :=
  Stream.pieces ready ibs bytes.length ⟨bytes, 0⟩

/-- What is written for a block. -/
def copied (a : Args) (block : List UInt8) : List UInt8 :=
  block.take (blkcpyLen a) ++
    List.replicate ((if block.length < a.ibs then block.length else a.obs) -
      min (blkcpyLen a) block.length) 0

/-- The copy stays within the buffers, and so does what is written. -/
def Fits (a : Args) (block : List UInt8) : Prop :=
  blkcpyLen a ≤ a.ibs ∧ blkcpyLen a ≤ a.obs ∧ (block.length < a.ibs → block.length ≤ a.obs)

/-- A block comes out as it is. -/
def Kept (a : Args) (block : List UInt8) : Prop :=
  blkcpyLen a ≤ a.ibs ∧ blkcpyLen a ≤ a.obs ∧ block.length ≤ a.obs ∧
    (block.length = a.ibs → a.ibs = a.obs) ∧ ∀ c ∈ block.drop (blkcpyLen a), c = 0

theorem process_succ (a : Args) (fuel : ℕ) : ∀ {d : State} {stop : Stop},
    process ready a fuel d = some stop → process ready a (fuel + 1) d = some stop := by
  induction fuel with
  | zero => exact fun h => absurd h (by simp [process])
  | succ fuel ih =>
    intro d stop h
    rw [process] at h ⊢
    cases hturn : turn ready a d with
    | error stop' =>
      rw [hturn] at h
      exact h
    | ok d' =>
      rw [hturn] at h
      exact ih h

/-- More turns do not change how the loop ends. -/
theorem process_unique {a : Args} {d : State} {fuel fuel' : ℕ} {stop stop' : Stop}
    (h : process ready a fuel d = some stop) (h' : process ready a fuel' d = some stop') :
    stop = stop' := by
  have hmono : ∀ {n} k {stop}, process ready a n d = some stop →
      process ready a (n + k) d = some stop := by
    intro n k stop h
    induction k with
    | zero => exact h
    | succ k ih => exact process_succ ready a _ ih
  have h1 := hmono fuel' h
  have h2 := hmono fuel h'
  rw [Nat.add_comm] at h2
  exact Option.some.inj (h1.symm.trans h2)

/-- The files and buffers between two turns. -/
structure Ready (a : Args) (d : State) : Prop where
  failAt : d.input.failAt = none
  error : d.input.error = false
  ibuf : d.ibuf.length = a.ibs
  obuf : d.obuf.length = a.obs
  eof : d.input.eof = true → d.input.stream.rest = []

/-- `fread` gets the next piece of the stream, and the end of the file only with the last one. -/
theorem fread_eq {i : Input} (hfail : i.failAt = none) (herr : i.error = false) (n : ℕ) :
    ∃ i', i.fread ready n = ((i.stream.read ready n).1, i') ∧
      i'.stream = (i.stream.read ready n).2 ∧ i'.failAt = none ∧ i'.error = false ∧
      (i'.eof = true → i.eof = true ∨ i'.stream.rest = []) ∧
      (0 < n → i.stream.rest = [] → i'.eof = true) := by
  have havail : i.available = i.stream.rest.length := by rw [Input.available, hfail]
  have htake : i.stream.rest.take (min (min n (ready i.stream.pos + 1)) i.available) =
      i.stream.rest.take (min n (ready i.stream.pos + 1)) := by
    rw [havail, ← List.take_eq_take_min]
  have hdrop : i.stream.rest.drop (min (min n (ready i.stream.pos + 1)) i.available) =
      i.stream.rest.drop (min n (ready i.stream.pos + 1)) := by
    rw [havail, ← List.drop_eq_drop_min]
  refine ⟨i.advance (min (min n (ready i.stream.pos + 1)) i.available)
    (min n (ready i.stream.pos + 1)), ?_, ?_, hfail, ?_, ?_, ?_⟩
  · rw [Input.fread, htake]
    rfl
  · simp only [Input.advance, Stream.skip, Stream.read, hdrop, Stream.mk.injEq, true_and]
    omega
  · simp only [Input.advance, herr, hfail, Option.any_none, Bool.and_false, Bool.or_false]
  · simp only [Input.advance, hfail, Option.any_none, Bool.not_false, Bool.and_true,
      Bool.or_eq_true, decide_eq_true_eq]
    rintro (h | h)
    · exact Or.inl h
    · right
      simp only [Stream.skip, List.drop_eq_nil_iff]
      omega
  · intro hn hnil
    simp only [Input.advance, hfail, Option.any_none, Bool.not_false, Bool.and_true,
      Bool.or_eq_true, decide_eq_true_eq, havail, hnil, List.length_nil]
    right
    omega

/-- A turn at the end of the input: nothing is written. -/
theorem turn_nil {ibs obs : ℕ} {d : State} (hibs : 0 < ibs) (hd : Ready (sizes ibs obs) d)
    (hnil : d.input.stream.rest = []) (heof : d.input.eof = false) :
    ∃ d', turn ready (sizes ibs obs) d = .ok d' ∧ d'.input.eof = true ∧
      d'.written = d.written := by
  obtain ⟨i', hread, hstream, hfail, herr, -, hend⟩ := fread_eq ready hd.failAt hd.error ibs
  have hempty : (d.input.stream.read ready ibs).1 = [] := by
    rw [Stream.read, hnil, List.take_nil]
  refine ⟨{ d with input := i' }, turn_empty rfl heof ?_, hend hibs hnil, rfl⟩
  exact hread.trans (congrArg (·, i') hempty)

/-- What `fwrite` takes of `obuf`, of which the bytes that `fread` did not store are no part. -/
theorem take_obuf {a : Args} {block stale : List UInt8} (hlen : block.length ≤ a.ibs)
    (hfits : Fits a block) :
    ((block ++ stale).take (blkcpyLen a) ++ List.replicate (a.obs - blkcpyLen a) 0).take
      (if block.length < a.ibs then block.length else a.obs) = copied a block := by
  obtain ⟨hi, ho, hs⟩ := hfits
  rw [copied]
  by_cases hall : block.length ≤ blkcpyLen a
  · have htake : (block ++ stale).take (blkcpyLen a) =
        block ++ stale.take (blkcpyLen a - block.length) := by
      rw [List.take_append, List.take_of_length_le hall]
    rw [htake, Nat.min_eq_right hall, List.take_of_length_le hall]
    by_cases hpart : block.length < a.ibs
    · rw [if_pos hpart, List.append_assoc, List.take_left, Nat.sub_self, List.replicate_zero,
        List.append_nil]
    · have hn : blkcpyLen a = block.length := by omega
      rw [if_neg hpart, hn, Nat.sub_self, List.take_zero, List.append_nil,
        List.take_of_length_le]
      rw [List.length_append, List.length_replicate]
      omega
  · have htake : (block ++ stale).take (blkcpyLen a) = block.take (blkcpyLen a) :=
      List.take_append_of_le_length (by omega)
    have hlen' : (block.take (blkcpyLen a)).length = blkcpyLen a := by
      rw [List.length_take]
      omega
    have hw : blkcpyLen a ≤ if block.length < a.ibs then block.length else a.obs := by
      split_ifs <;> omega
    have hw' : (if block.length < a.ibs then block.length else a.obs) ≤ a.obs := by
      split_ifs with h
      · exact hs h
      · exact le_rfl
    generalize (if block.length < a.ibs then block.length else a.obs) = w at hw hw' ⊢
    rw [htake, List.take_append, hlen', List.take_of_length_le (hlen'.trans_le hw),
      List.take_replicate, Nat.min_eq_left (by omega : blkcpyLen a ≤ block.length),
      Nat.min_eq_left (by omega)]

/-- A turn that gets a block. -/
theorem turn_block {ibs obs : ℕ} {d : State} (hibs : 0 < ibs) (hd : Ready (sizes ibs obs) d)
    (hne : d.input.stream.rest ≠ []) :
    let block := (d.input.stream.read ready ibs).1
    block ≠ [] ∧ block.length ≤ ibs ∧
    (Fits (sizes ibs obs) block → ∃ d', turn ready (sizes ibs obs) d = .ok d' ∧
      Ready (sizes ibs obs) d' ∧ d'.input.stream = (d.input.stream.read ready ibs).2 ∧
      d'.written = d.written ++ copied (sizes ibs obs) block) ∧
    (¬ Fits (sizes ibs obs) block → turn ready (sizes ibs obs) d = .error .undefined) := by
  intro block
  obtain ⟨i', hread, hstream, hfail, herr, heof, -⟩ := fread_eq ready hd.failAt hd.error ibs
  have hopen : d.input.eof = false := by
    by_contra h
    exact hne (hd.eof (by simpa using h))
  have hblock : block ≠ [] := by
    intro hnil
    rcases List.take_eq_nil_iff.mp hnil with h | h
    · omega
    · exact hne h
  have hlen : block.length ≤ ibs := by
    refine (List.length_take_le _ _).trans ?_
    omega
  let d₁ : State := (d.filled block i').counted (sizes ibs obs) block.length
  have hturn : turn ready (sizes ibs obs) d = copyOut (sizes ibs obs) block.length d₁ :=
    turn_eq rfl hopen hread hblock herr
  have hbuf : d₁.ibuf = block ++ d.ibuf.drop block.length := counted_ibuf ..
  have hibuf : d₁.ibuf.length = ibs := by
    have := hd.ibuf
    rw [hbuf, List.length_append, List.length_drop, this]
    exact Nat.add_sub_cancel' hlen
  have hobuf : d₁.obuf.length = obs := (congrArg List.length (counted_obuf ..)).trans hd.obuf
  obtain ⟨hroom, hnot⟩ := @copyOut_spec (sizes ibs obs) d₁ rfl rfl hibuf hobuf block.length
  refine ⟨hblock, hlen, fun hfits => ?_, fun h => hturn.trans (hnot h)⟩
  obtain ⟨d', hinput, hibuf', hobuf', -, hwritten, hrun⟩ := hroom hfits
  have hinput : d'.input = i' := hinput.trans (counted_input ..)
  refine ⟨d', hturn.trans (hrun.trans (if_pos rfl)), ?_, hinput ▸ hstream, ?_⟩
  · refine ⟨hinput ▸ hfail, hinput ▸ herr, hibuf' ▸ hibuf, hobuf', ?_⟩
    rw [hinput]
    exact fun h => (heof h).resolve_left (by rw [hopen]; exact Bool.false_ne_true)
  · have hbefore : d₁.written = d.written := counted_written ..
    rw [hwritten, hbefore, hbuf]
    exact congrArg _ (take_obuf hlen hfits)

theorem process_nil {ibs obs : ℕ} {d : State} (hibs : 0 < ibs) (hd : Ready (sizes ibs obs) d)
    (hnil : d.input.stream.rest = []) :
    ∃ fuel d', process ready (sizes ibs obs) fuel d = some (.done d') ∧
      d'.written = d.written := by
  have hdone : ∀ d : State, d.input.eof = true →
      process ready (sizes ibs obs) 1 d = some (.done d) := by
    intro d heof
    rw [process, turn, heof]
    rfl
  by_cases heof : d.input.eof = true
  · exact ⟨1, d, hdone d heof, rfl⟩
  · obtain ⟨d', hturn, heof', hwritten⟩ := turn_nil ready hibs hd hnil (by simpa using heof)
    refine ⟨2, d', ?_, hwritten⟩
    rw [process, hturn]
    exact hdone d' heof'

/-- The loop ends well when every block fits, and all that it has written is the copies. -/
theorem process_blocks {ibs obs : ℕ} (hibs : 0 < ibs) (n : ℕ) :
    ∀ d, d.input.stream.rest.length ≤ n → Ready (sizes ibs obs) d →
      let pieces := d.input.stream.pieces ready ibs n
      ((∀ b ∈ pieces, Fits (sizes ibs obs) b) → ∃ fuel d',
        process ready (sizes ibs obs) fuel d = some (.done d') ∧
          d'.written = d.written ++ pieces.flatMap (copied (sizes ibs obs))) ∧
      ((∃ b ∈ pieces, ¬ Fits (sizes ibs obs) b) →
        ∃ fuel, process ready (sizes ibs obs) fuel d = some .undefined) := by
  induction n with
  | zero =>
    intro d hlen hd
    have hnil : d.input.stream.rest = [] := List.length_eq_zero_iff.mp (Nat.le_zero.mp hlen)
    refine ⟨fun _ => ?_, fun ⟨b, hb, _⟩ => absurd hb List.not_mem_nil⟩
    obtain ⟨fuel, d', hproc, hwritten⟩ := process_nil ready hibs hd hnil
    exact ⟨fuel, d', hproc, hwritten.trans (List.append_nil _).symm⟩
  | succ n ih =>
    intro d hlen hd pieces
    by_cases hnil : d.input.stream.rest = []
    · have hpieces : pieces = [] := by
        obtain ⟨⟨⟨rest, pos⟩, failAt, eof, error⟩, _⟩ := d
        obtain rfl : rest = [] := hnil
        exact Stream.pieces_nil ready ibs (n + 1) pos
      rw [hpieces]
      refine ⟨fun _ => ?_, fun ⟨b, hb, _⟩ => absurd hb List.not_mem_nil⟩
      obtain ⟨fuel, d', hproc, hwritten⟩ := process_nil ready hibs hd hnil
      exact ⟨fuel, d', hproc, hwritten.trans (List.append_nil _).symm⟩
    · obtain ⟨hblock, -, hfits, hnot⟩ := turn_block ready hibs hd hnil
      have hpieces : pieces = (d.input.stream.read ready ibs).1 ::
          (d.input.stream.read ready ibs).2.pieces ready ibs n := by
        dsimp only [pieces]
        rw [Stream.pieces]
        exact if_neg hblock
      by_cases hfit : Fits (sizes ibs obs) (d.input.stream.read ready ibs).1
      · obtain ⟨d', hturn, hd', hstream, hwritten⟩ := hfits hfit
        have hrest : d'.input.stream.rest.length ≤ n := by
          have hpos : 0 < (d.input.stream.read ready ibs).1.length := List.length_pos_iff.mpr hblock
          rw [hstream]
          simp only [Stream.read, List.length_take, List.length_drop] at hpos ⊢
          omega
        obtain ⟨hall, hsome⟩ := ih d' hrest hd'
        rw [hstream] at hall hsome
        rw [hpieces]
        constructor
        · intro h
          obtain ⟨fuel, d'', hproc, hw⟩ := hall fun b hb => h b (List.mem_cons_of_mem _ hb)
          refine ⟨fuel + 1, d'', ?_, ?_⟩
          · rw [process, hturn]
            exact hproc
          · rw [hw, hwritten, List.append_assoc, List.flatMap_cons]
        · rintro ⟨b, hb, hbad⟩
          rcases List.mem_cons.mp hb with rfl | hb
          · exact absurd hfit hbad
          · obtain ⟨fuel, hproc⟩ := hsome ⟨b, hb, hbad⟩
            refine ⟨fuel + 1, ?_⟩
            rw [process, hturn]
            exact hproc
      · rw [hpieces]
        refine ⟨fun h => absurd (h _ List.mem_cons_self) hfit, fun _ => ⟨1, ?_⟩⟩
        rw [process, hnot hfit]

theorem length_copied {a : Args} {b : List UInt8} (hlen : b.length ≤ a.ibs) (hfits : Fits a b) :
    (copied a b).length = if b.length < a.ibs then b.length else a.obs := by
  obtain ⟨hi, ho, -⟩ := hfits
  rw [copied, List.length_append, List.length_take, List.length_replicate]
  generalize blkcpyLen a = n at hi ho
  split_ifs <;> omega

/-- A block comes out as it is when it fits and its copy is the block. -/
theorem kept_iff {a : Args} {b : List UInt8} (hlen : b.length ≤ a.ibs) :
    Kept a b ↔ Fits a b ∧ copied a b = b := by
  constructor
  · rintro ⟨hi, ho, hle, hfull, hzero⟩
    refine ⟨⟨hi, ho, fun _ => hle⟩, ?_⟩
    have hw : (if b.length < a.ibs then b.length else a.obs) = b.length := by
      split_ifs with h
      · rfl
      · have := hfull (by omega)
        omega
    rw [copied, hw]
    generalize blkcpyLen a = n at hzero
    have hdrop : b.drop n = List.replicate (b.length - min n b.length) 0 := by
      rw [List.eq_replicate_iff, List.length_drop]
      exact ⟨by omega, hzero⟩
    rw [← hdrop, List.take_append_drop]
  · rintro ⟨hfits, hcopied⟩
    have hwidth := length_copied hlen hfits
    obtain ⟨hi, ho, hle⟩ := hfits
    rw [hcopied] at hwidth
    refine ⟨hi, ho, ?_, ?_, ?_⟩
    · split_ifs at hwidth with h
      · exact hle h
      · omega
    · intro hfull
      rw [if_neg (by omega)] at hwidth
      omega
    · rw [copied] at hcopied
      generalize blkcpyLen a = n at hcopied
      intro c hc
      have hnlt : n < b.length := by
        by_contra h
        rw [List.drop_eq_nil_of_le (by omega)] at hc
        exact absurd hc List.not_mem_nil
      have htake : (b.take n).length = n := by
        rw [List.length_take]
        omega
      rw [← hcopied, List.drop_left' htake] at hc
      exact List.eq_of_mem_replicate hc

/-- The output of `dd` is its input, with every access within its buffer, if and only if every
block comes out as it is. -/
theorem copies_iff {ibs obs : ℕ} (hibs : 0 < ibs) {bytes ibuf obuf : List UInt8}
    (hi : ibuf.length = ibs) (ho : obuf.length = obs) :
    (∃ fuel d, process ready (sizes ibs obs) fuel (start (sizes ibs obs) bytes ibuf obuf none) =
      some (.done d) ∧ d.written = bytes) ↔
      ∀ b ∈ blocks ready ibs bytes, Kept (sizes ibs obs) b := by
  have hready : Ready (sizes ibs obs) (start (sizes ibs obs) bytes ibuf obuf none) :=
    ⟨rfl, rfl, hi, ho, fun h => absurd h Bool.false_ne_true⟩
  obtain ⟨hall, hsome⟩ := process_blocks ready hibs bytes.length
    (start (sizes ibs obs) bytes ibuf obuf none) le_rfl hready
  change (∀ b ∈ blocks ready ibs bytes, Fits (sizes ibs obs) b) → _ at hall
  change (∃ b ∈ blocks ready ibs bytes, ¬ Fits (sizes ibs obs) b) → _ at hsome
  have hflat : (blocks ready ibs bytes).flatten = bytes :=
    Stream.pieces_flatten ready hibs bytes.length ⟨bytes, 0⟩ le_rfl
  have hlen : ∀ b ∈ blocks ready ibs bytes, b.length ≤ ibs :=
    Stream.pieces_length_le ready bytes.length ⟨bytes, 0⟩
  constructor
  · rintro ⟨fuel, d, hdone, hbytes⟩
    have hfits : ∀ b ∈ blocks ready ibs bytes, Fits (sizes ibs obs) b := by
      by_contra hnot
      push Not at hnot
      obtain ⟨fuel', hundef⟩ := hsome hnot
      exact absurd (process_unique ready hdone hundef) (by simp)
    obtain ⟨fuel', d', hdone', hwritten⟩ := hall hfits
    obtain rfl : d = d' := Stop.done.inj (process_unique ready hdone hdone')
    have hcopies : (blocks ready ibs bytes).flatMap (copied (sizes ibs obs)) =
        (blocks ready ibs bytes).flatten := by
      change d.written = [] ++ (blocks ready ibs bytes).flatMap (copied (sizes ibs obs)) at hwritten
      rw [List.nil_append] at hwritten
      rw [hflat, ← hwritten, hbytes]
    have hwidth : ∀ b ∈ blocks ready ibs bytes, (copied (sizes ibs obs) b).length =
        if b.length < ibs then b.length else obs := fun b hb =>
      length_copied (hlen b hb) (hfits b hb)
    have heach := flatMap_eq_flatten (by
      rcases Nat.le_total obs ibs with h | h
      · left
        intro b hb
        rw [hwidth b hb]
        have := hlen b hb
        split_ifs <;> omega
      · right
        intro b hb
        rw [hwidth b hb]
        have := hlen b hb
        split_ifs <;> omega) hcopies
    exact fun b hb => (kept_iff (hlen b hb)).mpr ⟨hfits b hb, heach b hb⟩
  · intro hkept
    have hiff := fun b hb => (kept_iff (hlen b hb)).mp (hkept b hb)
    obtain ⟨fuel, d, hdone, hwritten⟩ := hall fun b hb => (hiff b hb).1
    refine ⟨fuel, d, hdone, ?_⟩
    have hmap : (blocks ready ibs bytes).map (copied (sizes ibs obs)) =
        blocks ready ibs bytes := by
      conv_rhs => rw [← List.map_id (blocks ready ibs bytes)]
      exact List.map_congr_left fun b hb => (hiff b hb).2
    change d.written = [] ++ (blocks ready ibs bytes).flatMap (copied (sizes ibs obs)) at hwritten
    rw [hwritten, List.nil_append, List.flatMap_def, hmap, hflat]

/-- With block sizes that an `int` can hold, `dd` only works with equal ones. -/
theorem kept_of_lt {ibs obs : ℕ} (hibs : ibs < 2 ^ 31) (hobs : obs < 2 ^ 31) {b : List UInt8}
    (hlen : b.length ≤ ibs) : Kept (sizes ibs obs) b ↔ ibs = obs := by
  have hn : blkcpyLen (sizes ibs obs) = max ibs obs := by
    have hwrap : ∀ x : ℕ, x < 2 ^ 31 → wrap 32 x = x := by
      intro x hx
      rw [wrap, Int.bmod_def]
      norm_num at hx ⊢
      omega
    rw [blkcpyLen]
    dsimp only [sizes]
    rw [hwrap ibs hibs, hwrap obs hobs, maxInt, uwrap]
    norm_num at hibs hobs ⊢
    split_ifs <;> omega
  rw [Kept, hn]
  dsimp only [sizes]
  constructor
  · rintro ⟨h1, h2, -⟩
    omega
  · rintro rfl
    rw [max_self]
    refine ⟨le_rfl, le_rfl, hlen, fun _ => rfl, ?_⟩
    rw [List.drop_eq_nil_of_le hlen]
    exact fun _ h => absurd h List.not_mem_nil

/-- A file of two bytes in blocks of one. -/
theorem copies_iff_two : (∃ fuel d, process (fun _ => 0) (sizes 1 1) fuel
    (start (sizes 1 1) [97, 98] [0] [0] none) = some (.done d) ∧ d.written = [97, 98]) ↔
      ∀ b ∈ blocks (fun _ => 0) 1 [97, 98], Kept (sizes 1 1) b :=
  copies_iff (fun _ => 0) (by decide) rfl rfl

/-- `dd ibs=1 obs=2`: two bytes are copied out of a buffer of one. -/
theorem not_copies : ¬ ∀ (ready : ℕ → ℕ) (ibs obs : ℕ) (bytes ibuf obuf : List UInt8), 0 < ibs →
    0 < obs → ibuf.length = ibs → obuf.length = obs → ∃ fuel d,
      process ready (sizes ibs obs) fuel (start (sizes ibs obs) bytes ibuf obuf none) =
        some (.done d) ∧ d.written = bytes := by
  intro h
  obtain ⟨fuel, d, hdone, -⟩ := h (fun _ => 0) 1 2 [97] [0] [0, 0] (by decide) (by decide) rfl rfl
  have hundef : process (fun _ => 0) (sizes 1 2) 1 (start (sizes 1 2) [97] [0] [0, 0] none) =
      some .undefined := by
    rfl
  exact absurd (process_unique _ hdone hundef) (by simp)

end Unitas.Dd
