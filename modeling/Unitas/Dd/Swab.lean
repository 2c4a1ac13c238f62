import Mathlib.Logic.Relation
import Unitas.Dd.Copy

/-! `dd conv=swab`: the bytes of each pair are exchanged when, and only when, every block has an
even length. -/
namespace Unitas.Dd
open Unitas.ByteStream Unitas.CInt

/-- `dd conv=swab` with both block sizes `n`. -/
def swab (n : ℕ) : Args := ⟨{ noMode with swab := true }, n, n, 0⟩

@[simp] theorem length_swapPairs (bytes : List UInt8) :
    (swapPairs bytes).length = bytes.length := by
  fun_induction swapPairs bytes with
  | case1 c c' bytes ih => rw [List.length_cons, List.length_cons, ih]; rfl
  | case2 => rfl

@[simp] theorem swapPairs_swapPairs (bytes : List UInt8) : swapPairs (swapPairs bytes) = bytes := by
  fun_induction swapPairs bytes with
  | case1 c c' bytes ih => rw [swapPairs, ih]
  | case2 bytes h =>
    match bytes, h with
    | [], _ => rfl
    | [c], _ => rfl
    | c :: c' :: bytes, h => exact absurd rfl (h c c' bytes)

theorem swapPairs_append {bytes : List UInt8} (h : bytes.length % 2 = 0) (rest : List UInt8) :
    swapPairs (bytes ++ rest) = swapPairs bytes ++ swapPairs rest := by
  fun_induction swapPairs bytes with
  | case1 c c' bytes ih =>
    rw [List.cons_append, List.cons_append, swapPairs,
      ih (by rw [List.length_cons, List.length_cons] at h; omega)]
    rfl
  | case2 bytes hne =>
    match bytes, hne, h with
    | [], _, _ => rfl
    | [c], _, h => exact absurd h (by simp)
    | c :: c' :: bytes, hne, _ => exact absurd rfl (hne c c' bytes)

/-- What comes out of a block of even length is the block with its pairs exchanged. -/
theorem take_swapPairs {b : List UInt8} (h : b.length % 2 = 0) (stale : List UInt8) :
    (swapPairs (b ++ stale)).take b.length = swapPairs b := by
  rw [swapPairs_append h, ← length_swapPairs b, List.take_left]

/-- The last byte of a block of odd length is one that was in the buffer. -/
theorem take_swapPairs_odd {b : List UInt8} (h : b.length % 2 = 1) (e : UInt8)
    (stale : List UInt8) : (swapPairs (b ++ e :: stale)).take b.length =
      swapPairs b.dropLast ++ [e] := by
  have hne : b ≠ [] := by
    rintro rfl
    exact absurd h (by decide)
  have hlen : b.dropLast.length % 2 = 0 := by
    rw [List.length_dropLast]
    omega
  have hb : b ++ e :: stale = b.dropLast ++ (b.getLast hne :: e :: stale) := by
    conv_lhs => rw [← List.dropLast_append_getLast hne]
    rw [List.append_assoc]
    rfl
  have hsplit : swapPairs (b ++ e :: stale) =
      (swapPairs b.dropLast ++ [e]) ++ b.getLast hne :: swapPairs stale := by
    rw [hb, swapPairs_append hlen, swapPairs, List.append_assoc]
    rfl
  rw [hsplit, List.take_left']
  rw [List.length_append, length_swapPairs, List.length_dropLast, List.length_singleton]
  have := List.length_pos_iff.mpr hne
  omega

theorem blkcpyLen_swab {n : ℕ} (hn : n < 2 ^ 32) :
    blkcpyLen (swab n) = if n < 2 ^ 31 then n else n + (2 ^ 64 - 2 ^ 32) := by
  have hmax : ∀ x : ℤ, maxInt x x = x := fun x => ite_self x
  rw [blkcpyLen]
  dsimp only [swab]
  rw [hmax, wrap, uwrap, Int.bmod_def]
  norm_num at hn ⊢
  split_ifs <;> omega

/-- Sizes with which a block can be processed. -/
def Swaps (n : ℕ) : Prop := n < 2 ^ 31 ∧ n % 2 = 0

variable (ready : ℕ → ℕ)

theorem turn_swab {n : ℕ} (hpos : 0 < n) {d : State} (hd : Ready (swab n) d)
    (hne : d.input.stream.rest ≠ []) :
    let block := (d.input.stream.read ready n).1
    block ≠ [] ∧ block.length ≤ n ∧
    (Swaps n → ∃ d', turn ready (swab n) d = .ok d' ∧ Ready (swab n) d' ∧
      d'.input.stream = (d.input.stream.read ready n).2 ∧ d'.written = d.written ++
        (swapPairs (block ++ d.ibuf.drop block.length)).take block.length) ∧
    (¬ Swaps n → ∃ stop, turn ready (swab n) d = .error stop ∧ ∀ d', stop ≠ .done d') := by
  intro block
  obtain ⟨i', hread, hstream, hfail, herr, heof, -⟩ := fread_eq ready hd.failAt hd.error n
  have hopen : d.input.eof = false := by
    by_contra h
    exact hne (hd.eof (by simpa using h))
  have hblock : block ≠ [] := by
    intro hnil
    rcases List.take_eq_nil_iff.mp hnil with h | h
    · omega
    · exact hne h
  have hlen : block.length ≤ n := by
    refine (List.length_take_le _ _).trans ?_
    omega
  let buf := block ++ d.ibuf.drop block.length
  have hbuf : buf.length = n := by
    have : d.ibuf.length = n := hd.ibuf
    rw [List.length_append, List.length_drop, this]
    exact Nat.add_sub_cancel' hlen
  let f := (d.filled block i').counted (swab n) block.length
  have hturn : turn ready (swab n) d = bswab (swab n) f >>= copyOut (swab n) block.length := by
    have hconv : Dd.convert (swab n) f = bswab (swab n) f >>= Except.ok := rfl
    rw [turn_eq rfl hopen hread hblock herr, hconv]
    cases bswab (swab n) f <;> rfl
  have hswab : bswab (swab n) f =
      if 2 ^ 32 ≤ n then .error .hangs
      else if n % 2 = 1 then .error .undefined else .ok { f with ibuf := swapPairs buf } := by
    have hf : f.ibuf = buf := counted_ibuf ..
    rw [bswab, hf]
    change (if 2 ^ 32 ≤ n then _ else if n % 2 = 1 ∨ buf.length < n then _ else
      Except.ok { f with ibuf := swapPairs (buf.take n) ++ buf.drop n }) = _
    rw [hbuf, List.take_of_length_le hbuf.le, List.drop_eq_nil_of_le hbuf.le, List.append_nil]
    simp only [lt_irrefl, or_false]
  refine ⟨hblock, hlen, ?_, ?_⟩
  · rintro ⟨hn, heven⟩
    have hcpy : blkcpyLen (swab n) = n := by
      rw [blkcpyLen_swab (by omega), if_pos hn]
    rw [if_neg (by omega), if_neg (by omega)] at hswab
    have hroom : Room (swab n) block.length := ⟨hcpy.le, hcpy.le, fun _ => hlen⟩
    obtain ⟨d', hinput, hibuf, hobuf, -, hwritten, hcopy⟩ :=
      (@copyOut_spec (swab n) { f with ibuf := swapPairs buf } rfl rfl
        ((length_swapPairs buf).trans hbuf) ((counted_obuf ..).symm ▸ hd.obuf) block.length).1 hroom
    have hinput' : d'.input = i' := hinput.trans (counted_input ..)
    refine ⟨d', ?_, ⟨hinput' ▸ hfail, hinput' ▸ herr, ?_, hobuf, ?_⟩, hinput' ▸ hstream, ?_⟩
    · rw [hturn, hswab]
      exact hcopy
    · rw [hibuf]
      exact (length_swapPairs buf).trans hbuf
    · rw [hinput']
      exact fun h => (heof h).resolve_left (by rw [hopen]; exact Bool.false_ne_true)
    · have hwidth : (if block.length < (swab n).ibs then block.length else (swab n).obs) =
          block.length := by
        change (if block.length < n then block.length else n) = block.length
        split_ifs <;> omega
      rw [hwritten, hcpy, hwidth]
      change (f.written ++ ((swapPairs buf).take n ++ List.replicate (n - n) 0).take _) = _
      rw [counted_written, List.take_of_length_le ((length_swapPairs buf).trans hbuf).le,
        Nat.sub_self, List.replicate_zero, List.append_nil]
      rfl
  · intro hnot
    rw [hturn, hswab]
    split_ifs with h1 h2
    · exact ⟨.hangs, rfl, nofun⟩
    · exact ⟨.undefined, rfl, nofun⟩
    · have hbig : ¬ n < 2 ^ 31 := fun h => hnot ⟨h, by omega⟩
      refine ⟨.undefined, ?_, nofun⟩
      refine (@copyOut_spec (swab n) { f with ibuf := swapPairs buf } rfl rfl
        ((length_swapPairs buf).trans hbuf) ((counted_obuf ..).symm ▸ hd.obuf) block.length).2 ?_
      rintro ⟨hle, -⟩
      rw [blkcpyLen_swab (by omega), if_neg hbig] at hle
      change n + (2 ^ 64 - 2 ^ 32) ≤ n at hle
      omega

/-- What has been written when a turn comes to its end. -/
def wrote : Except Stop State → Option (List UInt8)
  | .ok d => some d.written
  | .error (.done d) => some d.written
  | .error _ => none

/-- What a turn writes does not depend on what has been left in `ibuf`. -/
def Unaffected (a : Args) (d : State) : Prop :=
  ∀ ibuf : List UInt8, ibuf.length = a.ibs →
    wrote (turn ready a { d with ibuf }) = wrote (turn ready a d)

/-- The states between the turns from `d` on. -/
def Reaches (a : Args) : State → State → Prop :=
  Relation.ReflTransGen fun d d' => turn ready a d = .ok d'

/-- At the end of the input nothing is written. -/
theorem unaffected_of_nil {n : ℕ} {d : State} (hd : Ready (swab n) d)
    (hnil : d.input.stream.rest = []) : Unaffected ready (swab n) d := by
  intro ibuf _
  by_cases heof : d.input.eof = true
  · rw [turn_eof heof, @turn_eof ready (swab n) { d with ibuf } heof]
    rfl
  · have heof : d.input.eof = false := by simpa using heof
    obtain ⟨i', hread, -⟩ := fread_eq ready hd.failAt hd.error n
    have hempty : (d.input.stream.read ready n).1 = [] := by
      rw [Stream.read, hnil, List.take_nil]
    rw [hempty] at hread
    rw [@turn_empty ready (swab n) d i' rfl heof hread,
      @turn_empty ready (swab n) { d with ibuf } i' rfl heof hread]
    rfl

/-- What a turn writes of a block of even length does not depend on the rest of `ibuf`. -/
theorem unaffected_of_even {n : ℕ} (hpos : 0 < n) (hn : Swaps n) {d : State}
    (hd : Ready (swab n) d)
    (heven : d.input.stream.rest ≠ [] → (d.input.stream.read ready n).1.length % 2 = 0) :
    Unaffected ready (swab n) d := by
  intro ibuf hibuf
  have hd' : Ready (swab n) { d with ibuf } := ⟨hd.failAt, hd.error, hibuf, hd.obuf, hd.eof⟩
  by_cases hnil : d.input.stream.rest = []
  · exact unaffected_of_nil ready hd hnil ibuf hibuf
  · obtain ⟨-, -, hok, -⟩ := turn_swab ready hpos hd hnil
    obtain ⟨-, -, hok', -⟩ := turn_swab ready hpos hd' hnil
    obtain ⟨e, hturn, -, -, hwritten⟩ := hok hn
    obtain ⟨e', hturn', -, -, hwritten'⟩ := hok' hn
    rw [take_swapPairs (heven hnil)] at hwritten hwritten'
    rw [hturn, hturn', wrote, wrote, hwritten, hwritten']

/-- The last byte of a block of odd length comes from the rest of `ibuf`. -/
theorem even_of_unaffected {n : ℕ} (hpos : 0 < n) (hn : Swaps n) {d : State}
    (hd : Ready (swab n) d) (hne : d.input.stream.rest ≠ [])
    (hun : Unaffected ready (swab n) d) :
    (d.input.stream.read ready n).1.length % 2 = 0 := by
  by_contra hodd
  have hwritten : ∀ c : UInt8, wrote (turn ready (swab n) d) = some (d.written ++
      (swapPairs (d.input.stream.read ready n).1.dropLast ++ [c])) := by
    intro c
    have hlen : (List.replicate n c).length = n := List.length_replicate
    have hd' : Ready (swab n) { d with ibuf := List.replicate n c } :=
      ⟨hd.failAt, hd.error, hlen, hd.obuf, hd.eof⟩
    obtain ⟨-, hle, hok, -⟩ := turn_swab ready hpos hd' hne
    obtain ⟨e, hturn, -, -, hw⟩ := hok hn
    have hstale : n - (d.input.stream.read ready n).1.length =
        n - (d.input.stream.read ready n).1.length - 1 + 1 := by
      have := hn.2
      change (d.input.stream.read ready n).1.length ≤ n at hle
      omega
    dsimp only at hw
    rw [List.drop_replicate, hstale, List.replicate_succ,
      take_swapPairs_odd (by omega)] at hw
    rw [← hun _ hlen, hturn, wrote, hw]
  have heq := (hwritten 0).symm.trans (hwritten 1)
  have hsame := List.append_cancel_left (List.append_cancel_left (Option.some.inj heq))
  exact absurd hsame (by decide)

/-- The pieces of a stream from which a block can still be read. -/
theorem pieces_cons {n k : ℕ} {s : Stream UInt8} (hne : (s.read ready n).1 ≠ []) :
    s.pieces ready n (k + 1) = (s.read ready n).1 :: (s.read ready n).2.pieces ready n k := by
  rw [Stream.pieces]
  exact if_neg hne

theorem length_rest_read {n k : ℕ} {s : Stream UInt8} (hne : (s.read ready n).1 ≠ [])
    (hk : s.rest.length ≤ k + 1) : (s.read ready n).2.rest.length ≤ k := by
  have hpos : 0 < (s.read ready n).1.length := List.length_pos_iff.mpr hne
  simp only [Stream.read, List.length_take, List.length_drop] at hpos ⊢
  omega

/-- What is still to be read comes in blocks of even length. -/
structure EvenBlocks (n : ℕ) (d : State) : Prop where
  state : Ready (swab n) d
  even : ∃ k, d.input.stream.rest.length ≤ k ∧
    ∀ b ∈ d.input.stream.pieces ready n k, b.length % 2 = 0

variable {ready}

/-- The next block, and the blocks after it. -/
theorem EvenBlocks.cons {n : ℕ} (hpos : 0 < n) {d : State} (h : EvenBlocks ready n d)
    (hne : d.input.stream.rest ≠ []) : (d.input.stream.read ready n).1.length % 2 = 0 ∧
      ∃ k, (d.input.stream.read ready n).2.rest.length ≤ k ∧
        ∀ b ∈ (d.input.stream.read ready n).2.pieces ready n k, b.length % 2 = 0 := by
  obtain ⟨hblock, -⟩ := turn_swab ready hpos h.state hne
  obtain ⟨k, hk, heven⟩ := h.even
  cases k with
  | zero => exact absurd (List.length_eq_zero_iff.mp (Nat.le_zero.mp hk)) hne
  | succ k =>
    rw [pieces_cons ready hblock] at heven
    obtain ⟨hb, hbs⟩ := List.forall_mem_cons.mp heven
    exact ⟨hb, k, length_rest_read ready hblock hk, hbs⟩

/-- A turn at the end of the input, if it is not the last one. -/
theorem turn_swab_nil {n : ℕ} (hpos : 0 < n) {d : State} (hd : Ready (swab n) d)
    (hnil : d.input.stream.rest = []) (heof : d.input.eof = false) :
    ∃ d', turn ready (swab n) d = .ok d' ∧ Ready (swab n) d' ∧ d'.input.stream.rest = [] ∧
      d'.input.eof = true ∧ d'.written = d.written := by
  obtain ⟨i', hread, hstream, hfail, herr, -, hend⟩ := fread_eq ready hd.failAt hd.error n
  have hempty : (d.input.stream.read ready n).1 = [] := by
    rw [Stream.read, hnil, List.take_nil]
  have hrest : i'.stream.rest = [] := by
    rw [hstream, Stream.read, hnil, List.drop_nil]
  rw [hempty] at hread
  exact ⟨_, @turn_empty ready (swab n) d i' rfl heof hread,
    ⟨hfail, herr, hd.ibuf, hd.obuf, fun _ => hrest⟩, hrest, hend hpos hnil, rfl⟩

theorem unaffected_of_reaches {n : ℕ} (hpos : 0 < n) {d d' : State} (hd : Ready (swab n) d)
    (hnil : d.input.stream.rest = []) (hreach : Reaches ready (swab n) d d') :
    Unaffected ready (swab n) d' := by
  have hend : Ready (swab n) d' ∧ d'.input.stream.rest = [] := by
    induction hreach with
    | refl => exact ⟨hd, hnil⟩
    | @tail e e' _ hturn ih =>
      by_cases heof : e.input.eof = true
      · exact nomatch (turn_eof heof).symm.trans hturn
      · obtain ⟨e₁, he, hready, hrest, -⟩ := turn_swab_nil hpos ih.1 ih.2 (by simpa using heof)
        obtain rfl := Except.ok.inj (he.symm.trans hturn)
        exact ⟨hready, hrest⟩
  exact unaffected_of_nil ready hend.1 hend.2

theorem EvenBlocks.step {n : ℕ} (hpos : 0 < n) (hn : Swaps n) {d d' : State}
    (h : EvenBlocks ready n d) (hturn : turn ready (swab n) d = .ok d') :
    EvenBlocks ready n d' := by
  by_cases hnil : d.input.stream.rest = []
  · by_cases heof : d.input.eof = true
    · exact nomatch (turn_eof heof).symm.trans hturn
    · obtain ⟨e, he, hready, hrest, -⟩ := turn_swab_nil hpos h.state hnil (by simpa using heof)
      obtain rfl := Except.ok.inj (he.symm.trans hturn)
      exact ⟨hready, 0, by rw [hrest]; rfl, fun b hb => absurd hb List.not_mem_nil⟩
  · obtain ⟨-, -, hok, -⟩ := turn_swab ready hpos h.state hnil
    obtain ⟨e, he, hready, hstream, -⟩ := hok hn
    obtain rfl := Except.ok.inj (he.symm.trans hturn)
    exact ⟨hready, hstream ▸ (h.cons hpos hnil).2⟩

/-- No turn of the run depends on what has been left in `ibuf`. -/
theorem EvenBlocks.unaffected {n : ℕ} (hpos : 0 < n) (hn : Swaps n) {d d' : State}
    (h : EvenBlocks ready n d) (hreach : Reaches ready (swab n) d d') :
    Unaffected ready (swab n) d' := by
  have hd' : EvenBlocks ready n d' := by
    induction hreach with
    | refl => exact h
    | tail _ hturn ih => exact ih.step hpos hn hturn
  exact unaffected_of_even ready hpos hn hd'.state fun hne => (hd'.cons hpos hne).1

/-- The whole run exchanges the bytes of every pair of the input. -/
theorem EvenBlocks.process {n : ℕ} (hpos : 0 < n) (hn : Swaps n) (k : ℕ) : ∀ {d : State},
    d.input.stream.rest.length ≤ k → EvenBlocks ready n d →
    ∃ fuel d', process ready (swab n) fuel d = some (.done d') ∧
      d'.written = d.written ++ swapPairs d.input.stream.rest := by
  have hstop : ∀ {d : State}, Ready (swab n) d → d.input.stream.rest = [] →
      ∃ fuel d', Dd.process ready (swab n) fuel d = some (.done d') ∧ d'.written = d.written := by
    intro d hd hnil
    by_cases heof : d.input.eof = true
    · exact ⟨1, d, by rw [Dd.process, turn_eof heof], rfl⟩
    · obtain ⟨d', hturn, -, -, heof', hw⟩ := turn_swab_nil hpos hd hnil (by simpa using heof)
      refine ⟨2, d', ?_, hw⟩
      rw [Dd.process, hturn]
      change Dd.process ready (swab n) 1 d' = _
      rw [Dd.process, turn_eof heof']
  induction k with
  | zero =>
    intro d hk h
    have hnil : d.input.stream.rest = [] := List.length_eq_zero_iff.mp (Nat.le_zero.mp hk)
    obtain ⟨fuel, d', hproc, hw⟩ := hstop h.state hnil
    exact ⟨fuel, d', hproc, by rw [hw, hnil]; exact (List.append_nil _).symm⟩
  | succ k ih =>
    intro d hk h
    by_cases hnil : d.input.stream.rest = []
    · obtain ⟨fuel, d', hproc, hw⟩ := hstop h.state hnil
      exact ⟨fuel, d', hproc, by rw [hw, hnil]; exact (List.append_nil _).symm⟩
    · obtain ⟨hblock, -, hok, -⟩ := turn_swab ready hpos h.state hnil
      obtain ⟨d₁, hturn, -, hstream, hw₁⟩ := hok hn
      have heven := (h.cons hpos hnil).1
      obtain ⟨fuel, d', hproc, hw⟩ := ih (hstream ▸ length_rest_read ready hblock hk)
        (h.step hpos hn hturn)
      refine ⟨fuel + 1, d', by rw [Dd.process, hturn]; exact hproc, ?_⟩
      have hrest : (d.input.stream.read ready n).1 ++ (d.input.stream.read ready n).2.rest =
          d.input.stream.rest := List.take_append_drop _ _
      rw [hw, hw₁, hstream, take_swapPairs heven, List.append_assoc, ← swapPairs_append heven,
        hrest]

/-- If no turn of the run depends on what has been left in `ibuf`, the blocks have even lengths. -/
theorem even_of_reaches {n : ℕ} (hpos : 0 < n) (hn : Swaps n) (k : ℕ) : ∀ {d : State},
    d.input.stream.rest.length ≤ k → Ready (swab n) d →
    (∀ d', Reaches ready (swab n) d d' → Unaffected ready (swab n) d') →
    ∀ b ∈ d.input.stream.pieces ready n k, b.length % 2 = 0 := by
  induction k with
  | zero => exact fun _ _ _ b hb => absurd hb List.not_mem_nil
  | succ k ih =>
    intro d hk hd hun
    by_cases hnil : d.input.stream.rest = []
    · have hpieces : d.input.stream.pieces ready n (k + 1) = [] := by
        obtain ⟨⟨⟨rest, pos⟩, failAt, eof, error⟩, _⟩ := d
        obtain rfl : rest = [] := hnil
        exact Stream.pieces_nil ready n (k + 1) pos
      rw [hpieces]
      exact fun b hb => absurd hb List.not_mem_nil
    · obtain ⟨hblock, -, hok, -⟩ := turn_swab ready hpos hd hnil
      obtain ⟨d₁, hturn, hd₁, hstream, -⟩ := hok hn
      rw [pieces_cons ready hblock]
      refine List.forall_mem_cons.mpr
        ⟨even_of_unaffected ready hpos hn hd hnil (hun d .refl), ?_⟩
      rw [← hstream]
      exact ih (hstream ▸ length_rest_read ready hblock hk) hd₁
        fun d' hreach => hun d' (.head hturn hreach)

/-- How a stream is cut depends on its length only. -/
theorem map_length_pieces {n : ℕ} (k : ℕ) : ∀ {s s' : Stream UInt8},
    s.rest.length = s'.rest.length → s.pos = s'.pos →
    (s.pieces ready n k).map List.length = (s'.pieces ready n k).map List.length := by
  induction k with
  | zero => exact fun _ _ => rfl
  | succ k ih =>
    intro s s' hlen hpos
    have hread : (s.read ready n).1.length = (s'.read ready n).1.length := by
      simp only [Stream.read, List.length_take, hlen, hpos]
    have hnil : (s.read ready n).1 = [] ↔ (s'.read ready n).1 = [] := by
      rw [← List.length_eq_zero_iff, hread, List.length_eq_zero_iff]
    by_cases hempty : (s.read ready n).1 = []
    · rw [Stream.pieces, Stream.pieces]
      dsimp only
      rw [if_pos hempty, if_pos (hnil.mp hempty)]
    · rw [pieces_cons ready hempty, pieces_cons ready (hnil.not.mp hempty), List.map_cons,
        List.map_cons, hread]
      refine congrArg _ (ih ?_ ?_)
      · simp only [Stream.read, List.length_drop, hlen, hpos]
      · simp only [Stream.read, hlen, hpos]

theorem evenBlocks_start {n : ℕ} {bytes bytes' ibuf obuf : List UInt8}
    (hlen : bytes'.length = bytes.length) (heven : ∀ b ∈ blocks ready n bytes, b.length % 2 = 0)
    (hi : ibuf.length = n) (ho : obuf.length = n) :
    EvenBlocks ready n (start (swab n) bytes' ibuf obuf none) := by
  refine ⟨⟨rfl, rfl, hi, ho, fun h => absurd h Bool.false_ne_true⟩, bytes.length, hlen.le, ?_⟩
  have hmap := @map_length_pieces ready n bytes.length ⟨bytes', 0⟩ ⟨bytes, 0⟩ hlen rfl
  intro b hb
  obtain ⟨b', hb', hlen'⟩ := List.mem_map.mp (hmap ▸ List.mem_map_of_mem hb)
  exact hlen' ▸ heven b' hb'

/-- `conv=swab` exchanges the bytes of each pair of the input, from nothing but the bytes read and
within its buffer, and restores the input when it is run again, if and only if the block size is
even and an `int` and all blocks have even lengths, or there is no input. -/
theorem swab_iff {n : ℕ} (hpos : 0 < n) {bytes ibuf obuf : List UInt8} (hi : ibuf.length = n)
    (ho : obuf.length = n) :
    ((∃ fuel d, process ready (swab n) fuel (start (swab n) bytes ibuf obuf none) =
        some (.done d) ∧ d.written = swapPairs bytes) ∧
      (∀ d, Reaches ready (swab n) (start (swab n) bytes ibuf obuf none) d →
        Unaffected ready (swab n) d) ∧
      ∃ fuel d, process ready (swab n) fuel (start (swab n) (swapPairs bytes) ibuf obuf none) =
        some (.done d) ∧ d.written = bytes) ↔
      bytes = [] ∨ n < 2 ^ 31 ∧ n % 2 = 0 ∧ ∀ b ∈ blocks ready n bytes, b.length % 2 = 0 := by
  have hready : Ready (swab n) (start (swab n) bytes ibuf obuf none) :=
    ⟨rfl, rfl, hi, ho, fun h => absurd h Bool.false_ne_true⟩
  constructor
  · rintro ⟨⟨fuel, d, hdone, -⟩, hun, -⟩
    by_cases hnil : bytes = []
    · exact .inl hnil
    · obtain ⟨-, -, -, hbad⟩ := turn_swab ready hpos hready hnil
      have hn : Swaps n := by
        by_contra hn
        obtain ⟨stop, hturn, hstop⟩ := hbad hn
        have hone : process ready (swab n) 1 (start (swab n) bytes ibuf obuf none) =
            some stop := by
          rw [process, hturn]
        exact hstop d (process_unique ready hone hdone)
      exact .inr ⟨hn.1, hn.2, even_of_reaches hpos hn bytes.length le_rfl hready hun⟩
  · rintro (rfl | ⟨hlt, hmod, heven⟩)
    · have hrun : ∃ fuel d, process ready (swab n) fuel (start (swab n) [] ibuf obuf none) =
          some (.done d) ∧ d.written = [] := by
        obtain ⟨d', hturn, -, -, heof, hw⟩ := turn_swab_nil hpos hready rfl rfl
        refine ⟨2, d', ?_, hw⟩
        rw [process, hturn]
        change process ready (swab n) 1 d' = _
        rw [process, turn_eof heof]
      exact ⟨hrun, fun d hreach => unaffected_of_reaches hpos hready rfl hreach, hrun⟩
    · have hn : Swaps n := ⟨hlt, hmod⟩
      have hlen := length_swapPairs bytes
      obtain ⟨fuel, d, hdone, hw⟩ := (evenBlocks_start rfl heven hi ho).process hpos hn
        bytes.length le_rfl
      obtain ⟨fuel', d', hdone', hw'⟩ := (evenBlocks_start hlen heven hi ho).process hpos hn
        bytes.length hlen.le
      refine ⟨⟨fuel, d, hdone, hw⟩, fun d hreach =>
        (evenBlocks_start rfl heven hi ho).unaffected hpos hn hreach, fuel', d', hdone', ?_⟩
      rw [hw']
      exact swapPairs_swapPairs bytes

/-- When reads fill the block as long as there is input, its length decides. -/
theorem even_blocks_iff {n : ℕ} (hpos : 0 < n) (hn : n % 2 = 0) (bytes : List UInt8) :
    (∀ b ∈ blocks (fun _ => n) n bytes, b.length % 2 = 0) ↔ bytes.length % 2 = 0 := by
  have hpieces : ∀ (k : ℕ) (s : Stream UInt8), s.rest.length ≤ k →
      ((∀ b ∈ s.pieces (fun _ => n) n k, b.length % 2 = 0) ↔ s.rest.length % 2 = 0) := by
    intro k
    induction k with
    | zero =>
      intro s hk
      rw [Nat.le_zero.mp hk]
      exact iff_of_true (fun b hb => absurd hb List.not_mem_nil) rfl
    | succ k ih =>
      intro s hk
      have hlen : (s.read (fun _ => n) n).1.length = min n s.rest.length := by
        simp only [Stream.read, List.length_take]
        omega
      have hrest : (s.read (fun _ => n) n).2.rest.length = s.rest.length - n := by
        simp only [Stream.read, List.length_drop]
        omega
      by_cases hempty : (s.read (fun _ => n) n).1 = []
      · have hzero : s.rest.length = 0 := by
          rw [hempty, List.length_nil] at hlen
          omega
        have hnil : s.pieces (fun _ => n) n (k + 1) = [] := by
          rw [Stream.pieces]
          exact if_pos hempty
        rw [hnil, hzero]
        exact iff_of_true (fun b hb => absurd hb List.not_mem_nil) rfl
      · rw [pieces_cons _ hempty, List.forall_mem_cons,
          ih _ (length_rest_read _ hempty hk), hlen, hrest]
        omega
  exact hpieces bytes.length ⟨bytes, 0⟩ le_rfl

/-- A block of two bytes. -/
theorem swab_iff_two :
    ((∃ fuel d, process (fun _ => 1) (swab 2) fuel (start (swab 2) [97, 98] [0, 0] [0, 0] none) =
        some (.done d) ∧ d.written = swapPairs [97, 98]) ∧
      (∀ d, Reaches (fun _ => 1) (swab 2) (start (swab 2) [97, 98] [0, 0] [0, 0] none) d →
        Unaffected (fun _ => 1) (swab 2) d) ∧
      ∃ fuel d, process (fun _ => 1) (swab 2) fuel
        (start (swab 2) (swapPairs [97, 98]) [0, 0] [0, 0] none) =
        some (.done d) ∧ d.written = [97, 98]) ↔
      ([97, 98] : List UInt8) = [] ∨ 2 < 2 ^ 31 ∧ 2 % 2 = 0 ∧
        ∀ b ∈ blocks (fun _ => 1) 2 [97, 98], b.length % 2 = 0 :=
  swab_iff (by decide) rfl rfl

/-- One byte in a block of two: what is written has been in the buffer. -/
theorem not_swab : ¬ ∀ (ready : ℕ → ℕ) (n : ℕ) (bytes ibuf obuf : List UInt8), 0 < n →
    ibuf.length = n → obuf.length = n → ∃ fuel d,
      process ready (swab n) fuel (start (swab n) bytes ibuf obuf none) = some (.done d) ∧
        d.written = swapPairs bytes := by
  intro h
  obtain ⟨fuel, d, hdone, hw⟩ := h (fun _ => 1) 2 [97] [0, 0] [0, 0] (by decide) rfl rfl
  have hzero : ∃ d', process (fun _ => 1) (swab 2) 2 (start (swab 2) [97] [0, 0] [0, 0] none) =
      some (.done d') ∧ d'.written = [0] := ⟨_, rfl, rfl⟩
  obtain ⟨d', hdone', hw'⟩ := hzero
  have hsame := Stop.done.inj (process_unique _ hdone hdone')
  rw [hsame, hw'] at hw
  exact absurd hw (by decide)

end Unitas.Dd
