import Unitas.Nl.Prefix

/-! What `nl` is to write for its lines, and when it does. -/
namespace Unitas.Nl

def Section.rank : Section → ℕ
  | .header => 0
  | .body => 1
  | .footer => 2

/-- Where the output stands: the next number, the section, and how many empty lines were passed
over since a line that was not empty or had a number. -/
structure Page where
  n : ℕ
  sec : Section
  blanks : ℕ

/-- What is written for a line. -/
inductive Entry where
  | mark
  | line (number : Option ℕ) (text : List UInt8)

def Entry.print (o : Options) : Entry → List UInt8
  | .mark => [10]
  | .line none text => (npad o).2 ++ text
  | .line (some n) text => field o n ++ o.sep ++ text

section Law

variable (o : Options)

/-- The section that a line begins. -/
def mark (line : List UInt8) : Option Section :=
  let d := [o.delim1, o.delim2]
  if line = d ++ d ++ d ++ [10] then some .header
  else if line = d ++ d ++ [10] then some .body
  else if line = d ++ [10] then some .footer
  else none

/-- A section that does not come after the one before it in the order of a page begins a page. -/
def Page.enter (g : Page) (sec : Section) : Page :=
  { g with
    n := if sec.rank ≤ g.sec.rank ∧ o.cntck = false then o.startcnt else g.n
    sec := sec }

def Page.counts (g : Page) (line : List UInt8) : Bool :=
  match o.kind g.sec with
  | .n => false
  | .t => decide (line ≠ [10])
  | .a => decide (line ≠ [10]) || decide (o.blank = g.blanks + 1)

/-- The page after a line that is no mark. -/
def Page.pass (g : Page) (line : List UInt8) : Page :=
  { g with
    n := if g.counts o line then g.n + o.increment else g.n
    blanks :=
      if o.kind g.sec = .a then (if g.counts o line then 0 else g.blanks + 1) else g.blanks }

/-- What the lines are to be printed as. -/
def entries : Page → List (List UInt8) → List Entry
  | _, [] => []
  | g, line :: lines =>
    match mark o line with
    | some sec => .mark :: entries (g.enter o sec) lines
    | none => .line (if g.counts o line then some g.n else none) line ::
        entries (g.pass o line) lines

/-- The lines of an input, with their newlines. -/
def lines (ls : List (List UInt8)) (tail : List UInt8) : List (List UInt8) :=
  ls.map (· ++ [10]) ++ if tail = [] then [] else [tail]

def pages (ls : List (List UInt8)) (tail : List UInt8) : List Entry :=
  entries o ⟨o.startcnt, .body, 0⟩ (lines ls tail)

/-- A newline may be put behind a last line that has none. -/
def Law (ls : List (List UInt8)) (tail out : List UInt8) : Prop :=
  let text := (pages o ls tail).flatMap (Entry.print o)
  out = text ∨ tail ≠ [] ∧ out = text ++ [10]

/-- The numbers that lines get. -/
def Entry.number : Entry → Option ℕ
  | .mark => none
  | .line n _ => n

end Law

/-! ### A line -/

/-- What the main loop makes of a line itself. -/
def printed (p : List UInt8) : List UInt8 :=
  if p.head? = some 10 then p.takeWhile (· ≠ 0) else (p.takeWhile (· ≠ 0)).dropLast ++ [10]

structure Simulates (o : Options) (g : Page) (s : State) : Prop where
  cnt : s.cnt = g.n
  type : s.type = o.kind g.sec
  last : s.last = g.sec
  blankctr : s.blankctr = g.blanks
  pad : o.format ≠ .z → s.pad = 32

section Steps

variable (INT_MAX : ℕ) {o : Options} {g : Page} {s : State}

/-- No line that `fgets` gives has a newline before its end. -/
def Line (p : List UInt8) : Prop := p ≠ [] ∧ 10 ∉ p.dropLast

theorem isPrefixOf_eq {q p : List UInt8} (hp : Line p) :
    (q ++ [10]).isPrefixOf p = decide (p = q ++ [10]) := by
  rw [Bool.eq_iff_iff, List.isPrefixOf_iff_prefix, decide_eq_true_iff]
  constructor
  · rintro ⟨rest, rfl⟩
    by_cases hrest : rest = []
    · rw [hrest, List.append_nil]
    · refine absurd ?_ hp.2
      rw [List.dropLast_append_of_ne_nil hrest]
      simp
  · rintro rfl
    exact List.prefix_rfl

theorem delimiter_eq (h : Simulates o g s) {p : List UInt8} (hp : Line p) :
    match mark o p with
    | some sec => ∃ s', delimiter o s p = some s' ∧ Simulates o (g.enter o sec) s'
    | none => delimiter o s p = none := by
  unfold mark delimiter
  simp only [isPrefixOf_eq hp, decide_eq_true_eq]
  have hlast := h.last
  have hcnt := h.cnt
  by_cases h1 : p = [o.delim1, o.delim2] ++ [o.delim1, o.delim2] ++ [o.delim1, o.delim2] ++ [10]
  · rw [if_pos h1, if_pos h1]
    refine ⟨_, rfl, ?_, rfl, rfl, h.blankctr, h.pad⟩
    unfold Page.enter Section.rank
    cases hc : o.cntck <;> simp [hcnt]
  · rw [if_neg h1, if_neg h1]
    by_cases h2 : p = [o.delim1, o.delim2] ++ [o.delim1, o.delim2] ++ [10]
    · rw [if_pos h2, if_pos h2]
      refine ⟨_, rfl, ?_, rfl, rfl, h.blankctr, h.pad⟩
      unfold Page.enter Section.rank
      cases hc : o.cntck <;> cases hg : g.sec <;> simp [hcnt, hlast, hg]
    · rw [if_neg h2, if_neg h2]
      by_cases h3 : p = [o.delim1, o.delim2] ++ [10]
      · rw [if_pos h3, if_pos h3]
        refine ⟨_, rfl, ?_, rfl, rfl, h.blankctr, h.pad⟩
        unfold Page.enter Section.rank
        cases hc : o.cntck <;> cases hg : g.sec <;> simp [hcnt, hlast, hg]
      · rw [if_neg h3, if_neg h3]

theorem count_eq (h : Simulates o g s) :
    count INT_MAX o s = if g.n + o.increment ≤ INT_MAX then
      some ({ s with cnt := g.n + o.increment, pad := if o.format = .z then 48 else s.pad },
        field o g.n ++ o.sep) else none := by
  unfold count
  rw [pnum_eq o h.pad, h.cnt]
  rfl

theorem count_prefix (h : Simulates o g s) (b : ℕ) :
    if g.n + o.increment ≤ INT_MAX then
      ∃ s', count INT_MAX o { s with blankctr := b } =
          some (s', (Entry.line (some g.n) []).print o) ∧
        Simulates o { g with n := g.n + o.increment, blanks := b } s'
    else count INT_MAX o { s with blankctr := b } = none := by
  have h' : Simulates o { g with blanks := b } { s with blankctr := b } :=
    ⟨h.cnt, h.type, h.last, rfl, h.pad⟩
  have hprint : (Entry.line (some g.n) []).print o = field o g.n ++ o.sep := by
    simp [Entry.print]
  rw [count_eq INT_MAX h', hprint]
  dsimp only
  split_ifs with hle hz
  · exact ⟨_, rfl, rfl, h.type, h.last, rfl, fun hz' => absurd hz hz'⟩
  · exact ⟨_, rfl, rfl, h.type, h.last, rfl, h.pad⟩
  · rfl

theorem skip_prefix (h : Simulates o g s) (b : ℕ) :
    ∃ s', skip o { s with blankctr := b } = some (s', (Entry.line none []).print o) ∧
      Simulates o { g with blanks := b } s' := by
  have hprint : (Entry.line none []).print o = (npad o).2 := by simp [Entry.print]
  rw [hprint]
  exact ⟨_, rfl, h.cnt, h.type, h.last, rfl, fun _ => rfl⟩

/-- The prefix of a line that is no mark. -/
theorem number_eq (h : Simulates o g s) (line : List UInt8) :
    let n := if g.counts o line then some g.n else none
    if ∀ m ∈ n, m + o.increment ≤ INT_MAX then
      ∃ s', number INT_MAX o s (decide (line = [10])) =
          some (s', (Entry.line n []).print o) ∧ Simulates o (g.pass o line) s'
    else number INT_MAX o s (decide (line = [10])) = none := by
  have hsame : { s with blankctr := g.blanks } = s := by rw [← h.blankctr]
  have hcount := count_prefix INT_MAX h
  have hskip := skip_prefix h
  have hblank := h.blankctr
  have hc := hcount g.blanks
  have hs := hskip g.blanks
  rw [hsame] at hc hs
  unfold number Page.pass Page.counts
  rw [h.type]
  have htype := h.type
  cases hk : o.kind g.sec with
  | n => simpa using hs
  | t =>
    by_cases hline : line = [10]
    · simpa [hline] using hs
    · simpa [hline] using hc
  | a =>
    rw [hk] at htype
    by_cases hline : line = [10]
    · by_cases hb : o.blank = g.blanks + 1
      · simpa [hline, hb, hblank, htype] using hcount 0
      · simpa [hline, hb, hblank, htype] using hskip (g.blanks + 1)
    · simpa [hline, htype] using hcount 0

theorem line_head {p : List UInt8} (hp : Line p) : p.head? = some 10 ↔ p = [10] := by
  constructor
  · intro h
    obtain ⟨c, p, rfl⟩ := List.exists_cons_of_ne_nil hp.1
    have hc : c = 10 := by simpa using h
    by_cases hnil : p = []
    · rw [hnil, hc]
    · refine absurd ?_ hp.2
      rw [List.dropLast_cons_of_ne_nil hnil, hc]
      exact List.mem_cons_self
  · rintro rfl
    rfl

theorem strlen_eq_zero_iff {p : List UInt8} (hne : p ≠ []) : strlen p = 0 ↔ p.head? = some 0 := by
  obtain ⟨c, p, rfl⟩ := List.exists_cons_of_ne_nil hne
  unfold strlen
  by_cases hc : c = 0
  · simp [hc]
  · simp [hc]

/-- The newline that is put at `lnt-1`. -/
theorem takeWhile_set {p : List UInt8} (h : strlen p ≠ 0) :
    (p.set (strlen p - 1) 10).takeWhile (· ≠ 0) = (p.takeWhile (· ≠ 0)).dropLast ++ [10] := by
  unfold strlen at *
  generalize ht : p.takeWhile (· ≠ 0) = t at *
  have hp : p = t ++ p.dropWhile (· ≠ 0) := by rw [← ht, List.takeWhile_append_dropWhile]
  obtain ⟨u, c, rfl⟩ := (List.eq_nil_or_concat' t).resolve_left (by rintro rfl; simp at h)
  have hall : ∀ d ∈ u ++ [10], decide (d ≠ 0) = true := by
    intro d hd
    rcases List.mem_append.mp hd with hd | hd
    · exact List.mem_takeWhile_imp (p := fun d => decide (d ≠ 0)) (l := p)
        (by rw [ht]; exact List.mem_append_left _ hd)
    · rw [List.mem_singleton.mp hd]
      decide
  have hset : p.set ((u ++ [c]).length - 1) 10 = (u ++ [10]) ++ p.dropWhile (· ≠ 0) := by
    conv_lhs => rw [hp]
    rw [List.length_append, List.length_singleton, Nat.add_sub_cancel, List.append_assoc,
      List.set_append_right _ _ le_rfl, Nat.sub_self]
    simp
  rw [hset, List.takeWhile_append_of_pos hall, List.dropLast_concat]
  cases hrest : p.dropWhile (· ≠ 0) with
  | nil => simp
  | cons d rest =>
    have hd := List.head_dropWhile_not (fun d : UInt8 => decide (d ≠ 0)) (l := p) (by rw [hrest]; simp)
    simp only [hrest, List.head_cons] at hd
    rw [List.takeWhile_cons_of_neg (by simpa using hd), List.append_nil]

/-- A line that the main loop can print, and what it prints. -/
theorem step_eq (h : Simulates o g s) {p : List UInt8} (hp : Line p) :
    match mark o p with
    | some sec => ∃ s', step INT_MAX o s p = some (s', [10]) ∧ Simulates o (g.enter o sec) s'
    | none =>
      let n := if g.counts o p then some g.n else none
      if p.head? ≠ some 0 ∧ ∀ m ∈ n, m + o.increment ≤ INT_MAX then
        ∃ s', step INT_MAX o s p = some (s', (Entry.line n (printed p)).print o) ∧
          Simulates o (g.pass o p) s'
      else step INT_MAX o s p = none := by
  have hdel := delimiter_eq h hp
  have hnum := number_eq INT_MAX h p
  have hprint (n : Option ℕ) (q : List UInt8) :
      (Entry.line n q).print o = (Entry.line n []).print o ++ q := by
    cases n <;> simp [Entry.print]
  dsimp only at hnum
  cases hm : mark o p with
  | some sec =>
    rw [hm] at hdel
    obtain ⟨s', hs', hsim⟩ := hdel
    unfold step
    rw [hs']
    exact ⟨s', rfl, hsim⟩
  | none =>
    rw [hm] at hdel
    dsimp only at hdel ⊢
    generalize (if g.counts o p = true then some g.n else none) = n at hnum ⊢
    by_cases h10 : p.head? = some 10
    · have hp10 := (line_head hp).mp h10
      have hcond : (p.head? ≠ some 0 ∧ ∀ m ∈ n, m + o.increment ≤ INT_MAX) ↔
          ∀ m ∈ n, m + o.increment ≤ INT_MAX := by
        rw [h10]
        simp
      have hdec : decide (p = [10]) = true := by simpa using hp10
      have hprinted : printed p = p.takeWhile (· ≠ 0) := if_pos h10
      rw [hdec] at hnum
      simp only [hcond]
      unfold step
      rw [hdel]
      dsimp only
      rw [if_pos h10]
      split_ifs at hnum ⊢ with hfit
      · obtain ⟨s', hs', hsim⟩ := hnum
        rw [hs', hprint n (printed p), hprinted]
        exact ⟨s', rfl, hsim⟩
      · rw [hnum]
        rfl
    · have hp10 : p ≠ [10] := fun h => h10 ((line_head hp).mpr h)
      have hdec : decide (p = [10]) = false := by simpa using hp10
      rw [hdec] at hnum
      unfold step
      rw [hdel]
      dsimp only
      rw [if_neg h10]
      by_cases h0 : strlen p = 0
      · have hhead := (strlen_eq_zero_iff hp.1).mp h0
        rw [if_pos h0, if_neg (fun hc => hc.1 hhead)]
      · have hhead : p.head? ≠ some 0 := fun h => h0 ((strlen_eq_zero_iff hp.1).mpr h)
        have hprinted : printed p = (p.takeWhile (· ≠ 0)).dropLast ++ [10] := if_neg h10
        have hcut : (if p[strlen p - 1]? = some 10 then p.set (strlen p - 1) 0 else p).head? ≠
            some 10 := by
          split_ifs with hlast
          · obtain ⟨c, p, rfl⟩ := List.exists_cons_of_ne_nil hp.1
            cases hl : strlen (c :: p) - 1 with
            | zero => simp
            | succ i => simpa using h10
          · exact h10
        have hset : (if p[strlen p - 1]? = some 10 then p.set (strlen p - 1) 0 else p).set
            (strlen p - 1) 10 = p.set (strlen p - 1) 10 := by
          split_ifs
          · rw [List.set_set]
          · rfl
        rw [if_neg h0, if_neg hcut, hset, takeWhile_set h0, decide_eq_false hcut]
        simp only [ne_eq, hhead, not_false_eq_true, true_and]
        split_ifs at hnum ⊢ with hfit
        · obtain ⟨s', hs', hsim⟩ := hnum
          rw [hs', hprint n (printed p), hprinted]
          exact ⟨s', rfl, hsim⟩
        · rw [hnum]
          rfl

end Steps

/-! ### A run -/

/-- A line that comes out as it is. -/
def Clean (p : List UInt8) : Prop := 0 ∉ p ∧ p.getLast? = some 10

theorem printed_spec {p : List UInt8} (hp : Line p) (h0 : p.head? ≠ some 0) :
    (printed p).length ≤ p.length ∧ (printed p = p ↔ Clean p) := by
  unfold printed Clean
  by_cases h10 : p.head? = some 10
  · have hp10 := (line_head hp).mp h10
    subst hp10
    decide
  · rw [if_neg h10]
    have hne : p.takeWhile (· ≠ 0) ≠ [] := by
      intro hnil
      exact h0 ((strlen_eq_zero_iff hp.1).mp (by unfold strlen; rw [hnil]; rfl))
    have hlen : ((p.takeWhile (· ≠ 0)).dropLast ++ [10]).length =
        (p.takeWhile (· ≠ 0)).length := by
      have := List.length_pos_iff.mpr hne
      rw [List.length_append, List.length_dropLast, List.length_singleton]
      omega
    constructor
    · rw [hlen]
      exact (List.takeWhile_prefix _).length_le
    · constructor
      · intro heq
        have hsame : p.takeWhile (· ≠ 0) = p :=
          (List.takeWhile_prefix _).eq_of_length (by rw [← hlen, heq])
        constructor
        · intro hmem
          have := List.takeWhile_eq_self_iff.mp hsame 0 hmem
          simp at this
        · rw [← heq, List.getLast?_concat]
      · rintro ⟨hzero, hlast⟩
        have hsame : p.takeWhile (· ≠ 0) = p := by
          rw [List.takeWhile_eq_self_iff]
          intro c hc
          simpa using fun h : c = 0 => hzero (h ▸ hc)
        rw [hsame]
        exact List.dropLast_append_getLast? 10 hlast

section Run

variable (INT_MAX : ℕ) (o : Options)

/-- The main loop for lines that are given. -/
def stepLines : State → List (List UInt8) → Option (List UInt8)
  | _, [] => some []
  | s, p :: L => do
    let (s, out) ← step INT_MAX o s p
    let rest ← stepLines s L
    some (out ++ rest)

/-- All numbers can be counted on. -/
def Counted (es : List Entry) : Prop := ∀ e ∈ es, ∀ m ∈ e.number, m + o.increment ≤ INT_MAX

theorem clean_of_mark {p : List UInt8} {sec : Section} (h : mark o p = some sec) : Clean p := by
  have h1 := o.delim1_ne
  have h2 := o.delim2_ne
  unfold mark at h
  dsimp only at h
  split_ifs at h with hp hp hp
  · rw [hp]
    exact ⟨by simp [h1.symm, h2.symm], by simp⟩
  · rw [hp]
    exact ⟨by simp [h1.symm, h2.symm], by simp⟩
  · rw [hp]
    exact ⟨by simp [h1.symm, h2.symm], by simp⟩

theorem clean_head {p : List UInt8} (h : Clean p) : p.head? ≠ some 0 := fun h0 =>
  h.1 (List.mem_of_mem_head? h0)

/-- The output is never longer than it should be, and it is as it should be exactly for lines
that are clean. -/
theorem stepLines_spec {g : Page} {s : State} (h : Simulates o g s) (L : List (List UInt8))
    (hL : ∀ p ∈ L, Line p) :
    match stepLines INT_MAX o s L with
    | none => ¬ ((∀ p ∈ L, Clean p) ∧ Counted INT_MAX o (entries o g L))
    | some out => Counted INT_MAX o (entries o g L) ∧
        out.length ≤ ((entries o g L).flatMap (Entry.print o)).length ∧
        (out = (entries o g L).flatMap (Entry.print o) ↔ ∀ p ∈ L, Clean p) := by
  induction L generalizing g s with
  | nil => simp [stepLines, entries, Counted]
  | cons p L ih =>
    obtain ⟨hp, hL⟩ := List.forall_mem_cons.mp hL
    have hstep := step_eq INT_MAX h hp
    unfold stepLines entries
    cases hm : mark o p with
    | some sec =>
      rw [hm] at hstep
      obtain ⟨s', hs', hsim⟩ := hstep
      have hclean := clean_of_mark o hm
      have hrest := ih hsim hL
      rw [hs']
      cases hr : stepLines INT_MAX o s' L with
      | none =>
        rw [hr] at hrest
        simp only [hr, Option.bind_eq_bind, Option.bind_some, Option.bind_none]
        rintro ⟨hall, hcount⟩
        exact hrest ⟨(List.forall_mem_cons.mp hall).2, (List.forall_mem_cons.mp hcount).2⟩
      | some out =>
        rw [hr] at hrest
        obtain ⟨hcount, hlen, hiff⟩ := hrest
        simp only [hr, Option.bind_eq_bind, Option.bind_some]
        refine ⟨List.forall_mem_cons.mpr ⟨by simp [Entry.number], hcount⟩, ?_, ?_⟩
        · rw [List.flatMap_cons, List.length_append, List.length_append]
          exact Nat.add_le_add_left hlen 1
        · rw [List.flatMap_cons, List.forall_mem_cons, ← hiff]
          simp [hclean, Entry.print]
    | none =>
      rw [hm] at hstep
      dsimp only at hstep ⊢
      generalize (if g.counts o p = true then some g.n else none) = n at hstep ⊢
      by_cases hcond : p.head? ≠ some 0 ∧ ∀ m ∈ n, m + o.increment ≤ INT_MAX
      · rw [if_pos hcond] at hstep
        obtain ⟨s', hs', hsim⟩ := hstep
        have hrest := ih hsim hL
        obtain ⟨hplen, hpiff⟩ := printed_spec hp hcond.1
        rw [hs']
        cases hr : stepLines INT_MAX o s' L with
        | none =>
          rw [hr] at hrest
          simp only [hr, Option.bind_eq_bind, Option.bind_some, Option.bind_none]
          rintro ⟨hall, hcount⟩
          exact hrest ⟨(List.forall_mem_cons.mp hall).2, (List.forall_mem_cons.mp hcount).2⟩
        | some out =>
          rw [hr] at hrest
          obtain ⟨hcount, hlen, hiff⟩ := hrest
          simp only [hr, Option.bind_eq_bind, Option.bind_some]
          obtain ⟨pre, hpre⟩ : ∃ pre, ∀ q, (Entry.line n q).print o = pre ++ q := by
            cases n with
            | none => exact ⟨_, fun q => rfl⟩
            | some m => exact ⟨_, fun q => rfl⟩
          refine ⟨List.forall_mem_cons.mpr ⟨hcond.2, hcount⟩, ?_, ?_⟩
          · rw [List.flatMap_cons, hpre, hpre]
            simp only [List.length_append]
            omega
          · rw [List.flatMap_cons, List.forall_mem_cons, ← hiff, ← hpiff, hpre, hpre,
              List.append_assoc, List.append_assoc, List.append_cancel_left_eq]
            constructor
            · intro heq
              have hlens := congrArg List.length heq
              simp only [List.length_append] at hlens
              exact List.append_inj heq (by omega)
            · rintro ⟨h1, h2⟩
              rw [h1, h2]
      · rw [if_neg hcond] at hstep
        rw [hstep]
        rintro ⟨hall, hcount⟩
        apply hcond
        constructor
        · exact clean_head (List.forall_mem_cons.mp hall).1
        · exact (List.forall_mem_cons.mp hcount).1

theorem fgets_line {n : ℕ} {l : List UInt8} (h10 : 10 ∉ l) (hlen : l.length + 1 ≤ n)
    (rest : List UInt8) : fgets n (l ++ [10] ++ rest) = (l ++ [10], rest) := by
  induction l generalizing n with
  | nil =>
    obtain ⟨n, rfl⟩ := Nat.exists_eq_add_of_le' hlen
    simp [fgets]
  | cons c l ih =>
    obtain ⟨n, rfl⟩ : ∃ k, n = k + 1 := ⟨n - 1, by simp at hlen; omega⟩
    rw [List.mem_cons, not_or] at h10
    rw [List.cons_append, List.cons_append, fgets, if_neg (Ne.symm h10.1),
      ih h10.2 (by simpa using hlen)]

theorem fgets_tail {n : ℕ} {l : List UInt8} (h10 : 10 ∉ l) (hlen : l.length ≤ n) :
    fgets n l = (l, []) := by
  induction l generalizing n with
  | nil => cases n <;> rfl
  | cons c l ih =>
    obtain ⟨n, rfl⟩ : ∃ k, n = k + 1 := ⟨n - 1, by simp at hlen; omega⟩
    rw [List.mem_cons, not_or] at h10
    rw [fgets, if_neg (Ne.symm h10.1), ih h10.2 (by simpa using hlen)]

theorem mainFrom_eq {LINE_MAX : ℕ} {ls : List (List UInt8)} {tail : List UInt8}
    (hls : ∀ l ∈ ls, 10 ∉ l ∧ l.length + 1 < LINE_MAX) (h10 : 10 ∉ tail)
    (htail : tail.length < LINE_MAX) (fuel : ℕ) (s : State)
    (hfuel : (ls.flatMap (· ++ [10]) ++ tail).length ≤ fuel) :
    mainFrom INT_MAX o LINE_MAX fuel s (ls.flatMap (· ++ [10]) ++ tail) =
      stepLines INT_MAX o s (lines ls tail) := by
  induction ls generalizing fuel s with
  | nil =>
    unfold lines
    rw [List.flatMap_nil, List.nil_append] at hfuel ⊢
    by_cases hnil : tail = []
    · subst hnil
      cases fuel <;> simp [mainFrom, stepLines]
    · obtain ⟨fuel, rfl⟩ : ∃ k, fuel = k + 1 :=
        ⟨fuel - 1, by have := List.length_pos_iff.mpr hnil; omega⟩
      have hend (s : State) : mainFrom INT_MAX o LINE_MAX fuel s [] = some [] := by
        cases fuel <;> simp [mainFrom]
      unfold mainFrom
      rw [if_neg hnil, if_neg hnil, fgets_tail h10 (by omega)]
      simp [stepLines, hend]
  | cons l ls ih =>
    obtain ⟨⟨hl10, hllen⟩, hls⟩ := List.forall_mem_cons.mp hls
    rw [List.flatMap_cons, List.append_assoc] at hfuel ⊢
    simp only [List.length_append, List.length_singleton] at hfuel
    obtain ⟨fuel, rfl⟩ : ∃ k, fuel = k + 1 := ⟨fuel - 1, by omega⟩
    have hlines : lines (l :: ls) tail = (l ++ [10]) :: lines ls tail := rfl
    unfold mainFrom
    rw [if_neg (by simp), fgets_line hl10 (by omega), hlines, stepLines]
    have hrest (s : State) := ih hls fuel s (by rw [List.length_append]; omega)
    simp only [hrest]

theorem lines_line {ls : List (List UInt8)} {tail : List UInt8} (hls : ∀ l ∈ ls, 10 ∉ l)
    (h10 : 10 ∉ tail) : ∀ p ∈ lines ls tail, Line p := by
  intro p hp
  unfold lines at hp
  rcases List.mem_append.mp hp with hp | hp
  · obtain ⟨l, hl, rfl⟩ := List.mem_map.mp hp
    exact ⟨by simp, by rw [List.dropLast_concat]; exact hls l hl⟩
  · by_cases hnil : tail = []
    · simp [hnil] at hp
    · rw [if_neg hnil, List.mem_singleton] at hp
      rw [hp]
      exact ⟨hnil, fun h => h10 (List.mem_of_mem_dropLast h)⟩

theorem lines_clean {ls : List (List UInt8)} {tail : List UInt8} (h10 : 10 ∉ tail) :
    (∀ p ∈ lines ls tail, Clean p) ↔ tail = [] ∧ ∀ l ∈ ls, 0 ∉ l := by
  unfold lines
  rw [List.forall_mem_append, List.forall_mem_map, and_comm]
  apply and_congr
  · by_cases hnil : tail = []
    · simp [hnil]
    · rw [if_neg hnil, List.forall_mem_singleton]
      simp only [hnil, iff_false]
      intro hclean
      exact h10 (List.mem_of_getLast? hclean.2)
  · unfold Clean
    simp

/-- For all lines that are shorter than the buffer: what is written is as it should be exactly
when the separator fits into its array, the last line has its newline, no line has a zero byte, and
all numbers can be counted on. -/
theorem nl_iff (LINE_MAX : ℕ) (ls : List (List UInt8)) (tail : List UInt8)
    (hls : ∀ l ∈ ls, 10 ∉ l ∧ l.length + 1 < LINE_MAX) (h10 : 10 ∉ tail)
    (htail : tail.length < LINE_MAX) :
    (∃ out, main INT_MAX o LINE_MAX (ls.flatMap (· ++ [10]) ++ tail) = some out ∧
        Law o ls tail out) ↔
      o.sep.length < EXPSIZ ∧ tail = [] ∧ (∀ l ∈ ls, 0 ∉ l) ∧
        Counted INT_MAX o (pages o ls tail) := by
  by_cases hsep : o.sep.length < EXPSIZ
  swap
  · refine iff_of_false ?_ fun h => hsep h.1
    rintro ⟨out, hout, -⟩
    rw [main, if_neg hsep] at hout
    cases hout
  rw [and_iff_right hsep]
  have hsim : Simulates o ⟨o.startcnt, .body, 0⟩ ⟨o.startcnt, o.body, .body, 0, 32⟩ :=
    ⟨rfl, rfl, rfl, rfl, fun _ => rfl⟩
  have hspec := stepLines_spec INT_MAX o hsim (lines ls tail)
    (lines_line (fun l hl => (hls l hl).1) h10)
  rw [← and_assoc, ← lines_clean h10]
  unfold main Law pages
  rw [if_pos hsep, mainFrom_eq INT_MAX o hls h10 htail _ _ le_rfl]
  cases hrun : stepLines INT_MAX o ⟨o.startcnt, o.body, .body, 0, 32⟩ (lines ls tail) with
  | none =>
    rw [hrun] at hspec
    simp only [reduceCtorEq, false_and, exists_false, false_iff]
    exact hspec
  | some out =>
    rw [hrun] at hspec
    obtain ⟨hcount, hlen, hiff⟩ := hspec
    constructor
    · rintro ⟨out', hout, hlaw⟩
      obtain rfl := Option.some.inj hout
      rcases hlaw with heq | ⟨-, heq⟩
      · exact ⟨hiff.mp heq, hcount⟩
      · rw [heq, List.length_append, List.length_singleton] at hlen
        omega
    · rintro ⟨hclean, -⟩
      exact ⟨out, rfl, Or.inl (hiff.mpr hclean)⟩

end Run

/-- What `nl` does without options. -/
def defaults : Options where
  header := .n
  body := .t
  footer := .n
  cntck := false
  startcnt := 1
  increment := 1
  blank := 1
  format := .n
  sep := [9]
  width := 6
  delim1 := 92
  delim2 := 58
  blank_pos := by decide
  width_pos := by decide
  width_le := by decide
  delim1_ne := by decide
  delim2_ne := by decide

theorem nl_iff_two :
    (∃ out, main 2147483647 defaults 2048 ([[97], []].flatMap (· ++ [10]) ++ []) = some out ∧
        Law defaults [[97], []] [] out) ↔
      defaults.sep.length < EXPSIZ ∧ ([] : List UInt8) = [] ∧
        (∀ l ∈ ([[97], []] : List (List UInt8)), 0 ∉ l) ∧
        Counted 2147483647 defaults (pages defaults [[97], []] []) :=
  nl_iff 2147483647 defaults 2048 [[97], []] [] (by decide) (by decide) (by decide)

/-- The last character of a line without a newline is lost. -/
theorem nl_unterminated :
    ¬ ∃ out, main 2147483647 defaults 2048 ([].flatMap (· ++ [10]) ++ [97, 98]) = some out ∧
      Law defaults [] [97, 98] out := by
  rintro ⟨out, hout, hlaw⟩
  have hmain : main 2147483647 defaults 2048 ([].flatMap (· ++ [10]) ++ [97, 98]) =
      some [32, 32, 32, 32, 32, 49, 9, 97, 10] := by rfl
  have htext : (pages defaults [] [97, 98]).flatMap (Entry.print defaults) =
      [32, 32, 32, 32, 32, 49, 9, 97, 98] := by rfl
  rw [hmain] at hout
  unfold Law at hlaw
  rw [htext, ← Option.some.inj hout] at hlaw
  revert hlaw
  decide

end Unitas.Nl
