import Mathlib.Data.Nat.Factors
import Unitas.Lib.Lines
import Unitas.Nl.Law
import Unitas.Printf.Format

/-! `factor`: a number and its prime factors, for an argument or for each line of the standard
input. -/
namespace Unitas.Factor
open Unitas.Decimal Unitas.Lines Unitas.Printf
open Unitas.Nl (fgets fgets_line fgets_tail)

/-- A number behind its sign. -/
def signed (s : List UInt8) : ℤ :=
  if s.head? = some 45 then -(magnitude s.tail : ℤ)
  else if s.head? = some 43 then magnitude s.tail else magnitude s

/-- `strtoll(s, 0, 0)` and whether it sets `errno`. -/
def strtoll (s : List UInt8) : ℤ × Bool :=
  let n := signed (s.dropWhile isSpace)
  if n < -2 ^ 63 then (-2 ^ 63, true)
  else if 2 ^ 63 ≤ n then (2 ^ 63 - 1, true)
  else (n, false)

/-- What has been written to the standard output and the standard error. -/
structure Output where
  out : List UInt8
  err : List UInt8
  deriving DecidableEq, Repr

def Output.append (o o' : Output) : Output := ⟨o.out ++ o'.out, o.err ++ o'.err⟩

def nothing : Output := ⟨[], []⟩

/-- Why no result is there: a number does not fit in its type, an array is left, or the loops have
had too few turns. -/
inductive Stop
  | overflow
  | undefined
  | unfinished
  deriving DecidableEq, Repr

/-- `while (!(v%t))` -/
def divideOut (t : ℕ) : ℕ → ℕ → List UInt8 → Except Stop (ℕ × List UInt8)
  | 0, _, _ => .error .unfinished
  | fuel + 1, v, out =>
    if v % t = 0 then divideOut t fuel (v / t) (out ++ 32 :: decimal t) else .ok (v, out)

/-- `for (t=2; t<=v; t++)`, where `t` is a `long long`. -/
def trial : ℕ → ℕ → ℕ → List UInt8 → Except Stop (List UInt8)
  | 0, _, _, _ => .error .unfinished
  | fuel + 1, t, v, out =>
    if t ≤ v then do
      let (v, out) ← divideOut t fuel v out
      if t + 1 < 2 ^ 63 then trial fuel (t + 1) v out else .error .overflow
    else .ok out

/-- `: bogus value '` -/
def bogus : List UInt8 :=
  [58, 32, 98, 111, 103, 117, 115, 32, 118, 97, 108, 117, 101, 32, 39]

def do_factor (progname : List UInt8) (fuel : ℕ) (x : List UInt8) : Except Stop (ℕ × Output) :=
  let (n, errno) := strtoll x
  if errno ∨ n < 1 then .ok (1, ⟨[], progname ++ bogus ++ x ++ [39, 10]⟩)
  else do
    let out ← trial fuel 2 n.toNat (decimal n.toNat ++ [58])
    .ok (0, ⟨out ++ [10], []⟩)

/-- The loop over the standard input. The end of the file has been met when a line is short and
has no newline. -/
def filter (progname : List UInt8) : ℕ → List UInt8 → Except Stop Output
  | 0, _ => .error .unfinished
  | fuel + 1, input =>
    let (line, rest) := fgets 126 input
    if 10 ∉ line ∧ line.length < 126 then .ok nothing
    else
      let buf := line.takeWhile (· ≠ 0)
      if buf = [] then .error .undefined
      else do
        let (_, o) ← do_factor progname fuel buf.dropLast
        let o' ← filter progname fuel rest
        .ok (o.append o')

/-- `: usage: ` and ` [value]` -/
def usage (progname : List UInt8) : List UInt8 :=
  progname ++ [58, 32, 117, 115, 97, 103, 101, 58, 32] ++ progname ++
    [32, 91, 118, 97, 108, 117, 101, 93, 10]

/-- The exit status and what is written, for the arguments behind the program's name. -/
def main (progname : List UInt8) (args : List (List UInt8)) (fuel : ℕ) (input : List UInt8) :
    Except Stop (ℕ × Output) :=
  match args with
  | [] => (filter progname fuel input).map (0, ·)
  | [x] => do_factor progname fuel x
  | _ => .ok (1, ⟨[], usage progname⟩)

/-! The factors. -/

/-- A number, a colon, and the factors, each after a blank. -/
def listing (n : ℕ) (ps : List ℕ) : List UInt8 :=
  decimal n ++ 58 :: ps.flatMap (fun p => 32 :: decimal p) ++ [10]

/-- What `do_factor` writes for a text. -/
def answer (progname x : List UInt8) : Output :=
  let n := (strtoll x).1
  if (strtoll x).2 ∨ n < 1 then ⟨[], progname ++ bogus ++ x ++ [39, 10]⟩
  else ⟨listing n.toNat n.toNat.primeFactorsList, []⟩

def answers (progname : List UInt8) (texts : List (List UInt8)) : Output :=
  texts.foldr (fun x o => (answer progname x).append o) nothing

/-- The result with enough turns. -/
def Gives {α : Type} (run : ℕ → Except Stop α) (r : α) : Prop :=
  ∃ least, ∀ fuel ≥ least, run fuel = .ok r

theorem Gives.unique {α : Type} {run : ℕ → Except Stop α} {r r' : α} (h : Gives run r)
    (h' : Gives run r') : r = r' := by
  obtain ⟨least, h⟩ := h
  obtain ⟨least', h'⟩ := h'
  have heq := (h _ (le_max_left least least')).symm.trans (h' _ (le_max_right least least'))
  exact Except.ok.inj heq

/-- No prime below `t` divides `v`. -/
def Reduced (t v : ℕ) : Prop := ∀ p, p.Prime → p ∣ v → t ≤ p

theorem primeFactorsList_of_dvd {t v : ℕ} (ht : 2 ≤ t) (hv : v ≠ 0) (h : Reduced t v)
    (hdvd : t ∣ v) : v.primeFactorsList = t :: (v / t).primeFactorsList := by
  have hv2 : 2 ≤ v := ht.trans (Nat.le_of_dvd (Nat.pos_of_ne_zero hv) hdvd)
  have hmin : v.minFac = t :=
    le_antisymm (Nat.minFac_le_of_dvd ht hdvd)
      (h _ (Nat.minFac_prime (by omega)) (Nat.minFac_dvd v))
  obtain ⟨m, rfl⟩ : ∃ m, v = m + 2 := ⟨v - 2, by omega⟩
  rw [Nat.primeFactorsList_add_two, hmin]

/-- The inner loop divides by `t` as often as it can. -/
theorem divideOut_spec {t : ℕ} (ht : 2 ≤ t) (fuel : ℕ) : ∀ {v : ℕ} (out : List UInt8), 0 < v →
    Reduced t v → v < fuel → ∃ v' ps, divideOut t fuel v out =
      .ok (v', out ++ ps.flatMap fun p => 32 :: decimal p) ∧ 0 < v' ∧ v' ≤ v ∧
      Reduced (t + 1) v' ∧ v.primeFactorsList = ps ++ v'.primeFactorsList := by
  induction fuel with
  | zero => exact fun _ _ _ h => absurd h (Nat.not_lt_zero _)
  | succ fuel ih =>
    intro v out hv hred hfuel
    rw [divideOut]
    by_cases hmod : v % t = 0
    · have hdvd := Nat.dvd_of_mod_eq_zero hmod
      have hlt : v / t < v := Nat.div_lt_self hv (by omega)
      have hpos : 0 < v / t := Nat.div_pos (Nat.le_of_dvd hv hdvd) (by omega)
      have hred' : Reduced t (v / t) := fun p hp hpv =>
        hred p hp (hpv.trans (Nat.div_dvd_of_dvd hdvd))
      obtain ⟨v', ps, hrun, hv', hle, hred'', hps⟩ :=
        ih (out ++ 32 :: decimal t) hpos hred' (by omega)
      refine ⟨v', t :: ps, ?_, hv', hle.trans hlt.le, hred'', ?_⟩
      · rw [if_pos hmod, hrun]
        simp
      · rw [primeFactorsList_of_dvd ht hv.ne' hred hdvd, hps, List.cons_append]
    · refine ⟨v, [], ?_, hv, le_rfl, fun p hp hpv => ?_, rfl⟩
      · rw [if_neg hmod, List.flatMap_nil, List.append_nil]
      · refine Nat.lt_of_le_of_ne (hred p hp hpv) ?_
        rintro rfl
        exact hmod (Nat.mod_eq_zero_of_dvd hpv)

/-- The loop of trial divisors, which never gets to the end of its type: the largest number there
is divisible by 7. -/
theorem trial_spec (fuel : ℕ) : ∀ {t v : ℕ} (out : List UInt8), 2 ≤ t → 0 < v → v < 2 ^ 63 →
    Reduced t v → v + (v + 1 - t) + 2 ≤ fuel →
    trial fuel t v out = .ok (out ++ v.primeFactorsList.flatMap fun p => 32 :: decimal p) := by
  induction fuel with
  | zero =>
    intro t v out _ _ _ _ h
    omega
  | succ fuel ih =>
    intro t v out ht hv hlt hred hfuel
    rw [trial]
    by_cases hle : t ≤ v
    · obtain ⟨v', ps, hrun, hv', hle', hred', hps⟩ :=
        divideOut_spec ht fuel out hv hred (by omega)
      have hnext : t + 1 < 2 ^ 63 := by
        by_contra hlast
        obtain rfl : v = 2 ^ 63 - 1 := by omega
        have hseven := hred 7 (by decide) (by norm_num)
        omega
      rw [if_pos hle, hrun]
      simp only [bind, Except.bind]
      rw [if_pos hnext, ih _ (by omega) hv' (by omega) hred' (by omega), hps,
        List.flatMap_append, List.append_assoc]
    · have hone : v = 1 := by
        by_contra hne
        have hp := Nat.minFac_prime hne
        have := hred _ hp (Nat.minFac_dvd v)
        have := Nat.minFac_le hv
        omega
      rw [if_neg hle, hone, Nat.primeFactorsList_one, List.flatMap_nil, List.append_nil]

theorem strtoll_lt {s : List UInt8} {n : ℤ} (h : strtoll s = (n, false)) : n < 2 ^ 63 := by
  rw [strtoll] at h
  split_ifs at h with h1 h2
  · exact absurd (congrArg Prod.snd h) (by simp)
  · exact absurd (congrArg Prod.snd h) (by simp)
  · obtain rfl := congrArg Prod.fst h
    exact lt_of_not_ge h2

theorem do_factor_gives (progname x : List UInt8) : Gives (do_factor progname · x)
    (if (strtoll x).2 ∨ (strtoll x).1 < 1 then 1 else 0, answer progname x) := by
  cases hs : strtoll x with
  | mk n errno =>
    simp only [Gives, do_factor, answer, hs]
    by_cases hbogus : errno ∨ n < 1
    · refine ⟨0, fun fuel _ => ?_⟩
      rw [if_pos hbogus, if_pos hbogus, if_pos hbogus]
    · obtain ⟨herr, hn⟩ := not_or.mp hbogus
      obtain rfl := Bool.eq_false_iff.mpr herr
      have hlt := strtoll_lt hs
      refine ⟨n.toNat + (n.toNat + 1 - 2) + 2, fun fuel hfuel => ?_⟩
      have htrial := trial_spec fuel (decimal n.toNat ++ [58]) le_rfl (by omega) (by omega)
        (fun p hp _ => hp.two_le) hfuel
      rw [if_neg hbogus, if_neg hbogus, if_neg hbogus, htrial]
      simp only [bind, Except.bind, listing, List.append_assoc, List.cons_append,
        List.nil_append]

theorem strtoll_decimal {n : ℕ} (h : n < 2 ^ 63) : strtoll (decimal n) = ((n : ℤ), false) := by
  obtain ⟨c, ds, hc, h1, h2⟩ := decimal_head n
  obtain ⟨hspace, h45, h43⟩ := digit_start h1 h2
  have hdrop : (decimal n).dropWhile isSpace = decimal n := by
    rw [hc, List.dropWhile_cons_of_neg (by simp [hspace])]
  have hhead : (decimal n).head? = some c := by rw [hc]; rfl
  simp only [strtoll, signed, hdrop, hhead, Option.some.injEq, h45, h43, if_false, magnitude_decimal]
  rw [if_neg (by omega), if_neg (by omega)]

theorem answer_decimal (progname : List UInt8) {n : ℕ} (h1 : 1 ≤ n) (h2 : n < 2 ^ 63) :
    answer progname (decimal n) = ⟨listing n n.primeFactorsList, []⟩ := by
  rw [answer, strtoll_decimal h2]
  exact if_neg (by simp; omega)

/-! The standard input. -/

theorem filter_gives (progname : List UInt8) (ls : List (List UInt8)) :
    ∀ {input : List UInt8}, input.splitOn 10 = ls → 0 ∉ input → (∀ l ∈ ls, l.length < 126) →
    Gives (filter progname · input) (answers progname ls.dropLast) := by
  induction ls with
  | nil => exact fun h => absurd h (List.splitOn_ne_nil _ _)
  | cons l ls ih =>
    intro input h h0 hlen
    obtain ⟨hl, hls⟩ := List.forall_mem_cons.mp hlen
    by_cases h10 : 10 ∈ input
    · obtain ⟨text, rest, rfl, htext⟩ := List.eq_append_cons_of_mem h10
      rw [List.splitOn_append_cons_self_of_not_mem htext] at h
      obtain ⟨rfl, rfl⟩ := List.cons.inj h
      rw [List.mem_append, List.mem_cons, not_or, not_or] at h0
      obtain ⟨least, hrest⟩ := ih rfl h0.2.2 hls
      obtain ⟨least', hline⟩ := do_factor_gives progname text
      refine ⟨max least least' + 1, fun fuel hfuel => ?_⟩
      obtain ⟨fuel, rfl⟩ : ∃ k, fuel = k + 1 := ⟨fuel - 1, by omega⟩
      have hread : fgets 126 (text ++ 10 :: rest) = (text ++ [10], rest) := by
        simpa using fgets_line htext hl rest
      have hbuf : (text ++ [10]).takeWhile (· ≠ 0) = text ++ [10] := by
        refine List.takeWhile_eq_self_iff.mpr fun c hc => ?_
        rcases List.mem_append.mp hc with hc | hc
        · simpa using fun hc0 : c = 0 => h0.1 (hc0 ▸ hc)
        · obtain rfl := List.mem_singleton.mp hc
          decide
      show filter progname (fuel + 1) _ = _
      rw [filter, hread, List.dropLast_cons_of_ne_nil (List.splitOn_ne_nil _ _)]
      dsimp only
      have hone := hline fuel (by omega)
      have hothers := hrest fuel (by omega)
      dsimp only at hone hothers
      rw [if_neg (by simp), hbuf, if_neg (by simp), List.dropLast_concat, hone]
      simp only [bind, Except.bind, hothers]
      rfl
    · rw [List.splitOn_eq_singleton h10] at h
      obtain ⟨rfl, rfl⟩ := List.cons.inj h
      refine ⟨1, fun fuel hfuel => ?_⟩
      obtain ⟨fuel, rfl⟩ : ∃ k, fuel = k + 1 := ⟨fuel - 1, by omega⟩
      show filter progname (fuel + 1) _ = _
      rw [filter, fgets_tail h10 hl.le]
      exact if_pos ⟨h10, hl⟩

theorem answers_append (progname : List UInt8) (texts : List (List UInt8)) (x : List UInt8) :
    (answers progname (texts ++ [x])).out.length + (answers progname (texts ++ [x])).err.length =
      (answers progname texts).out.length + (answers progname texts).err.length +
        ((answer progname x).out.length + (answer progname x).err.length) := by
  induction texts with
  | nil => simp [answers, Output.append, nothing]
  | cons y texts ih =>
    simp only [answers, List.cons_append, List.foldr_cons, Output.append,
      List.length_append] at ih ⊢
    omega

/-- Something is written for every text. -/
theorem answer_pos (progname x : List UInt8) :
    0 < (answer progname x).out.length + (answer progname x).err.length := by
  rw [answer]
  split_ifs
  · simp
  · simp [listing]

theorem filter_iff {progname input : List UInt8} (h0 : 0 ∉ input)
    (hlen : ∀ l ∈ lines input, l.length < 126) :
    Gives (filter progname · input) (answers progname (lines input)) ↔ Terminated input := by
  have hall : ∀ l ∈ input.splitOn 10, l.length < 126 := by
    intro l hl
    by_cases hlast : (input.splitOn 10).getLast? = some []
    · rw [lines, if_pos hlast] at hlen
      rw [← List.dropLast_append_getLast? [] hlast, List.mem_append, List.mem_singleton] at hl
      rcases hl with hl | rfl
      · exact hlen l hl
      · decide
    · rw [lines, if_neg hlast] at hlen
      exact hlen l hl
  have hrun := filter_gives progname _ rfl h0 hall
  rw [terminated_iff]
  constructor
  · intro h
    by_contra hlast
    have hlines : lines input = input.splitOn 10 := if_neg hlast
    have heq := hrun.unique h
    obtain ⟨x, hx⟩ : ∃ x, input.splitOn 10 = (input.splitOn 10).dropLast ++ [x] :=
      ⟨_, (List.dropLast_append_getLast (List.splitOn_ne_nil 10 input)).symm⟩
    have hcount := answers_append progname (input.splitOn 10).dropLast x
    have := answer_pos progname x
    rw [hlines] at heq
    rw [← hx, heq] at hcount
    omega
  · intro hlast
    have hlines : lines input = (input.splitOn 10).dropLast := if_pos hlast
    rwa [hlines]

theorem main_gives {progname input : List UInt8} {o : Output} :
    Gives (main progname [] · input) (0, o) ↔ Gives (filter progname · input) o := by
  refine exists_congr fun least => forall₂_congr fun fuel _ => ?_
  show (filter progname fuel input).map (0, ·) = _ ↔ filter progname fuel input = _
  cases filter progname fuel input with
  | error e => simp [Except.map]
  | ok o' => simp [Except.map]

/-- The factors are in order. The lines of the standard input are answered like arguments exactly
when the last one has a newline. -/
theorem factor_iff (progname : List UInt8) :
    (∀ n input, 1 ≤ n → n < 2 ^ 63 → ∃ ps : List ℕ,
      Gives (main progname [decimal n] · input) (0, ⟨listing n ps, []⟩) ∧
      answer progname (decimal n) = ⟨listing n ps, []⟩ ∧
      (∀ p ∈ ps, p.Prime) ∧ ps.Pairwise (· ≤ ·) ∧ ps.prod = n) ∧
    ∀ input, 0 ∉ input → (∀ l ∈ lines input, l.length < 126) →
      (Gives (main progname [] · input) (0, answers progname (lines input)) ↔
        Terminated input) := by
  constructor
  · intro n input h1 h2
    have hanswer := answer_decimal progname h1 h2
    refine ⟨n.primeFactorsList, ?_, hanswer, fun p hp => Nat.prime_of_mem_primeFactorsList hp,
      (Nat.primeFactorsList_sorted n).pairwise, Nat.prod_primeFactorsList (by omega)⟩
    have hrun := do_factor_gives progname (decimal n)
    rwa [hanswer, strtoll_decimal h2, if_neg (by simp; omega)] at hrun
  · intro input h0 hlen
    rw [main_gives]
    exact filter_iff h0 hlen

theorem factor_iff_six : (∃ ps : List ℕ,
      Gives (main [102] [decimal 6] · []) (0, ⟨listing 6 ps, []⟩) ∧
      answer [102] (decimal 6) = ⟨listing 6 ps, []⟩ ∧
      (∀ p ∈ ps, p.Prime) ∧ ps.Pairwise (· ≤ ·) ∧ ps.prod = 6) ∧
    Gives (main [102] [] · [54, 10]) (0, answers [102] (lines [54, 10])) := by
  have h := factor_iff [102]
  refine ⟨h.1 6 [] (by decide) (by decide), (h.2 [54, 10] (by decide) (by decide)).mpr ?_⟩
  rintro c ⟨⟩
  rfl

/-- The last line is not answered without its newline. -/
theorem not_factor : ¬ ∀ progname input : List UInt8, 0 ∉ input →
    (∀ l ∈ lines input, l.length < 126) →
    Gives (main progname [] · input) (0, answers progname (lines input)) := by
  intro h
  have hnothing : Gives (main [102] [] · [54]) (0, nothing) := by
    refine ⟨1, fun fuel hfuel => ?_⟩
    obtain ⟨fuel, rfl⟩ : ∃ k, fuel = k + 1 := ⟨fuel - 1, by omega⟩
    rfl
  have heq := hnothing.unique (h [102] [54] (by decide) (by decide))
  have hpos := answer_pos [102] [54]
  have hall : answers [102] (lines [54]) = (answer [102] [54]).append nothing := rfl
  rw [hall] at heq
  have hout := congrArg (fun r => r.2.out.length + r.2.err.length) heq
  simp only [nothing, Output.append, List.append_nil, List.length_nil] at hout
  omega

end Unitas.Factor
