import Mathlib.Algebra.BigOperators.Group.List.Basic
import Mathlib.Data.Nat.ModEq
import Mathlib.Data.Nat.Prime.Basic
import Unitas.Dd.Process
import Unitas.Printf.Format

/-! `dd`: its command line. -/
namespace Unitas.Dd
open Unitas.Decimal Unitas.Printf

/-- `strtoull(s, 0, 0)` and whether it sets `errno`. -/
def strtoull (s : List UInt8) : ℕ × Bool :=
  let s := s.dropWhile isSpace
  let negative : Bool := s.head? = some 45
  let m := magnitude (if negative || s.head? = some 43 then s.tail else s)
  if 2 ^ 64 ≤ m then (2 ^ 64 - 1, true)
  else (if negative then (2 ^ 64 - m) % 2 ^ 64 else m, false)

/-- The `switch` over the last character. No case ends in a `break`, so that each one also runs
those after it. -/
def mulfac (c : UInt8) : ℕ :=
  ([(98, 9), (100, 2), (119, 1), (107, 10)].dropWhile fun p : UInt8 × ℕ => p.1 ≠ c).foldl
    (fun _ p => p.2) 0

/-- A number and its suffix. What the cases store at `foo[strlen(foo)]` is there already. -/
def getnumber (ok0 : Bool) (foo : List UInt8) : Except Stop ℕ :=
  match foo.getLast? with
  | none => .error .undefined
  | some c =>
    let (t, errno) := strtoull foo
    if errno then .error (.exit 1)
    else if t = 0 && !ok0 then .error (.exit 1)
    else .ok ((t <<< mulfac c) % 2 ^ 64)

/-- Behind the first `c`. -/
def behind (c : UInt8) (foo : List UInt8) : List UInt8 := (foo.dropWhile (· ≠ c)).drop 1

theorem length_behind_lt {c : UInt8} {foo : List UInt8} (h : c ∈ foo) :
    (behind c foo).length < foo.length := by
  have hne : foo.dropWhile (· ≠ c) ≠ [] := by
    intro hnil
    simpa using List.dropWhile_eq_nil_iff.mp hnil c h
  have hpos := List.length_pos_iff.mpr hne
  have hle := (List.dropWhile_sublist (fun d : UInt8 => decide (d ≠ c)) (l := foo)).length_le
  rw [behind, List.length_drop]
  omega

/-- `getsize`, which goes on behind the first `x`. -/
def getsize (ok0 : Bool) (foo : List UInt8) : Except Stop ℕ :=
  if h : 120 ∈ foo then do
    let t ← getnumber ok0 (foo.takeWhile (· ≠ 120))
    let u ← getsize ok0 (behind 120 foo)
    return t * u % 2 ^ 64
  else getnumber ok0 foo
termination_by foo.length
decreasing_by exact length_behind_lt h

/-! What the header comment says about sizes. -/

inductive Suffix
  | b
  | d
  | w
  | k
  deriving DecidableEq, Repr

def Suffix.char : Suffix → UInt8
  | b => 98
  | d => 100
  | w => 119
  | k => 107

def Suffix.factor : Suffix → ℕ
  | b => 512
  | d => 4
  | w => 2
  | k => 1024

structure Number where
  number : ℕ
  suffix : Option Suffix

def Number.text (f : Number) : List UInt8 := decimal f.number ++ (f.suffix.map Suffix.char).toList

def Number.value (f : Number) : ℕ := f.number * (f.suffix.map Suffix.factor).getD 1

/-- The numbers with an `x` between each two. -/
def expression (fs : List Number) : List UInt8 := [120].intercalate (fs.map Number.text)

/-- All suffixes stand for 1024. -/
def Number.shifted (f : Number) : ℕ := f.number <<< if f.suffix.isSome then 10 else 0

theorem Suffix.not_digit (s : Suffix) :
    isDigit s.char = false ∧ s.char ≠ 120 ∧ s.char ≠ 88 := by
  cases s <;> decide

theorem Number.getLast?_text (f : Number) :
    ∃ c, f.text.getLast? = some c ∧ mulfac c = if f.suffix.isSome then 10 else 0 := by
  cases hs : f.suffix with
  | none =>
    have htext : f.text = decimal f.number := by rw [Number.text, hs]; exact List.append_nil _
    refine ⟨(decimal f.number).getLast (decimal_ne_nil _), ?_, ?_⟩
    · rw [htext, List.getLast?_eq_getLast_of_ne_nil]
    · have hdigit := decimal_isDigit f.number _ (List.getLast_mem (decimal_ne_nil _))
      generalize (decimal f.number).getLast (decimal_ne_nil _) = c at hdigit
      have hne : ∀ d : UInt8, isDigit d = false → ¬ d = c := by
        rintro d hd rfl
        exact Bool.false_ne_true (hd.symm.trans hdigit)
      simp [mulfac, List.dropWhile, hne 98 rfl, hne 100 rfl, hne 119 rfl, hne 107 rfl]
  | some s =>
    refine ⟨s.char, ?_, ?_⟩
    · rw [Number.text, hs]
      exact List.getLast?_concat
    · cases s <;> rfl

theorem Number.strtoull_text {f : Number} (h : f.number < 2 ^ 64) :
    strtoull f.text = (f.number, false) := by
  obtain ⟨c, ds, hc, h1, h2⟩ := decimal_head f.number
  have hm : magnitude f.text = f.number := by
    refine magnitude_decimal_append _ fun c hc => ?_
    cases hs : f.suffix with
    | none => simp [hs] at hc
    | some s =>
      simp only [hs, Option.map_some, Option.toList_some, List.head?_cons, Option.mem_def,
        Option.some.injEq] at hc
      exact hc ▸ s.not_digit
  have htext : f.text = c :: (ds ++ (f.suffix.map Suffix.char).toList) := by
    rw [Number.text, hc, List.cons_append]
  obtain ⟨hspace, h45, h43⟩ := digit_start h1 h2
  have hdrop : f.text.dropWhile isSpace = f.text := by
    rw [htext, List.dropWhile_cons_of_neg (by simp [hspace])]
  have hhead : f.text.head? = some c := by rw [htext]; rfl
  simpa [strtoull, hdrop, hhead, h45, h43, hm] using h

theorem getnumber_text {ok0 : Bool} {f : Number} (h : f.number < 2 ^ 64)
    (hzero : ok0 = true ∨ f.number ≠ 0) : getnumber ok0 f.text = .ok (f.shifted % 2 ^ 64) := by
  obtain ⟨c, hlast, hmul⟩ := f.getLast?_text
  have hok : (decide (f.number = 0) && !ok0) = false := by
    rcases hzero with rfl | hne
    · simp
    · simp [hne]
  rw [getnumber, hlast]
  simp [Number.strtoull_text h, hok, hmul, Number.shifted]

theorem not_mem_text (f : Number) : 120 ∉ f.text := by
  rw [Number.text, List.mem_append, not_or]
  constructor
  · intro h
    exact absurd (decimal_isDigit _ _ h) (by decide)
  · cases hs : f.suffix with
    | none => simp
    | some s => cases s <;> decide

/-- The product of what the suffixes make of the numbers. -/
theorem getsize_expression {ok0 : Bool} {fs : List Number} (hne : fs ≠ [])
    (hnum : ∀ f ∈ fs, f.number < 2 ^ 64) (hzero : ok0 = true ∨ ∀ f ∈ fs, f.number ≠ 0) :
    getsize ok0 (expression fs) = .ok ((fs.map Number.shifted).prod % 2 ^ 64) := by
  induction fs with
  | nil => exact absurd rfl hne
  | cons f fs ih =>
    obtain ⟨hf, hfs⟩ := List.forall_mem_cons.mp hnum
    have hf0 : ok0 = true ∨ f.number ≠ 0 := hzero.imp_right fun h => h f List.mem_cons_self
    have hfs0 : ok0 = true ∨ ∀ f ∈ fs, f.number ≠ 0 :=
      hzero.imp_right fun h g hg => h g (List.mem_cons_of_mem _ hg)
    cases fs with
    | nil =>
      have htext : expression [f] = f.text := by simp [expression]
      rw [htext, getsize, dif_neg (not_mem_text f), getnumber_text hf hf0]
      simp
    | cons g gs =>
      have htext : expression (f :: g :: gs) = f.text ++ 120 :: expression (g :: gs) := by
        simp [expression, List.intercalate_cons_cons]
      have hall : ∀ c ∈ f.text, decide (c ≠ 120) = true := fun c hc =>
        decide_eq_true fun h : c = 120 => not_mem_text f (h ▸ hc)
      have htake : (f.text ++ 120 :: expression (g :: gs)).takeWhile (· ≠ 120) = f.text := by
        rw [List.takeWhile_append_of_pos hall, List.takeWhile_cons_of_neg (by simp),
          List.append_nil]
      have hbehind : behind 120 (f.text ++ 120 :: expression (g :: gs)) = expression (g :: gs) := by
        rw [behind, List.dropWhile_append_of_pos hall, List.dropWhile_cons_of_neg (by simp)]
        rfl
      rw [htext, getsize, dif_pos (by simp), htake, hbehind, getnumber_text hf hf0,
        ih (List.cons_ne_nil _ _) hfs hfs0]
      simp only [bind, Except.bind, pure, Except.pure, ← Nat.mul_mod, List.map_cons,
        List.prod_cons]

/-- By how much the shift of a suffix is too long. -/
def Number.excess (f : Number) : ℕ :=
  match f.suffix with
  | none | some .k => 0
  | some .b => 1
  | some .d => 8
  | some .w => 9

theorem Number.shifted_eq (f : Number) : f.shifted = f.value * 2 ^ f.excess := by
  rw [Number.shifted, Number.value, Number.excess, Nat.shiftLeft_eq]
  rcases f.suffix with _ | _ | _ | _ | _ <;> simp [Suffix.factor, mul_assoc]

theorem prod_shifted (fs : List Number) : (fs.map Number.shifted).prod =
    (fs.map Number.value).prod * 2 ^ (fs.map Number.excess).sum := by
  induction fs with
  | nil => rfl
  | cons f fs ih =>
    simp only [List.map_cons, List.prod_cons, List.sum_cons, ih, f.shifted_eq, pow_add]
    ring

theorem value_eq_zero {f : Number} : f.value = 0 ↔ f.number = 0 := by
  have hfactor : (f.suffix.map Suffix.factor).getD 1 ≠ 0 := by
    cases f.suffix with
    | none => decide
    | some s => cases s <;> decide
  rw [Number.value, mul_eq_zero, or_iff_left hfactor]

theorem excess_eq_zero {f : Number} : f.excess = 0 ↔ f.suffix = none ∨ f.suffix = some .k := by
  rw [Number.excess]
  rcases f.suffix with _ | _ | _ | _ | _ <;> decide

/-- A number that is doubled some times is the same in so many bits only if it is not doubled or
zero. -/
theorem mul_two_pow_mod {p e n : ℕ} (hp : p < 2 ^ n) : p * 2 ^ e % 2 ^ n = p ↔ p = 0 ∨ e = 0 := by
  constructor
  · intro h
    by_contra! hne
    have hmod : p * 2 ^ e ≡ p * 1 [MOD 2 ^ n] := by
      rw [mul_one]
      exact h.trans (Nat.mod_eq_of_lt hp).symm
    have hdvd : 2 ^ n ∣ p * (2 ^ e - 1) := by
      rw [Nat.mul_sub]
      exact (Nat.modEq_iff_dvd' (Nat.mul_le_mul_left _ Nat.one_le_two_pow)).mp hmod.symm
    have hodd : Nat.Coprime (2 ^ n) (2 ^ e - 1) := by
      refine Nat.Coprime.pow_left n ?_
      rw [Nat.coprime_two_left]
      exact Nat.Even.sub_odd Nat.one_le_two_pow (Nat.even_pow.mpr ⟨even_two, hne.2⟩) odd_one
    have hle := Nat.le_of_dvd (Nat.pos_of_ne_zero hne.1) (hodd.dvd_of_dvd_mul_right hdvd)
    omega
  · rintro (rfl | rfl)
    · rw [zero_mul, Nat.zero_mod]
    · rw [pow_zero, mul_one, Nat.mod_eq_of_lt hp]

/-- A size is the product that the header comment promises if and only if it has no suffix but
`k`, or is zero. -/
theorem getsize_iff {ok0 : Bool} {fs : List Number} (hne : fs ≠ [])
    (hnum : ∀ f ∈ fs, f.number < 2 ^ 64) (hprod : (fs.map Number.value).prod < 2 ^ 64)
    (hzero : ok0 = true ∨ ∀ f ∈ fs, f.number ≠ 0) :
    getsize ok0 (expression fs) = .ok (fs.map Number.value).prod ↔
      (∀ f ∈ fs, f.suffix = none ∨ f.suffix = some .k) ∨ ∃ f ∈ fs, f.number = 0 := by
  have hvalue : (fs.map Number.value).prod = 0 ↔ ∃ f ∈ fs, f.number = 0 := by
    rw [List.prod_eq_zero_iff, List.mem_map]
    exact exists_congr fun f => and_congr_right fun _ => value_eq_zero
  have hexcess : (fs.map Number.excess).sum = 0 ↔
      ∀ f ∈ fs, f.suffix = none ∨ f.suffix = some .k := by
    rw [List.sum_eq_zero_iff, List.forall_mem_map]
    exact forall₂_congr fun f _ => excess_eq_zero
  rw [getsize_expression hne hnum hzero, Except.ok.injEq, prod_shifted, mul_two_pow_mod hprod,
    hvalue, hexcess, or_comm]

/-- `2kx3`. -/
theorem getsize_iff_two : getsize false (expression [⟨2, some .k⟩, ⟨3, none⟩]) = .ok 6144 ↔
    (∀ f ∈ [(⟨2, some .k⟩ : Number), ⟨3, none⟩], f.suffix = none ∨ f.suffix = some .k) ∨
      ∃ f ∈ [(⟨2, some .k⟩ : Number), ⟨3, none⟩], f.number = 0 :=
  getsize_iff (by decide) (by decide) (by decide) (.inr (by decide))

/-- `dd bs=1b`: blocks of 1024 bytes. -/
theorem not_getsize : ¬ ∀ (ok0 : Bool) (fs : List Number), fs ≠ [] →
    (∀ f ∈ fs, f.number < 2 ^ 64) → (fs.map Number.value).prod < 2 ^ 64 →
    (ok0 = true ∨ ∀ f ∈ fs, f.number ≠ 0) →
    getsize ok0 (expression fs) = .ok (fs.map Number.value).prod := by
  intro h
  have hb := h false [⟨1, some .b⟩] (by decide) (by decide) (by decide) (.inr (by decide))
  rw [getsize_expression (by decide) (by decide) (.inr (by decide))] at hb
  exact absurd (Except.ok.inj hb) (by decide)

/-! `conv=`. -/

def MODE_ASCII : ℕ := 0x0001
def MODE_EBCDIC : ℕ := 0x0002
def MODE_IBM : ℕ := 0x0004
def MODE_BLOCK : ℕ := 0x0008
def MODE_UNBLOCK : ℕ := 0x0010
def MODE_LCASE : ℕ := 0x0020
def MODE_UCASE : ℕ := 0x0040
def MODE_SWAB : ℕ := 0x0080
def MODE_NOERROR : ℕ := 0x0100
def MODE_NOTRUNC : ℕ := 0x0200
def MODE_SYNC : ℕ := 0x0400
def MODE_OSYNC : ℕ := 0x0800

/-- The names that `getconv` compares with, in its order: `ascii`, `ebcdic`, `ibm`, `block`,
`unblock`, `lcase`, `ucase`, `swab`, `noerror`, `notrunc`, `sync`, `isync` and `osync`. -/
def conversions : List (List UInt8 × ℕ) := [
  ([97, 115, 99, 105, 105], MODE_ASCII),
  ([101, 98, 99, 100, 105, 99], MODE_EBCDIC),
  ([105, 98, 109], MODE_IBM),
  ([98, 108, 111, 99, 107], MODE_BLOCK),
  ([117, 110, 98, 108, 111, 99, 107], MODE_UNBLOCK),
  ([108, 99, 97, 115, 101], MODE_LCASE),
  ([117, 99, 97, 115, 101], MODE_UCASE),
  ([115, 119, 97, 98], MODE_SWAB),
  ([110, 111, 101, 114, 114, 111, 114], MODE_NOERROR),
  ([110, 111, 116, 114, 117, 110, 99], MODE_NOTRUNC),
  ([115, 121, 110, 99], MODE_SYNC),
  ([105, 115, 121, 110, 99], MODE_SYNC),
  ([111, 115, 121, 110, 99], MODE_OSYNC)]

/-- Where `s` points after a name: behind the comma, or to the end of the string. -/
def afterName (r : List UInt8) : List UInt8 := if 44 ∈ r then behind 44 r else []

theorem afterName_lt {r : List UInt8} {flag : ℕ}
    (h : conversions.lookup (r.takeWhile (· ≠ 44)) = some flag) :
    (afterName r).length < r.length := by
  rw [afterName]
  split_ifs with hcomma
  · exact length_behind_lt hcomma
  · cases r with
    | nil => exact nomatch (show none = some flag from h)
    | cons c r => exact Nat.succ_pos _

/-- The loop of `getconv`, which a null pointer ends. -/
def getconvFrom (mode : ℕ) : Option (List UInt8) → Except Stop ℕ
  | none => .ok mode
  | some r =>
    match _h : conversions.lookup (r.takeWhile (· ≠ 44)) with
    | some flag => getconvFrom (mode ||| flag) (some (afterName r))
    | none => .error (.exit 1)
termination_by s => (s.map List.length).getD 0
decreasing_by exact afterName_lt _h

def getconv (mode : ℕ) (p : List UInt8) : Except Stop ℕ := getconvFrom mode (some p)

/-- The pointer is never null: at the end of the string stands an empty name, which `getconv`
does not know. -/
theorem getconv_exits (mode : ℕ) (p : List UInt8) : getconv mode p = .error (.exit 1) := by
  induction hn : p.length using Nat.strong_induction_on generalizing mode p with
  | _ n ih =>
    rw [getconv, getconvFrom]
    split
    next flag h => exact ih _ (hn ▸ afterName_lt h) _ _ rfl
    next => rfl

/-- A list of names for `conv=`, each with its flag. -/
def convList (names : List (List UInt8 × ℕ)) : List UInt8 := [44].intercalate (names.map Prod.fst)

/-- No list of known names is accepted. -/
theorem getconv_never (mode : ℕ) (names : List (List UInt8 × ℕ)) (_ : names ≠ [])
    (_ : ∀ name ∈ names, name ∈ conversions) :
    getconv mode (convList names) = .error (.exit 1) ∧
      ¬ getconv mode (convList names) = .ok (names.foldl (fun mode name => mode ||| name.2) mode) := by
  rw [getconv_exits]
  exact ⟨rfl, nofun⟩

/-- `conv=ascii`. -/
theorem getconv_never_ascii :
    getconv 0 (convList [([97, 115, 99, 105, 105], MODE_ASCII)]) = .error (.exit 1) ∧
      ¬ getconv 0 (convList [([97, 115, 99, 105, 105], MODE_ASCII)]) = .ok
        ([(([97, 115, 99, 105, 105] : List UInt8), MODE_ASCII)].foldl
          (fun mode name => mode ||| name.2) 0) :=
  getconv_never 0 _ (by decide) (by decide)

/-- `conv=swab` ends the program. -/
theorem not_getconv : ¬ ∀ (mode : ℕ) (names : List (List UInt8 × ℕ)), names ≠ [] →
    (∀ name ∈ names, name ∈ conversions) →
    getconv mode (convList names) = .ok (names.foldl (fun mode name => mode ||| name.2) mode) := by
  intro h
  have hswab := h 0 [([115, 119, 97, 98], MODE_SWAB)] (by decide) (by decide)
  rw [getconv_exits] at hswab
  exact nomatch hswab

/-! `main`. -/

/-- What the options set. -/
structure Opts where
  fn_in : Option (List UInt8)
  fn_out : Option (List UInt8)
  ibs : ℕ
  obs : ℕ
  cbs : ℕ
  bskip : ℕ
  bseek : ℕ
  bcount : ℕ
  mode : ℕ

def defaults : Opts := ⟨none, none, 512, 512, 512, 0, 0, 0, 0⟩

/-- What follows `mytok` and a `=`. -/
def findtok (against mytok : List UInt8) : Option (List UInt8) :=
  if mytok <+: against ∧ (against.drop mytok.length).head? = some 61 then
    some (against.drop (mytok.length + 1))
  else none

/-- `if`, `of`, `bs`, `ibs`, `obs`, `cbs`, `skip`, `seek`, `iseek`, `oseek`, `count` and `conv`,
with what they do. -/
def operands : List (List UInt8 × (Opts → List UInt8 → Except Stop Opts)) := [
  ([105, 102], fun o p => .ok { o with fn_in := some p }),
  ([111, 102], fun o p => .ok { o with fn_out := some p }),
  ([98, 115], fun o p => do
    let n ← getsize false p
    return { o with ibs := n, obs := n, cbs := n }),
  ([105, 98, 115], fun o p => return { o with ibs := ← getsize false p }),
  ([111, 98, 115], fun o p => return { o with obs := ← getsize false p }),
  ([99, 98, 115], fun o p => return { o with cbs := ← getsize false p }),
  ([115, 107, 105, 112], fun o p => return { o with bskip := ← getsize true p }),
  ([115, 101, 101, 107], fun o p => return { o with bseek := ← getsize true p }),
  ([105, 115, 101, 101, 107], fun o p => return { o with bskip := ← getsize true p }),
  ([111, 115, 101, 101, 107], fun o p => return { o with bseek := ← getsize true p }),
  ([99, 111, 117, 110, 116], fun o p => return { o with bcount := ← getsize false p }),
  ([99, 111, 110, 118], fun o p => return { o with mode := ← getconv o.mode p })]

/-- One argument of the command line. -/
def operand (o : Opts) (arg : List UInt8) : Except Stop Opts :=
  match operands.findSome? fun (tok, set) => (findtok arg tok).map (set o) with
  | some r => r
  | none => .error (.exit 1)

def exclusive (mode flags : ℕ) : Bool := mode &&& flags ≠ flags

/-- `main` up to the allocation of the buffers. -/
def options (argv : List (List UInt8)) : Except Stop Opts := do
  let o ← argv.foldlM operand defaults
  let table := o.mode &&& (MODE_ASCII ||| MODE_EBCDIC ||| MODE_IBM)
  if table ∉ [0, MODE_ASCII, MODE_EBCDIC, MODE_IBM] then throw (.exit 1)
  if !exclusive o.mode (MODE_LCASE ||| MODE_UCASE) then throw (.exit 1)
  if !exclusive o.mode (MODE_BLOCK ||| MODE_UNBLOCK) then throw (.exit 1)
  return o

def Mode.ofFlags (mode : ℕ) : Mode where
  ascii := mode &&& MODE_ASCII ≠ 0
  ebcdic := mode &&& MODE_EBCDIC ≠ 0
  ibm := mode &&& MODE_IBM ≠ 0
  block := mode &&& MODE_BLOCK ≠ 0
  unblock := mode &&& MODE_UNBLOCK ≠ 0
  lcase := mode &&& MODE_LCASE ≠ 0
  ucase := mode &&& MODE_UCASE ≠ 0
  swab := mode &&& MODE_SWAB ≠ 0
  noerror := mode &&& MODE_NOERROR ≠ 0
  osync := mode &&& MODE_OSYNC ≠ 0

def Opts.args (o : Opts) : Args := ⟨Mode.ofFlags o.mode, o.ibs, o.obs, o.bcount⟩

theorem operands_mode : ∀ op ∈ operands, ∀ o p o', op.2 o p = .ok o' → o'.mode = o.mode := by
  have hsize : ∀ {ok0 : Bool} {p : List UInt8} {set : ℕ → Opts} {o o' : Opts},
      (∀ n, (set n).mode = o.mode) →
      (do return set (← getsize ok0 p) : Except Stop Opts) = .ok o' → o'.mode = o.mode := by
    intro ok0 p set o o' hset h
    cases hn : getsize ok0 p with
    | error stop =>
      rw [hn] at h
      exact nomatch h
    | ok n =>
      rw [hn] at h
      exact Except.ok.inj h ▸ hset n
  simp only [operands, List.forall_mem_cons]
  refine ⟨?_, ?_, ?_, ?_, ?_, ?_, ?_, ?_, ?_, ?_, ?_, ?_, fun _ h => absurd h List.not_mem_nil⟩
  · exact fun o p o' h => Except.ok.inj h ▸ rfl
  · exact fun o p o' h => Except.ok.inj h ▸ rfl
  · exact fun o p o' h => @hsize _ _ (fun n => { o with ibs := n, obs := n, cbs := n }) _ _ (fun _ => rfl) h
  · exact fun o p o' h => @hsize _ _ (fun n => { o with ibs := n }) _ _ (fun _ => rfl) h
  · exact fun o p o' h => @hsize _ _ (fun n => { o with obs := n }) _ _ (fun _ => rfl) h
  · exact fun o p o' h => @hsize _ _ (fun n => { o with cbs := n }) _ _ (fun _ => rfl) h
  · exact fun o p o' h => @hsize _ _ (fun n => { o with bskip := n }) _ _ (fun _ => rfl) h
  · exact fun o p o' h => @hsize _ _ (fun n => { o with bseek := n }) _ _ (fun _ => rfl) h
  · exact fun o p o' h => @hsize _ _ (fun n => { o with bskip := n }) _ _ (fun _ => rfl) h
  · exact fun o p o' h => @hsize _ _ (fun n => { o with bseek := n }) _ _ (fun _ => rfl) h
  · exact fun o p o' h => @hsize _ _ (fun n => { o with bcount := n }) _ _ (fun _ => rfl) h
  · intro o p o' h
    rw [getconv_exits] at h
    exact nomatch h

theorem operand_mode {o o' : Opts} {arg : List UInt8} (h : operand o arg = .ok o') :
    o'.mode = o.mode := by
  rw [operand] at h
  split at h
  next r hr =>
    obtain ⟨⟨tok, set⟩, hmem, hset⟩ := List.exists_of_findSome?_eq_some hr
    obtain ⟨p, -, rfl⟩ := Option.map_eq_some_iff.mp hset
    exact operands_mode _ hmem o p o' h
  next => exact nomatch h

/-- `main` accepts no conversion. -/
theorem options_mode {argv : List (List UInt8)} {o : Opts} (h : options argv = .ok o) :
    o.mode = 0 := by
  have hfold : ∀ (argv : List (List UInt8)) (o o' : Opts), argv.foldlM operand o = .ok o' →
      o'.mode = o.mode := by
    intro argv
    induction argv with
    | nil => exact fun o o' h => Except.ok.inj h ▸ rfl
    | cons arg argv ih =>
      intro o o' h
      rw [List.foldlM_cons] at h
      cases harg : operand o arg with
      | error stop =>
        rw [harg] at h
        exact nomatch h
      | ok o₁ =>
        rw [harg] at h
        exact (ih o₁ o' h).trans (operand_mode harg)
  rw [options] at h
  cases hargv : argv.foldlM operand defaults with
  | error stop =>
    rw [hargv] at h
    exact nomatch h
  | ok o₁ =>
    have hmode : o₁.mode = 0 := hfold argv defaults o₁ hargv
    rw [hargv] at h
    simp only [bind, Except.bind, hmode, pure, Except.pure] at h
    exact Except.ok.inj h ▸ hmode

end Unitas.Dd
