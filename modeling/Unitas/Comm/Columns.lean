import Unitas.Lib.Lines
import Unitas.Lib.Merge
import Mathlib.Data.List.Lex
import Mathlib.Data.List.TakeWhile
import Mathlib.Order.Lattice

/-! `comm`: two files in order are read side by side, with one buffer each. -/
namespace Unitas.Comm
open Unitas.Lines Unitas.Merge

def LB : ℕ := 2050

/-- The options, the locale, and whether a `char` has a sign. -/
structure Env where
  one : Bool
  two : Bool
  three : Bool
  is_c_locale : Bool
  strcoll : List UInt8 → List UInt8 → ℤ
  signed : Bool

/-- What `rd` puts into the buffer and leaves of the file, with `i` characters in the buffer.
Without a newline there is no line, and the last character of a full buffer is lost. -/
def rd : ℕ → List UInt8 → List UInt8 → Option (List UInt8 × List UInt8)
  | _, _, [] => none
  | i, buf, c :: file =>
    if c = 10 ∨ i > LB - 2 then some (buf, file) else rd (i + 1) (buf ++ [c]) file

/-- What has been printed: columns and texts. -/
abbrev Out := List (ℕ × List UInt8)

def wr (env : Env) (str : List UInt8) (n : ℕ) : Out :=
  if n = 1 ∧ env.one ∨ n = 2 ∧ env.two ∨ n = 3 ∧ env.three then []
  else [(n, str.takeWhile (· ≠ 0))]

/-- The tabs before a column. -/
def ldr (env : Env) (n : ℕ) : List UInt8 :=
  if n = 2 then if env.one then [] else [9]
  else if n = 3 then
    List.replicate (2 - ((if env.one then 1 else 0) + if env.two then 1 else 0)) 9
  else []

/-- The output as bytes. -/
def render (env : Env) (out : Out) : List UInt8 := out.flatMap fun (n, str) => ldr env n ++ str ++ [10]

/-- A `char` as a number. -/
def charVal (signed : Bool) (c : UInt8) : ℤ := if signed ∧ 128 ≤ c.toNat then c.toNat - 256 else c.toNat

/-- `compare`. Where one string goes on, the other one has its null byte. -/
def compareBytes (signed : Bool) : List UInt8 → List UInt8 → ℕ
  | [], [] => 0
  | [], b :: _ => if b = 0 then 0 else if charVal signed 0 < charVal signed b then 1 else 2
  | a :: _, [] => if a = 0 then 0 else if charVal signed a < charVal signed 0 then 1 else 2
  | a :: as, b :: bs =>
    if a = b then if a = 0 then 0 else compareBytes signed as bs
    else if charVal signed a < charVal signed b then 1 else 2

def compare (env : Env) (a b : List UInt8) : ℕ :=
  let c := compareBytes env.signed a b
  if c = 0 ∨ env.is_c_locale then c
  else
    let ret := env.strcoll (a.takeWhile (· ≠ 0)) (b.takeWhile (· ≠ 0))
    if ret = 0 then 3 else if ret < 0 then 1 else 2

def copy (env : Env) : ℕ → List UInt8 → List UInt8 → ℕ → Option Out
  | 0, _, _, _ => none
  | fuel + 1, file, lbuf, n =>
    match rd 0 [] file with
    | none => some (wr env lbuf n)
    | some (lbuf', file) => (copy env fuel file lbuf' n).map (wr env lbuf n ++ ·)

/-- `RDTWO`, and what comes after it. -/
def RDTWO (env : Env) (fuel : ℕ)
    (next : List UInt8 → List UInt8 → List UInt8 → List UInt8 → Option Out)
    (ib1 ib2 : List UInt8) : Option Out :=
  match rd 0 [] ib1 with
  | none =>
    match rd 0 [] ib2 with
    | none => some []
    | some (lb2, ib2) => copy env fuel ib2 lb2 2
  | some (lb1, ib1) =>
    match rd 0 [] ib2 with
    | none => copy env fuel ib1 lb1 1
    | some (lb2, ib2) => next ib1 lb1 ib2 lb2

/-- The loop of `main`. -/
def loop (env : Env) : ℕ → List UInt8 → List UInt8 → List UInt8 → List UInt8 → Option Out
  | 0, _, _, _, _ => none
  | fuel + 1, ib1, lb1, ib2, lb2 =>
    match compare env lb1 lb2 with
    | 0 => (RDTWO env fuel (loop env fuel) ib1 ib2).map (wr env lb1 3 ++ ·)
    | 1 =>
      (match rd 0 [] ib1 with
        | none => copy env fuel ib2 lb2 2
        | some (lb1, ib1) => loop env fuel ib1 lb1 ib2 lb2).map (wr env lb1 1 ++ ·)
    | 2 =>
      (match rd 0 [] ib2 with
        | none => copy env fuel ib1 lb1 1
        | some (lb2, ib2) => loop env fuel ib1 lb1 ib2 lb2).map (wr env lb2 2 ++ ·)
    | _ =>
      (RDTWO env fuel (loop env fuel) ib1 ib2).map (wr env lb1 1 ++ wr env lb2 2 ++ ·)

def main (env : Env) (ib1 ib2 : List UInt8) : Option Out :=
  let fuel := ib1.length + ib2.length + 1
  RDTWO env fuel (loop env fuel) ib1 ib2

/-- No options, in the C locale. -/
def plain (signed : Bool) : Env := ⟨false, false, false, true, fun _ _ => 0, signed⟩

/-- Every line is in its column as often as it should be, and nothing else is there. -/
def Accounts (out : Out) (lines1 lines2 : List (List UInt8)) : Prop :=
  ∀ k v, out.count (k, v) =
    if k = 3 then min (lines1.count v) (lines2.count v)
    else if k = 1 then lines1.count v - min (lines1.count v) (lines2.count v)
    else if k = 2 then lines2.count v - min (lines1.count v) (lines2.count v)
    else 0

/-- The order of the files: by bytes, without a sign. -/
def byBytes (text : List UInt8) : List ℕ := text.map UInt8.toNat

/-- The order of `compare`: by `char`s, the null byte at the end among them. -/
def byChars (signed : Bool) (text : List UInt8) : List ℤ := (text ++ [0]).map (charVal signed)

/-- The lines that `rd` gets of a file. -/
def rdAll : ℕ → List UInt8 → List (List UInt8)
  | 0, _ => []
  | fuel + 1, file =>
    match rd 0 [] file with
    | none => []
    | some (line, file) => line :: rdAll fuel file

theorem charVal_injective (signed : Bool) : Function.Injective (charVal signed) := by
  intro a b h
  have ha := a.toNat_lt
  have hb := b.toNat_lt
  simp only [charVal] at h
  rw [← UInt8.toNat_inj]
  split_ifs at h <;> omega

theorem byChars_injective (signed : Bool) : Function.Injective (byChars signed) := fun _ _ h =>
  List.append_cancel_right ((charVal_injective signed).list_map h)

theorem byBytes_injective : Function.Injective byBytes :=
  Function.Injective.list_map fun _ _ h => UInt8.toNat_inj.mp h

theorem byChars_cons_lt (signed : Bool) (a b : UInt8) (l m : List ℤ) :
    charVal signed a :: l < charVal signed b :: m ↔
      charVal signed a < charVal signed b ∨ a = b ∧ l < m := by
  rw [List.cons_lt_cons_iff, (charVal_injective signed).eq_iff]

/-- Where no byte is above 127, or no `char` has a sign, `char`s are in the order of bytes. -/
theorem byChars_lt (signed : Bool) (x : List UInt8) : ∀ v : List UInt8,
    (∀ c ∈ x ++ v, charVal signed c = c.toNat) → byBytes x < byBytes v →
      byChars signed x < byChars signed v := by
  induction x with
  | nil =>
    intro v hval hlt
    cases v with
    | nil => exact absurd hlt (lt_irrefl _)
    | cons d v =>
      have hd := hval d List.mem_cons_self
      refine (byChars_cons_lt signed 0 d [] _).mpr ?_
      by_cases hd0 : 0 = d
      · refine Or.inr ⟨hd0, ?_⟩
        cases v with
        | nil => exact List.nil_lt_cons _ _
        | cons e v => exact List.nil_lt_cons _ _
      · have hne : d.toNat ≠ 0 := fun h => hd0 (UInt8.toNat_inj.mp h.symm)
        have h0 : charVal signed 0 = 0 := by simp [charVal]
        exact Or.inl (by omega)
  | cons c x ih =>
    intro v hval hlt
    cases v with
    | nil => exact absurd hlt (List.not_lt_nil _)
    | cons d v =>
      have hc := hval c List.mem_cons_self
      have hd := hval d (List.mem_append_right _ List.mem_cons_self)
      refine (byChars_cons_lt signed c d _ _).mpr ?_
      rcases List.cons_lt_cons_iff.mp hlt with hlt | ⟨heq, hlt⟩
      · exact Or.inl (by omega)
      · refine Or.inr ⟨UInt8.toNat_inj.mp heq, ih v (fun e he => hval e ?_) hlt⟩
        rcases List.mem_append.mp he with he | he
        · exact List.mem_cons_of_mem c (List.mem_append_left _ he)
        · exact List.mem_append_right _ (List.mem_cons_of_mem d he)

/-- Such files stay in step. -/
theorem inStep_of_charVal {signed : Bool} {l m : List (List UInt8)}
    (h : ∀ line ∈ l ++ m, ∀ c ∈ line, charVal signed c = c.toNat) :
    InStep byBytes (byChars signed) l m := by
  intro v x hvl hvm hx hlt
  refine Or.inr (byChars_lt signed x v (fun c hc => ?_) hlt)
  rcases List.mem_append.mp hc with hc | hc
  · exact h x (List.mem_append.mpr (mem_of_count_ne hx)) c hc
  · exact h v (List.mem_append_left _ hvl) c hc

/-- `compare` decides by the order of the `char`s. -/
theorem compareBytes_eq (signed : Bool) (a : List UInt8) : ∀ b : List UInt8, 0 ∉ a → 0 ∉ b →
    compareBytes signed a b =
      if a = b then 0 else if byChars signed a < byChars signed b then 1 else 2 := by
  induction a with
  | nil =>
    intro b _ hb
    cases b with
    | nil => rfl
    | cons c b =>
      have hc : c ≠ 0 := fun h => hb (h ▸ List.mem_cons_self)
      have hlt : byChars signed [] < byChars signed (c :: b) ↔ charVal signed 0 < charVal signed c :=
        (byChars_cons_lt signed 0 c [] _).trans (or_iff_left fun h => hc h.1.symm)
      rw [compareBytes, if_neg hc, if_neg (List.cons_ne_nil c b).symm]
      simp only [hlt]
  | cons d a ih =>
    intro b ha hb
    have hd : d ≠ 0 := fun h => ha (h ▸ List.mem_cons_self)
    cases b with
    | nil =>
      have hlt : byChars signed (d :: a) < byChars signed [] ↔ charVal signed d < charVal signed 0 :=
        (byChars_cons_lt signed d 0 _ []).trans (or_iff_left fun h => hd h.1)
      rw [compareBytes, if_neg hd, if_neg (List.cons_ne_nil d a)]
      simp only [hlt]
    | cons c b =>
      have hlt : byChars signed (d :: a) < byChars signed (c :: b) ↔
          charVal signed d < charVal signed c ∨ d = c ∧ byChars signed a < byChars signed b :=
        byChars_cons_lt signed d c _ _
      rw [compareBytes]
      by_cases hdc : d = c
      · subst hdc
        rw [if_pos rfl, if_neg hd, ih b (fun h => ha (List.mem_cons_of_mem _ h))
          fun h => hb (List.mem_cons_of_mem _ h)]
        simp only [hlt, lt_irrefl, false_or, true_and, List.cons.injEq]
      · rw [if_neg hdc, if_neg fun h => hdc (List.cons.inj h).1]
        simp only [hlt, hdc, false_and, or_false]

theorem rd_length {file rest : List UInt8} : ∀ {i : ℕ} {buf line : List UInt8},
    rd i buf file = some (line, rest) → rest.length < file.length := by
  induction file with
  | nil => exact fun h => absurd h (by simp [rd])
  | cons c file ih =>
    intro i buf line h
    rw [rd] at h
    split_ifs at h
    · obtain ⟨-, rfl⟩ := Prod.mk.inj (Option.some.inj h)
      exact Nat.lt_succ_self _
    · exact (ih h).trans (Nat.lt_succ_self _)

theorem rdAll_succ (fuel : ℕ) : ∀ {file : List UInt8}, file.length < fuel →
    rdAll (fuel + 1) file = rdAll fuel file := by
  induction fuel with
  | zero => exact fun h => absurd h (Nat.not_lt_zero _)
  | succ fuel ih =>
    intro file h
    rw [rdAll, rdAll]
    cases hrd : rd 0 [] file with
    | none => rfl
    | some p =>
      have := rd_length hrd
      dsimp only
      rw [ih (by omega)]

/-- All the lines that `rd` gets. -/
def rdLines (file : List UInt8) : List (List UInt8) := rdAll (file.length + 1) file

theorem rdLines_eq (file : List UInt8) :
    rdLines file = match rd 0 [] file with
      | none => []
      | some (line, file) => line :: rdLines file := by
  rw [rdLines, rdAll]
  cases hrd : rd 0 [] file with
  | none => rfl
  | some p =>
    have hlen := rd_length hrd
    dsimp only
    rw [rdLines]
    refine congrArg (p.1 :: ·) ?_
    obtain ⟨k, hk⟩ := Nat.exists_eq_add_of_lt hlen
    have hstep : ∀ k n, p.2.length < n → rdAll (n + k) p.2 = rdAll n p.2 := by
      intro k n hn
      induction k with
      | zero => rfl
      | succ k ih => rw [← Nat.add_assoc, rdAll_succ _ (by omega), ih]
    rw [hk, show p.2.length + k + 1 = p.2.length + 1 + k by omega, hstep k _ (Nat.lt_succ_self _)]

/-- Strings without a null byte are printed whole. -/
theorem wr_plain (signed : Bool) {str : List UInt8} (h : 0 ∉ str) (n : ℕ) :
    wr (plain signed) str n = [(n, str)] := by
  have htake : str.takeWhile (· ≠ 0) = str := by
    rw [List.takeWhile_eq_self_iff]
    intro c hc
    have : c ≠ 0 := fun heq => h (heq ▸ hc)
    simpa using this
  rw [wr, if_neg (by simp [plain]), htake]

theorem copy_eq (signed : Bool) (n : ℕ) (fuel : ℕ) : ∀ file lbuf, file.length < fuel →
    (∀ line ∈ lbuf :: rdLines file, 0 ∉ line) →
      copy (plain signed) fuel file lbuf n = some ((lbuf :: rdLines file).map (n, ·)) := by
  induction fuel with
  | zero => exact fun _ _ h => absurd h (Nat.not_lt_zero _)
  | succ fuel ih =>
    intro file lbuf hfuel hnul
    obtain ⟨hlbuf, hrest⟩ := List.forall_mem_cons.mp hnul
    rw [copy, wr_plain signed hlbuf]
    rw [rdLines_eq] at hrest ⊢
    cases hrd : rd 0 [] file with
    | none => rfl
    | some p =>
      rw [hrd] at hrest
      have := rd_length hrd
      dsimp only
      rw [ih p.2 p.1 (by omega) hrest]
      rfl

/-- Both files go on, or what one of them still has is copied. -/
theorem RDTWO_eq (signed : Bool) (fuel : ℕ)
    (next : List UInt8 → List UInt8 → List UInt8 → List UInt8 → Option Out) (ib1 ib2 : List UInt8)
    (hfuel : ib1.length + ib2.length < fuel + 1)
    (hn1 : ∀ line ∈ rdLines ib1, 0 ∉ line) (hn2 : ∀ line ∈ rdLines ib2, 0 ∉ line)
    (hnext : ∀ lb1 ib1' lb2 ib2', rd 0 [] ib1 = some (lb1, ib1') → rd 0 [] ib2 = some (lb2, ib2') →
      next ib1' lb1 ib2' lb2 =
        some (columns (byChars signed) (lb1 :: rdLines ib1') (lb2 :: rdLines ib2'))) :
    RDTWO (plain signed) fuel next ib1 ib2 =
      some (columns (byChars signed) (rdLines ib1) (rdLines ib2)) := by
  rw [rdLines_eq] at hn1 hn2
  rw [RDTWO, rdLines_eq ib1, rdLines_eq ib2]
  cases hrd1 : rd 0 [] ib1 with
  | none =>
    dsimp only
    cases hrd2 : rd 0 [] ib2 with
    | none => rw [columns]; rfl
    | some p2 =>
      rw [hrd2] at hn2
      have := rd_length hrd2
      dsimp only
      rw [copy_eq signed 2 fuel p2.2 p2.1 (by omega) hn2, columns]
  | some p1 =>
    rw [hrd1] at hn1
    have := rd_length hrd1
    dsimp only
    cases hrd2 : rd 0 [] ib2 with
    | none =>
      dsimp only
      rw [copy_eq signed 1 fuel p1.2 p1.1 (by omega) hn1, columns]
    | some p2 => exact hnext p1.1 p1.2 p2.1 p2.2 hrd1 hrd2

/-- The loop puts the lines into their columns by the order of the `char`s. -/
theorem loop_eq (signed : Bool) (fuel : ℕ) : ∀ ib1 lb1 ib2 lb2,
    ib1.length + ib2.length + 1 < fuel → (∀ line ∈ lb1 :: rdLines ib1, 0 ∉ line) →
    (∀ line ∈ lb2 :: rdLines ib2, 0 ∉ line) →
    loop (plain signed) fuel ib1 lb1 ib2 lb2 =
      some (columns (byChars signed) (lb1 :: rdLines ib1) (lb2 :: rdLines ib2)) := by
  induction fuel with
  | zero => exact fun _ _ _ _ h => absurd h (Nat.not_lt_zero _)
  | succ fuel ih =>
    intro ib1 lb1 ib2 lb2 hfuel hn1 hn2
    obtain ⟨hl1, hr1⟩ := List.forall_mem_cons.mp hn1
    obtain ⟨hl2, hr2⟩ := List.forall_mem_cons.mp hn2
    have hcmp : compare (plain signed) lb1 lb2 =
        if lb1 = lb2 then 0 else if byChars signed lb1 < byChars signed lb2 then 1 else 2 := by
      rw [← compareBytes_eq signed lb1 lb2 hl1 hl2, compare]
      exact if_pos (Or.inr rfl)
    rw [loop, columns]
    by_cases heq : lb1 = lb2
    · rw [if_pos heq] at hcmp ⊢
      simp only [hcmp]
      rw [wr_plain signed hl1, RDTWO_eq signed fuel _ ib1 ib2 (by omega) hr1 hr2]
      · rfl
      · intro lb1' ib1' lb2' ib2' hrd1 hrd2
        have h1 := rd_length hrd1
        have h2 := rd_length hrd2
        rw [rdLines_eq, hrd1] at hr1
        rw [rdLines_eq, hrd2] at hr2
        exact ih ib1' lb1' ib2' lb2' (by omega) hr1 hr2
    · rw [if_neg heq] at hcmp ⊢
      by_cases hlt : byChars signed lb1 < byChars signed lb2
      · rw [if_pos hlt] at hcmp ⊢
        simp only [hcmp]
        rw [wr_plain signed hl1, rdLines_eq ib1]
        cases hrd1 : rd 0 [] ib1 with
        | none =>
          dsimp only
          rw [copy_eq signed 2 fuel ib2 lb2 (by omega) hn2, columns]
          rfl
        | some p1 =>
          have := rd_length hrd1
          rw [rdLines_eq, hrd1] at hr1
          dsimp only
          rw [ih p1.2 p1.1 ib2 lb2 (by omega) hr1 hn2]
          rfl
      · rw [if_neg hlt] at hcmp ⊢
        simp only [hcmp]
        rw [wr_plain signed hl2, rdLines_eq ib2]
        cases hrd2 : rd 0 [] ib2 with
        | none =>
          dsimp only
          rw [copy_eq signed 1 fuel ib1 lb1 (by omega) hn1, columns]
          rfl
        | some p2 =>
          have := rd_length hrd2
          rw [rdLines_eq, hrd2] at hr2
          dsimp only
          rw [ih ib1 lb1 p2.2 p2.1 (by omega) hn1 hr2]
          rfl

/-- `rd` gets no more than fits the buffer, and nothing that is not in the file. -/
theorem rd_line {file rest : List UInt8} : ∀ {buf line : List UInt8}, buf.length ≤ LB - 1 →
    rd buf.length buf file = some (line, rest) → line.length ≤ LB - 1 ∧
      (∀ c ∈ line, c ∈ buf ∨ c ∈ file) ∧ ∀ c ∈ rest, c ∈ file := by
  induction file with
  | nil => exact fun _ h => absurd h (by simp [rd])
  | cons c file ih =>
    intro buf line hbuf h
    rw [rd] at h
    split_ifs at h with hend
    · obtain ⟨rfl, rfl⟩ := Prod.mk.inj (Option.some.inj h)
      exact ⟨hbuf, fun d hd => Or.inl hd, fun d hd => List.mem_cons_of_mem c hd⟩
    · rw [not_or] at hend
      have hlen : (buf ++ [c]).length = buf.length + 1 := List.length_append
      have hLB : LB = 2050 := rfl
      rw [← hlen] at h
      obtain ⟨h1, h2, h3⟩ := ih (by omega) h
      refine ⟨h1, fun d hd => ?_, fun d hd => List.mem_cons_of_mem c (h3 d hd)⟩
      rcases h2 d hd with hd | hd
      · rcases List.mem_append.mp hd with hd | hd
        · exact Or.inl hd
        · rw [List.mem_singleton.mp hd]
          exact Or.inr List.mem_cons_self
      · exact Or.inr (List.mem_cons_of_mem c hd)

theorem rdLines_mem (n : ℕ) : ∀ file : List UInt8, file.length ≤ n → ∀ line ∈ rdLines file,
    line.length ≤ LB - 1 ∧ ∀ c ∈ line, c ∈ file := by
  induction n with
  | zero =>
    intro file h line hline
    obtain rfl := List.length_eq_zero_iff.mp (Nat.le_zero.mp h)
    exact absurd hline List.not_mem_nil
  | succ n ih =>
    intro file h line hline
    rw [rdLines_eq] at hline
    cases hrd : rd 0 [] file with
    | none =>
      rw [hrd] at hline
      exact absurd hline List.not_mem_nil
    | some p =>
      rw [hrd] at hline
      have hlen := rd_length hrd
      obtain ⟨h1, h2, h3⟩ := @rd_line file p.2 [] p.1 (Nat.zero_le _) hrd
      rcases List.mem_cons.mp hline with rfl | hline
      · exact ⟨h1, fun c hc => (h2 c hc).resolve_left List.not_mem_nil⟩
      · obtain ⟨h4, h5⟩ := ih p.2 (by omega) line hline
        exact ⟨h4, fun c hc => h3 c (h5 c hc)⟩

/-- A line that fits the buffer is read whole, if it ends. -/
theorem rd_eq {file : List UInt8} : ∀ {buf l : List UInt8} {ls : List (List UInt8)},
    (buf ++ l).length ≤ LB - 1 → file.splitOn 10 = l :: ls →
      (ls = [] → rd buf.length buf file = none) ∧
      (ls ≠ [] → ∃ rest, rd buf.length buf file = some (buf ++ l, rest) ∧
        rest.splitOn 10 = ls) := by
  induction file with
  | nil =>
    intro buf l ls _ h
    obtain ⟨-, rfl⟩ := List.cons.inj h
    exact ⟨fun _ => rfl, fun h => absurd rfl h⟩
  | cons c file ih =>
    intro buf l ls hlen hsplit
    obtain ⟨g, gs, hg⟩ := List.exists_cons_of_ne_nil (List.splitOn_ne_nil 10 file)
    rw [List.splitOn_cons_eq_if_modifyHead, hg] at hsplit
    rw [rd]
    by_cases hc : c = 10
    · subst hc
      obtain ⟨rfl, rfl⟩ := List.cons.inj hsplit
      rw [if_pos (Or.inl rfl), List.append_nil]
      exact ⟨fun h => absurd h (List.cons_ne_nil _ _), fun _ => ⟨file, rfl, hg⟩⟩
    · rw [if_neg (by simpa using hc)] at hsplit
      obtain ⟨rfl, rfl⟩ := List.cons.inj hsplit
      have hLB : LB = 2050 := rfl
      have happ : buf ++ c :: g = buf ++ [c] ++ g := List.append_cons buf c g
      have hlen' : (buf ++ [c]).length = buf.length + 1 := List.length_append
      rw [happ, List.length_append] at hlen
      rw [if_neg (by
        rw [not_or]
        exact ⟨hc, by omega⟩), happ, ← hlen']
      exact ih (by rw [List.length_append]; exact hlen) hg

/-- Lines that fit the buffer are read as they are, but what follows the last newline is lost. -/
theorem rdLines_of_short (n : ℕ) : ∀ file : List UInt8, file.length ≤ n →
    (∀ line ∈ file.splitOn 10, line.length ≤ LB - 1) →
    rdLines file = (file.splitOn 10).dropLast := by
  induction n with
  | zero =>
    intro file h _
    obtain rfl := List.length_eq_zero_iff.mp (Nat.le_zero.mp h)
    rfl
  | succ n ih =>
    intro file h hshort
    obtain ⟨l, ls, hl⟩ := List.exists_cons_of_ne_nil (List.splitOn_ne_nil 10 file)
    rw [hl] at hshort ⊢
    obtain ⟨hnone, hsome⟩ := @rd_eq file [] l ls (hshort l List.mem_cons_self) hl
    by_cases hls : ls = []
    · have hrd : rd 0 [] file = none := hnone hls
      rw [rdLines_eq, hrd, hls]
      rfl
    · obtain ⟨rest, hrd, hrest⟩ := hsome hls
      have hrd' : rd 0 [] file = some (l, rest) := hrd
      have hlen := rd_length hrd'
      rw [rdLines_eq, hrd', List.dropLast_cons_of_ne_nil hls, ← hrest]
      refine congrArg (l :: ·) (ih rest (by omega) ?_)
      rw [hrest]
      exact fun line hline => hshort line (List.mem_cons_of_mem l hline)

/-- The lines of a file fit the buffer, and the last one has its newline. -/
def Whole (file : List UInt8) : Prop :=
  (∀ line ∈ lines file, line.length ≤ LB - 1) ∧ Terminated file

theorem rdLines_of_fit {file : List UInt8} (h : ∀ line ∈ lines file, line.length ≤ LB - 1) :
    rdLines file = (file.splitOn 10).dropLast := by
  refine rdLines_of_short _ file (Nat.le_refl _) fun line hline => ?_
  rw [lines] at h
  split_ifs at h with hlast
  · rw [← List.dropLast_append_getLast? [] hlast] at hline
    rcases List.mem_append.mp hline with hline | hline
    · exact h line hline
    · rw [List.mem_singleton.mp hline]
      exact Nat.zero_le _
  · exact h line hline

theorem rdLines_whole {file : List UInt8} (h : Whole file) : rdLines file = lines file := by
  rw [rdLines_of_fit h.1, lines, if_pos ((terminated_iff file).mp h.2)]

/-- The lines are read as often as they are there only if the file is whole. -/
theorem whole_of_count {file : List UInt8}
    (h : ∀ v, (rdLines file).count v = (lines file).count v) : Whole file := by
  have hperm : (rdLines file).Perm (lines file) := List.perm_iff_count.mpr h
  have hfit : ∀ line ∈ lines file, line.length ≤ LB - 1 := fun line hline =>
    (rdLines_mem _ file (Nat.le_refl _) line (hperm.mem_iff.mpr hline)).1
  refine ⟨hfit, ?_⟩
  have hlen := hperm.length_eq
  rw [rdLines_of_fit hfit, List.length_dropLast] at hlen
  have hpos := List.length_pos_iff.mpr (List.splitOn_ne_nil 10 file)
  rw [terminated_iff]
  by_contra hlast
  rw [lines, if_neg hlast] at hlen
  omega

theorem main_eq (signed : Bool) {ib1 ib2 : List UInt8} (h1 : 0 ∉ ib1) (h2 : 0 ∉ ib2) :
    main (plain signed) ib1 ib2 =
      some (columns (byChars signed) (rdLines ib1) (rdLines ib2)) := by
  have hnul : ∀ {file : List UInt8}, 0 ∉ file → ∀ line ∈ rdLines file, 0 ∉ line :=
    fun h line hline hmem => h ((rdLines_mem _ _ (Nat.le_refl _) line hline).2 0 hmem)
  rw [main, RDTWO_eq signed _ _ ib1 ib2 (by omega) (hnul h1) (hnul h2)]
  intro lb1 ib1' lb2 ib2' hrd1 hrd2
  have hlen1 := rd_length hrd1
  have hlen2 := rd_length hrd2
  have hnul1 := hnul h1
  have hnul2 := hnul h2
  rw [rdLines_eq, hrd1] at hnul1
  rw [rdLines_eq, hrd2] at hnul2
  exact loop_eq signed _ ib1' lb1 ib2' lb2 (by omega) hnul1 hnul2

/-- `comm` accounts for every line if and only if both files are whole and the order of `char`s
keeps them in step. -/
theorem comm_accounts (signed : Bool) {f1 f2 : List UInt8} (h1 : 0 ∉ f1) (h2 : 0 ∉ f2)
    (hs1 : Sorted byBytes (lines f1)) (hs2 : Sorted byBytes (lines f2)) :
    (∃ out, main (plain signed) f1 f2 = some out ∧ Accounts out (lines f1) (lines f2)) ↔
      Whole f1 ∧ Whole f2 ∧ InStep byBytes (byChars signed) (lines f1) (lines f2) := by
  have hspec := columns_spec (byChars signed) (rdLines f1) (rdLines f2)
  have hstep := allMatched_iff byBytes_injective (byChars_injective signed) _ (lines f1) (lines f2)
    (Nat.le_refl _) hs1 hs2
  rw [main_eq signed h1 h2]
  constructor
  · rintro ⟨out, hout, hacc⟩
    obtain rfl := Option.some.inj hout
    have hcounts : ∀ v, (rdLines f1).count v = (lines f1).count v ∧
        (rdLines f2).count v = (lines f2).count v ∧
        (matched (byChars signed) (rdLines f1) (rdLines f2)).count v =
          min ((lines f1).count v) ((lines f2).count v) := by
      intro v
      obtain ⟨h3, h1, h2, -⟩ := hspec v
      have hacc3 := hacc 3 v
      have hacc1 := hacc 1 v
      have hacc2 := hacc 2 v
      rw [if_pos rfl] at hacc3
      rw [if_neg (by decide), if_pos rfl] at hacc1
      rw [if_neg (by decide), if_neg (by decide), if_pos rfl] at hacc2
      omega
    have hw1 := whole_of_count fun v => (hcounts v).1
    have hw2 := whole_of_count fun v => (hcounts v).2.1
    refine ⟨hw1, hw2, hstep.mp fun v => ?_⟩
    have hmatched := (hcounts v).2.2
    rwa [rdLines_whole hw1, rdLines_whole hw2] at hmatched
  · rintro ⟨hw1, hw2, hin⟩
    refine ⟨_, rfl, fun k v => ?_⟩
    obtain ⟨h3, h1, h2, h0⟩ := hspec v
    have hmatched := hstep.mpr hin v
    rw [rdLines_whole hw1, rdLines_whole hw2] at h1 h2 h3 h0 ⊢
    by_cases hk3 : k = 3
    · subst hk3
      rw [if_pos rfl]
      omega
    by_cases hk1 : k = 1
    · subst hk1
      rw [if_neg hk3, if_pos rfl]
      omega
    by_cases hk2 : k = 2
    · subst hk2
      rw [if_neg hk3, if_neg hk1, if_pos rfl]
      omega
    · rw [if_neg hk3, if_neg hk1, if_neg hk2, h0 k hk1 hk2 hk3]

/-- The lines `a` and `c`, and `b` and `c`. -/
theorem comm_accounts_three : ∃ out, main (plain true) [97, 10, 99, 10] [98, 10, 99, 10] = some out ∧
    Accounts out (lines [97, 10, 99, 10]) (lines [98, 10, 99, 10]) := by
  have hascii : ((lines [97, 10, 99, 10] ++ lines [98, 10, 99, 10]).all fun line =>
      line.all fun c => charVal true c = c.toNat) = true := by decide
  refine (comm_accounts true (by decide) (by decide) ?_ ?_).mpr ⟨?_, ?_, ?_⟩
  · unfold Sorted
    decide
  · unfold Sorted
    decide
  · exact ⟨by decide, (terminated_iff _).mpr (by decide)⟩
  · exact ⟨by decide, (terminated_iff _).mpr (by decide)⟩
  · exact inStep_of_charVal fun line hline c hc =>
      of_decide_eq_true (List.all_eq_true.mp (List.all_eq_true.mp hascii line hline) c hc)

/-- A file whose only line has no newline, and an empty one. -/
theorem not_comm_accounts : ¬ ∀ (signed : Bool) (f1 f2 : List UInt8), 0 ∉ f1 → 0 ∉ f2 →
    Sorted byBytes (lines f1) → Sorted byBytes (lines f2) →
    ∃ out, main (plain signed) f1 f2 = some out ∧ Accounts out (lines f1) (lines f2) := by
  intro h
  obtain ⟨out, hout, hacc⟩ := h true [97] [] (by decide) (by decide) (List.pairwise_singleton _ _)
    List.Pairwise.nil
  have hmain : main (plain true) [97] [] = some [] := by decide
  rw [hmain] at hout
  obtain rfl := Option.some.inj hout
  exact absurd (hacc 1 [97]) (by decide)

end Unitas.Comm
