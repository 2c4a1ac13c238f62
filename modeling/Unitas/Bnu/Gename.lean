import Mathlib

/-! The names of `uucp` jobs: `gename`, `sysseq` and `getseq` in any number of processes, each of which
has its own `syslst`, with the lock and the sequence file of each system between them. -/
namespace Unitas.Bnu.Gename

abbrev Str := List UInt8

def MAXBASENAME : ℕ := 14
def SYSNSIZE : ℕ := MAXBASENAME - 7
def CMDPRE : UInt8 := 67
def XQTPRE : UInt8 := 88

/-! ### Numbers as text -/

def hexChar (d : ℕ) : UInt8 := if d < 10 then .ofNat (48 + d) else .ofNat (87 + d)

/-- `%.4x` and `%.3x` of a number that needs no more digits. -/
def hex : ℕ → ℕ → Str
  | 0, _ => []
  | k + 1, n => hex k (n / 16) ++ [hexChar (n % 16)]

def isspace (c : UInt8) : Bool := c = 32 || 9 ≤ c && c ≤ 13

def hexDigit (c : UInt8) : Option ℕ :=
  if 48 ≤ c ∧ c ≤ 57 then some (c.toNat - 48)
  else if 97 ≤ c ∧ c ≤ 102 then some (c.toNat - 87)
  else if 65 ≤ c ∧ c ≤ 70 then some (c.toNat - 55)
  else none

def digits (s : Str) : List ℕ := (s.map hexDigit).takeWhile Option.isSome |>.reduceOption

/-- `fscanf(fp, "%4x", &n)`: at most four characters behind white space, with a sign and `0x` if there
are any. -/
def scan (s : Str) : Option ℕ :=
  let s := (s.dropWhile isspace).take 4
  let signed := s.head? = some 45 ∨ s.head? = some 43
  let t := if signed then s.tail else s
  let u := if t.take 2 = [48, 120] ∨ t.take 2 = [48, 88] then t.drop 2 else t
  let n := (digits u).foldl (fun n d => 16 * n + d) 0
  if digits u = [] then none
  else some (if s.head? = some 45 then (2 ^ 32 - n) % 2 ^ 32 else n)

/-- `fprintf(fp, "%.4x\n", n)` -/
def line (n : ℕ) : Str := hex 4 n ++ [10]

/-! ### Processes -/

/-- An element of `syslst`. What a name that is too long spills over is written anew. -/
structure Entry where
  sys : Str
  job : ℕ
  subjob : ℕ

/-- A call of `gename` in which `sys` is not empty any more. -/
structure Request where
  pre : UInt8
  sys : Str
  grade : UInt8

/-- Where a process is in `getseq`. -/
inductive Pc
  | idle
  | mklock (r : Request) (i : ℕ)
  /-- The lock is held and the sequence file not yet read. -/
  | locked (r : Request)
  /-- The value of `n` before it is incremented. -/
  | read (r : Request) (n : ℕ)
  /-- The file is open for writing, and empty. -/
  | opened (r : Request) (n : ℕ)
  | written (r : Request) (n : ℕ)
  /-- An assertion has failed. -/
  | exited

/-- `datas` are the names of data files that `gename` has returned, the last one first, and `others`
those of command and execute files. -/
structure Proc where
  pc : Pc
  syslst : List Entry
  datas : List Str
  others : List Str

structure State where
  file : Str → Option Str
  lock : Str → Option ℕ
  proc : ℕ → Proc
  /-- What `getseq` has returned for each system, the last number first. -/
  returned : Str → List ℕ

inductive Act
  | gename (pre : UInt8) (sys : Str) (grade : UInt8)
  | mklock
  /-- `fopen` and `fscanf`, with what `rand` gives. -/
  | read (rand : ℕ)
  /-- `freopen`, or `fopen` of a new file. -/
  | open
  | write
  /-- `rmlock`, with what `rand` gives for `subjob`. -/
  | rmlock (rand : ℕ)

/-- `strncmp(syslst[i].sys, sys, MAXBASENAME) == SAME` -/
def Entry.matches (sys : Str) (e : Entry) : Bool := e.sys.take MAXBASENAME = sys.take MAXBASENAME

/-- The name of the lock, whose last part is cut. -/
def seqlock (sys : Str) : Str := ([76, 67, 75, 46, 83, 81, 46] ++ sys).take MAXBASENAME

/-- The name of a data file. -/
def dataName (pre : UInt8) (sys : Str) (job subjob : ℕ) : Str :=
  [pre, 46] ++ sys.take 5 ++ hex 4 (job % 2 ^ 16) ++ hex 3 (subjob % 2 ^ 12)

/-- The end of `gename`, with the `n` that `sysseq` has returned. -/
def Proc.named (q : Proc) (r : Request) (n : ℕ) (e : Entry) : Proc :=
  if r.pre = CMDPRE ∨ r.pre = XQTPRE then
    { q with
      pc := .idle
      others := ([r.pre, 46] ++ r.sys.take SYSNSIZE ++ [r.grade] ++ hex 4 e.job) :: q.others }
  else
    { q with
      pc := .idle
      syslst := q.syslst.set n { e with subjob := e.subjob + 1 }
      datas := dataName r.pre r.sys e.job (e.subjob + 1) :: q.datas }

def State.setProc (s : State) (p : ℕ) (q : Proc) : State :=
  { s with proc := Function.update s.proc p q }

/-- `gename` to where it waits for the lock, or to its end if the system is known. -/
def State.gename (s : State) (p : ℕ) (r : Request) : State :=
  let q := s.proc p
  let n := q.syslst.findIdx (Entry.matches r.sys)
  match q.syslst[n]? with
  | some e => s.setProc p (q.named r n e)
  | none =>
    s.setProc p { q with pc := if q.syslst.length < 30 then .mklock r 1 else .exited }

/-- A step of process `p`; `Myname` is the name of this system. -/
def step (Myname : Str) (s : State) (p : ℕ) : Act → Option State
  | .gename pre sys grade =>
    match (s.proc p).pc with
    | .idle => some (s.gename p ⟨pre, if sys = [] then Myname else sys, grade⟩)
    | _ => none
  | .mklock =>
    match (s.proc p).pc with
    | .mklock r i =>
      if s.lock (seqlock r.sys) = none then
        some { s.setProc p { s.proc p with pc := .locked r } with
          lock := Function.update s.lock (seqlock r.sys) (some p) }
      else some (s.setProc p
        { s.proc p with pc := if i + 1 < 25 then .mklock r (i + 1) else .exited })
    | _ => none
  | .read rand =>
    match (s.proc p).pc with
    | .locked r =>
      some (s.setProc p { s.proc p with pc := .read r (((s.file r.sys).bind scan).getD rand) })
    | _ => none
  | .open =>
    match (s.proc p).pc with
    | .read r n =>
      some { s.setProc p { s.proc p with pc := .opened r n } with
        file := Function.update s.file r.sys (some []) }
    | _ => none
  | .write =>
    match (s.proc p).pc with
    | .opened r n =>
      some { s.setProc p { s.proc p with pc := .written r ((n + 1) % 2 ^ 16) } with
        file := Function.update s.file r.sys (some (line ((n + 1) % 2 ^ 16))) }
    | _ => none
  | .rmlock rand =>
    match (s.proc p).pc with
    | .written r n =>
      let q := s.proc p
      let e : Entry := ⟨r.sys, n, rand % 2 ^ 12⟩
      some { s.setProc p ({ q with syslst := q.syslst ++ [e] }.named r q.syslst.length e) with
        lock := Function.update s.lock (seqlock r.sys) none
        returned := Function.update s.returned r.sys (n :: s.returned r.sys) }
    | _ => none

/-! ### Runs -/

/-- Nobody has called `gename` yet; the sequence files are as they are. -/
def State.Initial (s : State) : Prop :=
  (∀ p, s.proc p = ⟨.idle, [], [], []⟩) ∧ ∀ sys, s.returned sys = []

/-- The states that steps in the given situations lead to. -/
inductive Runs (Myname : Str) (C : State → ℕ → Act → Prop) (s₀ : State) : State → Prop
  | start : Runs Myname C s₀ s₀
  | step {s s' : State} {p : ℕ} {a : Act} : Runs Myname C s₀ s → C s p a →
      step Myname s p a = some s' → Runs Myname C s₀ s'

/-- The number that `getseq` finds, or draws where it finds none, does not end in `ffff`. -/
def NotLast (s : State) (p : ℕ) : Act → Prop
  | .read rand => ∀ r, (s.proc p).pc = .locked r →
      (((s.file r.sys).bind scan).getD rand) % 2 ^ 16 ≠ 0xffff
  | _ => True

/-- The numbers that have been returned are from 1 to `0xffff`. -/
def Numbered (s : State) : Prop := ∀ sys, ∀ n ∈ s.returned sys, 1 ≤ n ∧ n ≤ 0xffff

/-- Of 65535 successive calls for a system no two have the same number. -/
def Distinct (s : State) : Prop := ∀ sys k, (((s.returned sys).drop k).take 65535).Nodup

/-- The data files of a process have different names, as long as they are fewer than 4096 and the
systems differ in their first five characters. -/
def Named (s : State) : Prop :=
  ∀ p, ((s.proc p).syslst.map fun e => e.sys.take 5).Nodup → (s.proc p).datas.length < 4096 →
    (s.proc p).datas.Nodup

/-! ### Numbers are read as they were written -/

theorem length_hex (k n : ℕ) : (hex k n).length = k := by
  induction k generalizing n with
  | zero => rfl
  | succ k ih => rw [hex, List.length_append, ih, List.length_singleton]

theorem hexDigit_hexChar : ∀ d < 16, hexDigit (hexChar d) = some d := by decide

theorem hexChar_plain : ∀ d < 16, isspace (hexChar d) = false ∧ hexChar d ≠ 45 ∧ hexChar d ≠ 43 ∧
    hexChar d ≠ 120 ∧ hexChar d ≠ 88 := by decide

theorem hex_inj {k n m : ℕ} (h : hex k n = hex k m) : n % 16 ^ k = m % 16 ^ k := by
  induction k generalizing n m with
  | zero => rw [pow_zero, Nat.mod_one, Nat.mod_one]
  | succ k ih =>
    obtain ⟨h1, h2⟩ := List.append_inj' h rfl
    have hdigit : n % 16 = m % 16 := by
      have hn := hexDigit_hexChar (n % 16) (Nat.mod_lt _ (by decide))
      rw [(List.cons.inj h2).1, hexDigit_hexChar (m % 16) (Nat.mod_lt _ (by decide))] at hn
      exact (Option.some.inj hn).symm
    have hrest := ih h1
    rw [pow_succ, mul_comm, Nat.mod_mul, Nat.mod_mul, hdigit, hrest]

theorem scan_line {n : ℕ} (h : n < 2 ^ 16) : scan (line n) = some n := by
  obtain ⟨a, b, c, d, ha, hb, hc, hd, hhex, hn⟩ : ∃ a b c d : ℕ, a < 16 ∧ b < 16 ∧ c < 16 ∧ d < 16 ∧
      hex 4 n = [hexChar a, hexChar b, hexChar c, hexChar d] ∧
      n = 16 * (16 * (16 * (16 * 0 + a) + b) + c) + d :=
    ⟨n / 16 / 16 / 16 % 16, n / 16 / 16 % 16, n / 16 % 16, n % 16, Nat.mod_lt _ (by decide),
      Nat.mod_lt _ (by decide), Nat.mod_lt _ (by decide), Nat.mod_lt _ (by decide), rfl, by omega⟩
  obtain ⟨hspace, h45, h43, -⟩ := hexChar_plain a ha
  obtain ⟨-, -, -, h120, h88⟩ := hexChar_plain b hb
  have hdigits : digits [hexChar a, hexChar b, hexChar c, hexChar d] = [a, b, c, d] := by
    simp [digits, hexDigit_hexChar, ha, hb, hc, hd, List.reduceOption]
  have hdrop : (line n).dropWhile isspace = line n := by
    rw [line, hhex, List.cons_append, List.dropWhile_cons_of_neg (by simp [hspace])]
  have htake : (line n).take 4 = [hexChar a, hexChar b, hexChar c, hexChar d] := by
    rw [line, hhex]
    rfl
  rw [scan, hdrop, htake]
  simp [h45, h43, h120, h88, hdigits, hn]

/-! ### The sequence file -/

/-- The system whose lock a process holds. -/
def Pc.holds : Pc → Option Str
  | .locked r | .read r _ | .opened r _ | .written r _ => some r.sys
  | _ => none

/-- What a process that is in `getseq` has found and done, where `m` was the last number that was
returned. -/
def Pc.Follows (file : Option Str) (m : ℕ) : Pc → Prop
  | .locked _ => file = some (line m)
  | .read _ n | .opened _ n => n = m
  | .written _ n => n = (m + 1) % 2 ^ 16
  | _ => True

/-- What has been written is what will be returned. -/
def Pc.Wrote (file : Option Str) : Pc → Prop
  | .written _ n => file = some (line n) ∧ n < 2 ^ 16
  | _ => True

structure Inv (s : State) : Prop where
  lock : ∀ p sys, (s.proc p).pc.holds = some sys → s.lock (seqlock sys) = some p
  chain : ∀ sys, (s.returned sys).IsChain fun m n => m = (n + 1) % 2 ^ 16
  small : ∀ sys, ∀ n ∈ s.returned sys, n < 2 ^ 16
  free : ∀ sys, (∀ p, (s.proc p).pc.holds ≠ some sys) →
    ∀ m ∈ (s.returned sys).head?, s.file sys = some (line m)
  follows : ∀ p sys, (s.proc p).pc.holds = some sys →
    ∀ m ∈ (s.returned sys).head?, (s.proc p).pc.Follows (s.file sys) m
  wrote : ∀ p sys, (s.proc p).pc.holds = some sys → (s.proc p).pc.Wrote (s.file sys)

variable {Myname : Str} {s s' : State} {p : ℕ}

theorem Inv.unique (h : Inv s) {p p' : ℕ} {sys : Str} (hp : (s.proc p).pc.holds = some sys)
    (hp' : (s.proc p').pc.holds = some sys) : p = p' :=
  Option.some.inj ((h.lock p sys hp).symm.trans (h.lock p' sys hp'))

theorem inv_initial (h : s.Initial) : Inv s := by
  have hpc : ∀ p, (s.proc p).pc.holds = none := fun p => by rw [h.1 p]; rfl
  constructor
  · intro p sys hp; rw [hpc] at hp; cases hp
  · intro sys; rw [h.2]; exact .nil
  · intro sys n hn; rw [h.2] at hn; cases hn
  · intro sys _ m hm; rw [h.2] at hm; cases hm
  · intro p sys hp; rw [hpc] at hp; cases hp
  · intro p sys hp; rw [hpc] at hp; cases hp

/-- Nothing is done to lock, file and numbers by a process that does not hold the lock. -/
theorem Inv.setProc (h : Inv s) (hp : (s.proc p).pc.holds = none) {q : Proc}
    (hq : q.pc.holds = none) : Inv (s.setProc p q) := by
  have hholds : ∀ p', ((s.setProc p q).proc p').pc.holds = (s.proc p').pc.holds := fun p' => by
    by_cases heq : p' = p
    · subst heq
      simp [State.setProc, hq, hp]
    · simp [State.setProc, heq]
  have hother : ∀ p' sys, ((s.setProc p q).proc p').pc.holds = some sys →
      (s.setProc p q).proc p' = s.proc p' := fun p' sys hp' => by
    have heq : p' ≠ p := by
      rintro rfl
      rw [hholds, hp] at hp'
      cases hp'
    simp [State.setProc, heq]
  constructor
  · intro p' sys hp'
    exact h.lock p' sys (hholds p' ▸ hp')
  · exact h.chain
  · exact h.small
  · intro sys hfree
    exact h.free sys fun p' => hholds p' ▸ hfree p'
  · intro p' sys hp'
    have heq := hother p' sys hp'
    rw [heq] at hp' ⊢
    exact h.follows p' sys hp'
  · intro p' sys hp'
    have heq := hother p' sys hp'
    rw [heq] at hp' ⊢
    exact h.wrote p' sys hp'

/-- The holder of the lock goes on, and maybe writes to the file. -/
theorem Inv.hold (h : Inv s) {sys : Str} (hp : (s.proc p).pc.holds = some sys) {q : Proc}
    (hq : q.pc.holds = some sys) (file : Option Str)
    (hfollows : ∀ m ∈ (s.returned sys).head?, q.pc.Follows file m) (hwrote : q.pc.Wrote file) :
    Inv { s.setProc p q with file := Function.update s.file sys file } := by
  have hproc : ∀ p', p' ≠ p → (Function.update s.proc p q) p' = s.proc p' := fun p' hp' =>
    Function.update_of_ne hp' _ _
  have hself : (Function.update s.proc p q) p = q := Function.update_self _ _ _
  constructor
  · intro p' sys' hp'
    change ((Function.update s.proc p q) p').pc.holds = some sys' at hp'
    by_cases heq : p' = p
    · subst heq
      rw [hself, hq] at hp'
      exact Option.some.inj hp' ▸ h.lock p' sys hp
    · rw [hproc p' heq] at hp'
      exact h.lock p' sys' hp'
  · exact h.chain
  · exact h.small
  · intro sys' hfree m hm
    have hne : sys' ≠ sys := by
      rintro rfl
      exact hfree p (by change ((Function.update s.proc p q) p).pc.holds = _; rw [hself, hq])
    change Function.update s.file sys file sys' = _
    rw [Function.update_of_ne hne]
    refine h.free sys' (fun p' hp' => ?_) m hm
    by_cases heq : p' = p
    · subst heq
      exact hne (Option.some.inj (hp'.symm.trans hp))
    · exact hfree p' (by
        change ((Function.update s.proc p q) p').pc.holds = _
        rwa [hproc p' heq])
  · intro p' sys' hp' m hm
    change ((Function.update s.proc p q) p').pc.holds = some sys' at hp'
    change ((Function.update s.proc p q) p').pc.Follows (Function.update s.file sys file sys') m
    by_cases heq : p' = p
    · subst heq
      rw [hself] at hp' ⊢
      obtain rfl : sys = sys' := Option.some.inj (hq.symm.trans hp')
      rw [Function.update_self]
      exact hfollows m hm
    · rw [hproc p' heq] at hp' ⊢
      have hne : sys' ≠ sys := fun hs => heq (h.unique (hs ▸ hp') hp)
      rw [Function.update_of_ne hne]
      exact h.follows p' sys' hp' m hm
  · intro p' sys' hp'
    change ((Function.update s.proc p q) p').pc.holds = some sys' at hp'
    change ((Function.update s.proc p q) p').pc.Wrote (Function.update s.file sys file sys')
    by_cases heq : p' = p
    · subst heq
      rw [hself] at hp' ⊢
      obtain rfl : sys = sys' := Option.some.inj (hq.symm.trans hp')
      rwa [Function.update_self]
    · rw [hproc p' heq] at hp' ⊢
      have hne : sys' ≠ sys := fun hs => heq (h.unique (hs ▸ hp') hp)
      rw [Function.update_of_ne hne]
      exact h.wrote p' sys' hp'

theorem Inv.acquire (h : Inv s) {r : Request} (hp : (s.proc p).pc.holds = none)
    (hfree : s.lock (seqlock r.sys) = none) :
    Inv { s.setProc p { s.proc p with pc := .locked r } with
      lock := Function.update s.lock (seqlock r.sys) (some p) } := by
  obtain ⟨q, hq⟩ : ∃ q, q = { s.proc p with pc := Pc.locked r } := ⟨_, rfl⟩
  rw [← hq]
  have hpc : q.pc = .locked r := by rw [hq]
  have hproc : ∀ p', p' ≠ p → (Function.update s.proc p q) p' = s.proc p' := fun p' hp' =>
    Function.update_of_ne hp' _ _
  have hself : (Function.update s.proc p q) p = q := Function.update_self _ _ _
  have hnobody : ∀ p', (s.proc p').pc.holds ≠ some r.sys := fun p' hp' => by
    have := h.lock p' r.sys hp'
    rw [hfree] at this
    cases this
  constructor
  · intro p' sys' hp'
    change ((Function.update s.proc p q) p').pc.holds = some sys' at hp'
    change Function.update s.lock (seqlock r.sys) (some p) (seqlock sys') = some p'
    by_cases heq : p' = p
    · subst heq
      rw [hself, hpc] at hp'
      obtain rfl : r.sys = sys' := Option.some.inj hp'
      rw [Function.update_self]
    · rw [hproc p' heq] at hp'
      have hlock := h.lock p' sys' hp'
      rw [Function.update_of_ne, hlock]
      intro heq'
      rw [heq', hfree] at hlock
      cases hlock
  · exact h.chain
  · exact h.small
  · intro sys' hfree' m hm
    refine h.free sys' (fun p' hp' => ?_) m hm
    by_cases heq : p' = p
    · rw [heq, hp] at hp'
      cases hp'
    · exact hfree' p' (by
        change ((Function.update s.proc p q) p').pc.holds = _
        rwa [hproc p' heq])
  · intro p' sys' hp' m hm
    change ((Function.update s.proc p q) p').pc.holds = some sys' at hp'
    change ((Function.update s.proc p q) p').pc.Follows (s.file sys') m
    by_cases heq : p' = p
    · subst heq
      rw [hself, hpc] at hp' ⊢
      obtain rfl : r.sys = sys' := Option.some.inj hp'
      exact h.free r.sys hnobody m hm
    · rw [hproc p' heq] at hp' ⊢
      exact h.follows p' sys' hp' m hm
  · intro p' sys' hp'
    change ((Function.update s.proc p q) p').pc.holds = some sys' at hp'
    change ((Function.update s.proc p q) p').pc.Wrote (s.file sys')
    by_cases heq : p' = p
    · subst heq
      rw [hself, hpc]
      trivial
    · rw [hproc p' heq] at hp' ⊢
      exact h.wrote p' sys' hp'

theorem Inv.release (h : Inv s) {r : Request} {n : ℕ} (hp : (s.proc p).pc = .written r n) {q : Proc}
    (hq : q.pc.holds = none) :
    Inv { s.setProc p q with
      lock := Function.update s.lock (seqlock r.sys) none
      returned := Function.update s.returned r.sys (n :: s.returned r.sys) } := by
  have hholds : (s.proc p).pc.holds = some r.sys := by rw [hp]; rfl
  obtain ⟨hfile, hsmall⟩ := (hp ▸ h.wrote p r.sys hholds : Pc.Wrote _ (.written r n))
  have hfollows : ∀ m ∈ (s.returned r.sys).head?, n = (m + 1) % 2 ^ 16 := fun m hm =>
    (hp ▸ h.follows p r.sys hholds m hm : Pc.Follows _ m (.written r n))
  have hproc : ∀ p', p' ≠ p → (Function.update s.proc p q) p' = s.proc p' := fun p' hp' =>
    Function.update_of_ne hp' _ _
  have hself : (Function.update s.proc p q) p = q := Function.update_self _ _ _
  -- another process that holds a lock holds it for another system
  have hother : ∀ p' sys', ((Function.update s.proc p q) p').pc.holds = some sys' →
      p' ≠ p ∧ (s.proc p').pc.holds = some sys' ∧ seqlock sys' ≠ seqlock r.sys := by
    intro p' sys' hp'
    have heq : p' ≠ p := by
      rintro rfl
      rw [hself, hq] at hp'
      cases hp'
    rw [hproc p' heq] at hp'
    refine ⟨heq, hp', fun hlock => heq ?_⟩
    have hmine := h.lock p r.sys hholds
    rw [← hlock, h.lock p' sys' hp'] at hmine
    exact Option.some.inj hmine
  constructor
  · intro p' sys' hp'
    obtain ⟨-, hp', hlock⟩ := hother p' sys' hp'
    change Function.update s.lock (seqlock r.sys) none (seqlock sys') = some p'
    rw [Function.update_of_ne hlock]
    exact h.lock p' sys' hp'
  · intro sys'
    change (Function.update s.returned r.sys (n :: s.returned r.sys) sys').IsChain _
    by_cases hs : sys' = r.sys
    · subst hs
      rw [Function.update_self]
      exact List.isChain_cons.mpr ⟨hfollows, h.chain r.sys⟩
    · rw [Function.update_of_ne hs]
      exact h.chain sys'
  · intro sys' m hm
    change m ∈ Function.update s.returned r.sys (n :: s.returned r.sys) sys' at hm
    by_cases hs : sys' = r.sys
    · subst hs
      rw [Function.update_self] at hm
      rcases List.mem_cons.mp hm with rfl | hm
      · exact hsmall
      · exact h.small r.sys m hm
    · rw [Function.update_of_ne hs] at hm
      exact h.small sys' m hm
  · intro sys' hfree m hm
    change m ∈ (Function.update s.returned r.sys (n :: s.returned r.sys) sys').head? at hm
    by_cases hs : sys' = r.sys
    · subst hs
      rw [Function.update_self] at hm
      obtain rfl : n = m := Option.some.inj hm
      exact hfile
    · rw [Function.update_of_ne hs] at hm
      refine h.free sys' (fun p' hp' => ?_) m hm
      by_cases heq : p' = p
      · subst heq
        exact hs (Option.some.inj (hp'.symm.trans hholds))
      · exact hfree p' (by
          change ((Function.update s.proc p q) p').pc.holds = _
          rwa [hproc p' heq])
  · intro p' sys' hp' m hm
    obtain ⟨heq, hp', hlock⟩ := hother p' sys' hp'
    change m ∈ (Function.update s.returned r.sys (n :: s.returned r.sys) sys').head? at hm
    rw [Function.update_of_ne fun hs => hlock (congrArg seqlock hs)] at hm
    change ((Function.update s.proc p q) p').pc.Follows (s.file sys') m
    rw [hproc p' heq]
    exact h.follows p' sys' hp' m hm
  · intro p' sys' hp'
    obtain ⟨heq, hp', -⟩ := hother p' sys' hp'
    change ((Function.update s.proc p q) p').pc.Wrote (s.file sys')
    rw [hproc p' heq]
    exact h.wrote p' sys' hp'

theorem named_pc (q : Proc) (r : Request) (n : ℕ) (e : Entry) : (q.named r n e).pc = .idle := by
  rw [Proc.named]
  split_ifs <;> rfl

theorem Inv.gename (h : Inv s) (hp : (s.proc p).pc.holds = none) (r : Request) :
    Inv (s.gename p r) := by
  unfold State.gename
  dsimp only
  split
  · exact h.setProc hp (by rw [named_pc]; rfl)
  · refine h.setProc hp ?_
    dsimp only
    split_ifs <;> rfl

theorem inv_step (h : Inv s) {a : Act} (hstep : step Myname s p a = some s') : Inv s' := by
  cases a with
  | gename pre sys grade =>
    cases hpc : (s.proc p).pc <;> simp only [step, hpc, reduceCtorEq, Option.some.injEq] at hstep
    exact hstep ▸ h.gename (by rw [hpc]; rfl) _
  | mklock =>
    cases hpc : (s.proc p).pc <;> simp only [step, hpc, reduceCtorEq] at hstep
    have hp : (s.proc p).pc.holds = none := by rw [hpc]; rfl
    split_ifs at hstep with hfree hi
    · exact Option.some.inj hstep ▸ h.acquire hp hfree
    · exact Option.some.inj hstep ▸ h.setProc hp rfl
    · exact Option.some.inj hstep ▸ h.setProc hp rfl
  | read rand =>
    cases hpc : (s.proc p).pc <;> simp only [step, hpc, reduceCtorEq, Option.some.injEq] at hstep
    rename_i r
    have hp : (s.proc p).pc.holds = some r.sys := by rw [hpc]; rfl
    have hnext := h.hold (q := { s.proc p with
      pc := .read r (((s.file r.sys).bind scan).getD rand) }) hp rfl (s.file r.sys)
      (fun m hm => ?_) trivial
    · rw [Function.update_eq_self] at hnext
      exact hstep ▸ hnext
    · have hline : s.file r.sys = some (line m) :=
        (hpc ▸ h.follows p r.sys hp m hm : Pc.Follows _ m (.locked r))
      change ((s.file r.sys).bind scan).getD rand = m
      rw [hline, Option.bind_some, scan_line (h.small r.sys m (List.mem_of_mem_head? hm))]
      rfl
  | «open» =>
    cases hpc : (s.proc p).pc <;> simp only [step, hpc, reduceCtorEq, Option.some.injEq] at hstep
    rename_i r n
    have hp : (s.proc p).pc.holds = some r.sys := by rw [hpc]; rfl
    have hnext := h.hold (q := { s.proc p with pc := .opened r n }) hp rfl (some [])
      (fun m hm => ?_) trivial
    · exact hstep ▸ hnext
    · exact (hpc ▸ h.follows p r.sys hp m hm : Pc.Follows _ m (.read r n))
  | write =>
    cases hpc : (s.proc p).pc <;> simp only [step, hpc, reduceCtorEq, Option.some.injEq] at hstep
    rename_i r n
    have hp : (s.proc p).pc.holds = some r.sys := by rw [hpc]; rfl
    have hnext := h.hold (q := { s.proc p with pc := .written r ((n + 1) % 2 ^ 16) }) hp rfl
      (some (line ((n + 1) % 2 ^ 16))) (fun m hm => ?_) ⟨rfl, Nat.mod_lt _ (by decide)⟩
    · exact hstep ▸ hnext
    · have hn : n = m := (hpc ▸ h.follows p r.sys hp m hm : Pc.Follows _ m (.opened r n))
      exact hn ▸ rfl
  | rmlock rand =>
    cases hpc : (s.proc p).pc <;> simp only [step, hpc, reduceCtorEq, Option.some.injEq] at hstep
    exact hstep ▸ h.release hpc (by rw [named_pc]; rfl)

theorem getElem_chain {l : List ℕ} (h : l.IsChain fun m n => m = (n + 1) % 2 ^ 16)
    (hsmall : ∀ n ∈ l, n < 2 ^ 16) (d : ℕ) : ∀ {i : ℕ} (hi : i + d < l.length),
      l[i] = (l[i + d] + d) % 2 ^ 16 := by
  induction d with
  | zero =>
    intro i hi
    exact (Nat.mod_eq_of_lt (hsmall _ (List.getElem_mem _))).symm
  | succ d ih =>
    intro i hi
    have hstep := List.isChain_iff_getElem.mp h (i + d) (by omega)
    have hrest := ih (i := i) (by omega)
    have heq : l[i + (d + 1)] = l[i + d + 1] := rfl
    omega

theorem Inv.distinct (h : Inv s) : Distinct s := by
  intro sys k
  rw [List.nodup_iff_pairwise_ne, List.pairwise_iff_getElem]
  intro i j hi hj hij heq
  have hlen := hj
  rw [List.length_take, List.length_drop] at hlen
  rw [List.getElem_take, List.getElem_drop, List.getElem_take, List.getElem_drop] at heq
  have hchain := getElem_chain (h.chain sys) (h.small sys) (j - i) (i := k + i) (by omega)
  have hsmall := h.small sys _ (List.getElem_mem (show k + j < (s.returned sys).length by omega))
  have hidx : k + i + (j - i) = k + j := by omega
  simp only [hidx] at hchain
  omega

/-! ### Numbers that are not 0 -/

/-- What a process has found will not wrap around. -/
def Pc.Fine : Pc → Prop
  | .read _ n | .opened _ n => n % 2 ^ 16 ≠ 0xffff
  | .written _ n => 1 ≤ n
  | _ => True

structure Positive (s : State) : Prop where
  fine : ∀ p, (s.proc p).pc.Fine
  returned : ∀ sys, ∀ n ∈ s.returned sys, 1 ≤ n

theorem Positive.update (h : Positive s) {q : Proc} (hq : q.pc.Fine) :
    ∀ p', ((Function.update s.proc p q) p').pc.Fine := by
  intro p'
  by_cases heq : p' = p
  · rw [heq, Function.update_self]
    exact hq
  · rw [Function.update_of_ne heq]
    exact h.fine p'

theorem positive_step (h : Positive s) {a : Act} (hlast : NotLast s p a)
    (hstep : step Myname s p a = some s') : Positive s' := by
  cases a with
  | gename pre sys grade =>
    cases hpc : (s.proc p).pc <;> simp only [step, hpc, reduceCtorEq, Option.some.injEq] at hstep
    refine hstep ▸ ⟨?_, ?_⟩
    · unfold State.gename
      dsimp only
      split
      · exact h.update (by rw [named_pc]; trivial)
      · refine h.update ?_
        dsimp only
        split_ifs <;> trivial
    · unfold State.gename
      dsimp only
      split <;> exact h.returned
  | mklock =>
    cases hpc : (s.proc p).pc <;> simp only [step, hpc, reduceCtorEq] at hstep
    split_ifs at hstep with hfree hi
    · exact Option.some.inj hstep ▸ ⟨h.update trivial, h.returned⟩
    · exact Option.some.inj hstep ▸ ⟨h.update trivial, h.returned⟩
    · exact Option.some.inj hstep ▸ ⟨h.update trivial, h.returned⟩
  | read rand =>
    cases hpc : (s.proc p).pc <;> simp only [step, hpc, reduceCtorEq, Option.some.injEq] at hstep
    exact hstep ▸ ⟨h.update (hlast _ hpc), h.returned⟩
  | «open» =>
    cases hpc : (s.proc p).pc <;> simp only [step, hpc, reduceCtorEq, Option.some.injEq] at hstep
    exact hstep ▸ ⟨h.update (hpc ▸ h.fine p : Pc.Fine (.read _ _)), h.returned⟩
  | write =>
    cases hpc : (s.proc p).pc <;> simp only [step, hpc, reduceCtorEq, Option.some.injEq] at hstep
    rename_i r n
    have hn : n % 2 ^ 16 ≠ 0xffff := (hpc ▸ h.fine p : Pc.Fine (.opened r n))
    have hpos : 1 ≤ (n + 1) % 2 ^ 16 := by omega
    exact hstep ▸ ⟨h.update hpos, h.returned⟩
  | rmlock rand =>
    cases hpc : (s.proc p).pc <;> simp only [step, hpc, reduceCtorEq, Option.some.injEq] at hstep
    rename_i r n
    refine hstep ▸ ⟨h.update (by rw [named_pc]; trivial), fun sys' m hm => ?_⟩
    change m ∈ Function.update s.returned r.sys (n :: s.returned r.sys) sys' at hm
    by_cases hs : sys' = r.sys
    · subst hs
      rw [Function.update_self] at hm
      rcases List.mem_cons.mp hm with rfl | hm
      · exact (hpc ▸ h.fine p : Pc.Fine (.written r m))
      · exact h.returned r.sys m hm
    · rw [Function.update_of_ne hs] at hm
      exact h.returned sys' m hm

/-! ### The names of data files -/

/-- What a data file has been named after. -/
structure Record where
  pre : UInt8
  sys : Str
  job : ℕ
  index : ℕ
  subjob : ℕ

def Record.name (r : Record) : Str := dataName r.pre r.sys r.job r.subjob

/-- The counter of an entry has been advanced once for each of its records at most as often as there
are newer records. -/
structure Kept (q : Proc) (rs : List Record) : Prop where
  datas : q.datas = rs.map Record.name
  entry : ∀ i (r : Record), rs[i]? = some r → ∃ e : Entry, q.syslst[r.index]? = some e ∧
    r.sys.take 5 = e.sys.take 5 ∧ r.job = e.job ∧ r.subjob ≤ e.subjob ∧ e.subjob ≤ r.subjob + i
  nodup : rs.length < 4096 → (rs.map fun r => (r.index, r.subjob % 2 ^ 12)).Nodup

theorem Kept.append {q : Proc} {rs : List Record} (h : Kept q rs) (e : Entry) :
    Kept { q with syslst := q.syslst ++ [e] } rs := by
  refine ⟨h.datas, fun i r hr => ?_, h.nodup⟩
  obtain ⟨e', he', hrest⟩ := h.entry i r hr
  refine ⟨e', ?_, hrest⟩
  rw [List.getElem?_append_left (List.getElem?_eq_some_iff.mp he').1, he']

theorem Kept.named {q : Proc} {rs : List Record} (h : Kept q rs) {r : Request} {n : ℕ} {e : Entry}
    (he : q.syslst[n]? = some e) (hsys : e.sys.take 5 = r.sys.take 5) :
    ∃ rs', Kept (q.named r n e) rs' := by
  rw [Proc.named]
  split_ifs
  · exact ⟨rs, h.datas, h.entry, h.nodup⟩
  obtain ⟨new, hnew⟩ : ∃ new : Record, new = ⟨r.pre, r.sys, e.job, n, e.subjob + 1⟩ := ⟨_, rfl⟩
  have hn := (List.getElem?_eq_some_iff.mp he).1
  refine ⟨new :: rs, ?_, ?_, ?_⟩
  · rw [List.map_cons, ← h.datas, hnew]
    rfl
  · intro i x hx
    cases i with
    | zero =>
      obtain rfl : new = x := Option.some.inj hx
      refine ⟨_, by rw [hnew]; exact List.getElem?_set_self hn, ?_⟩
      rw [hnew]
      exact ⟨hsys.symm, rfl, le_rfl, le_rfl⟩
    | succ i =>
      obtain ⟨e', he', hpre, hjob, hle, hge⟩ := h.entry i x hx
      by_cases hindex : x.index = n
      · obtain rfl : e = e' := Option.some.inj (he.symm.trans (hindex ▸ he'))
        refine ⟨{ e with subjob := e.subjob + 1 }, by rw [hindex]; exact List.getElem?_set_self hn,
          hpre, hjob, ?_, ?_⟩
        · exact Nat.le_succ_of_le hle
        · change e.subjob + 1 ≤ _
          omega
      · exact ⟨e', by rw [List.getElem?_set_ne (Ne.symm hindex), he'], hpre, hjob, hle, by omega⟩
  · intro hlen
    rw [List.length_cons] at hlen
    rw [List.map_cons, List.nodup_cons]
    refine ⟨fun hmem => ?_, h.nodup (by omega)⟩
    obtain ⟨x, hx, heq⟩ := List.mem_map.mp hmem
    obtain ⟨i, hi, rfl⟩ := List.getElem_of_mem hx
    obtain ⟨e', he', -, -, hle, hge⟩ := h.entry i _ (List.getElem?_eq_getElem hi)
    rw [hnew, Prod.mk.injEq] at heq
    obtain ⟨hindex, hsub⟩ := heq
    change rs[i].index = n at hindex
    rw [hindex] at he'
    obtain rfl : e = e' := Option.some.inj (he.symm.trans he')
    change rs[i].subjob % 2 ^ 12 = (e.subjob + 1) % 2 ^ 12 at hsub
    omega

/-- Two names are the same only if they stand for the same counter of the same entry. -/
theorem Kept.datas_nodup {q : Proc} {rs : List Record} (h : Kept q rs)
    (hsys : (q.syslst.map fun e => e.sys.take 5).Nodup) (hlen : q.datas.length < 4096) :
    q.datas.Nodup := by
  rw [h.datas, List.length_map] at hlen
  have hnodup := h.nodup hlen
  rw [h.datas, List.nodup_iff_pairwise_ne, List.pairwise_map]
  rw [List.nodup_iff_pairwise_ne, List.pairwise_map] at hnodup
  refine hnodup.imp_of_mem fun {a b} ha hb hne heq => hne ?_
  obtain ⟨i, hi, rfl⟩ := List.getElem_of_mem ha
  obtain ⟨j, hj, rfl⟩ := List.getElem_of_mem hb
  obtain ⟨e, he, hpre, -⟩ := h.entry i _ (List.getElem?_eq_getElem hi)
  obtain ⟨e', he', hpre', -⟩ := h.entry j _ (List.getElem?_eq_getElem hj)
  obtain ⟨hfront, hsub⟩ := List.append_inj' heq (by rw [length_hex, length_hex])
  obtain ⟨hfront, -⟩ := List.append_inj' hfront (by rw [length_hex, length_hex])
  have htake : e.sys.take 5 = e'.sys.take 5 := by
    rw [← hpre, ← hpre']
    exact (List.append_inj hfront rfl).2
  have hindex : rs[i].index = rs[j].index := by
    obtain ⟨h1, rfl⟩ := List.getElem?_eq_some_iff.mp he
    obtain ⟨h2, rfl⟩ := List.getElem?_eq_some_iff.mp he'
    rw [← List.length_map (f := fun e : Entry => e.sys.take 5)] at h1 h2
    exact (@List.Nodup.getElem_inj_iff _ _ hsys _ h1 _ h2).mp (by simpa using htake)
  have hmod := hex_inj hsub
  rw [hindex, Prod.mk.injEq]
  exact ⟨rfl, by omega⟩

/-- The list of records of each process. -/
def Recorded (s : State) : Prop := ∀ p, ∃ rs, Kept (s.proc p) rs

theorem Recorded.setProc (h : Recorded s) {q : Proc} (hq : ∃ rs, Kept q rs) :
    ∀ p', ∃ rs, Kept ((Function.update s.proc p q) p') rs := by
  intro p'
  by_cases heq : p' = p
  · rw [heq, Function.update_self]
    exact hq
  · rw [Function.update_of_ne heq]
    exact h p'

/-- A step that changes nothing but where the process is. -/
theorem Recorded.setPc (h : Recorded s) (pc : Pc) :
    ∀ p', ∃ rs, Kept ((Function.update s.proc p { s.proc p with pc := pc }) p') rs := by
  obtain ⟨rs, hrs⟩ := h p
  exact h.setProc ⟨rs, hrs.datas, hrs.entry, hrs.nodup⟩

theorem take_five {sys sys' : Str} (h : sys.take MAXBASENAME = sys'.take MAXBASENAME) :
    sys.take 5 = sys'.take 5 := by
  have := congrArg (List.take 5) h
  simpa [List.take_take, MAXBASENAME] using this

theorem recorded_step (h : Recorded s) {a : Act} (hstep : step Myname s p a = some s') :
    Recorded s' := by
  cases a with
  | gename pre sys grade =>
    cases hpc : (s.proc p).pc <;> simp only [step, hpc, reduceCtorEq, Option.some.injEq] at hstep
    obtain ⟨rs, hrs⟩ := h p
    refine hstep ▸ ?_
    unfold State.gename
    dsimp only
    split
    · rename_i e he
      obtain ⟨hn, hget⟩ := List.getElem?_eq_some_iff.mp he
      have hmatch := List.findIdx_getElem (w := hn)
      rw [hget] at hmatch
      exact h.setProc (hrs.named he (take_five (of_decide_eq_true hmatch)))
    · exact h.setPc _
  | mklock =>
    cases hpc : (s.proc p).pc <;> simp only [step, hpc, reduceCtorEq] at hstep
    split_ifs at hstep
    · exact Option.some.inj hstep ▸ h.setPc _
    · exact Option.some.inj hstep ▸ h.setPc _
    · exact Option.some.inj hstep ▸ h.setPc _
  | read rand =>
    cases hpc : (s.proc p).pc <;> simp only [step, hpc, reduceCtorEq, Option.some.injEq] at hstep
    exact hstep ▸ h.setPc _
  | «open» =>
    cases hpc : (s.proc p).pc <;> simp only [step, hpc, reduceCtorEq, Option.some.injEq] at hstep
    exact hstep ▸ h.setPc _
  | write =>
    cases hpc : (s.proc p).pc <;> simp only [step, hpc, reduceCtorEq, Option.some.injEq] at hstep
    exact hstep ▸ h.setPc _
  | rmlock rand =>
    cases hpc : (s.proc p).pc <;> simp only [step, hpc, reduceCtorEq, Option.some.injEq] at hstep
    rename_i r n
    obtain ⟨rs, hrs⟩ := h p
    have happend := hrs.append ⟨r.sys, n, rand % 2 ^ 12⟩
    exact hstep ▸ h.setProc (happend.named (List.getElem?_concat_length) rfl)

/-! ### Every run -/

variable {s₀ : State}

/-- Whatever the processes do, the numbers and the names of data files do not come twice. -/
theorem runs_distinct {C : State → ℕ → Act → Prop} (h₀ : s₀.Initial) (h : Runs Myname C s₀ s) :
    Distinct s ∧ Named s := by
  have hinv : Inv s ∧ Recorded s := by
    induction h with
    | start =>
      refine ⟨inv_initial h₀, fun p => ⟨[], ?_⟩⟩
      rw [h₀.1 p]
      exact ⟨rfl, fun _ _ h => (by cases h), fun _ => List.nodup_nil⟩
    | step _ _ hstep ih => exact ⟨inv_step ih.1 hstep, recorded_step ih.2 hstep⟩
  refine ⟨hinv.1.distinct, fun p hsys hlen => ?_⟩
  obtain ⟨rs, hrs⟩ := hinv.2 p
  exact hrs.datas_nodup hsys hlen

/-- As long as no sequence file is read that holds `ffff`, every number is from 1 to `0xffff` too. -/
theorem runs_numbered (h₀ : s₀.Initial) (h : Runs Myname NotLast s₀ s) :
    Numbered s ∧ Distinct s ∧ Named s := by
  have hpos : Inv s ∧ Positive s := by
    induction h with
    | start =>
      refine ⟨inv_initial h₀, fun p => ?_, fun sys n hn => ?_⟩
      · rw [h₀.1 p]
        trivial
      · rw [h₀.2] at hn
        cases hn
    | step _ hlast hstep ih => exact ⟨inv_step ih.1 hstep, positive_step ih.2 hlast hstep⟩
  refine ⟨fun sys n hn => ⟨hpos.2.returned sys n hn, ?_⟩, runs_distinct h₀ h⟩
  have := hpos.1.small sys n hn
  omega

/-- Nobody has called `gename`, and each sequence file holds the given text. -/
def fresh (text : Str) : State where
  file := fun _ => some text
  lock := fun _ => none
  proc := fun _ => ⟨.idle, [], [], []⟩
  returned := fun _ => []

/-- A process asks for the name of a data file, and gets a number for the system. -/
def asks (pre : UInt8) (sys : Str) : List Act :=
  [.gename pre sys 65, .mklock, .read 0, .open, .write, .rmlock 0]

theorem runs_of_foldlM {C : State → ℕ → Act → Prop} (hC : ∀ s p a, C s p a) (as : List Act) :
    ∀ {s s' : State}, Runs Myname C s₀ s →
      as.foldlM (fun s a => step Myname s 0 a) s = some s' → Runs Myname C s₀ s' := by
  induction as with
  | nil => intro s s' hs h; exact Option.some.inj h ▸ hs
  | cons a as ih =>
    intro s s' hs h
    rw [List.foldlM_cons] at h
    obtain ⟨t, ht, h⟩ := Option.bind_eq_some_iff.mp h
    exact ih (.step hs (hC s 0 a) ht) h

theorem runs_numbered_one : ∃ s, 8 ∈ s.returned [97] ∧ Numbered s ∧ Distinct s ∧ Named s := by
  have hread : ((((some (line 7)).bind scan).getD 0) % 2 ^ 16 ≠ 0xffff) := by decide
  have h : ∃ s, Runs [109] NotLast (fresh (line 7)) s ∧ 8 ∈ s.returned [97] := by
    refine ⟨_, .step (a := .rmlock 0) (p := 0) (.step (a := .write) (p := 0) (.step (a := .open)
      (p := 0) (.step (a := .read 0) (p := 0) (.step (a := .mklock) (p := 0)
      (.step (a := .gename 68 [97] 65) (p := 0) .start trivial rfl) trivial rfl)
      (fun r _ => hread) rfl) trivial rfl) trivial rfl) trivial rfl, ?_⟩
    decide
  obtain ⟨s, hs, h8⟩ := h
  exact ⟨s, h8, runs_numbered ⟨fun _ => rfl, fun _ => rfl⟩ hs⟩

/-- After `ffff` comes 0. -/
theorem not_numbered : ¬ ∀ s, Runs [109] (fun _ _ _ => True) (fresh (line 0xffff)) s →
    Numbered s ∧ Distinct s ∧ Named s := by
  intro h
  obtain ⟨s, hs, hzero⟩ : ∃ s, (asks 68 [97]).foldlM (fun s a => step [109] s 0 a)
      (fresh (line 0xffff)) = some s ∧ 0 ∈ s.returned [97] := ⟨_, rfl, by decide⟩
  have := (h s (runs_of_foldlM (fun _ _ _ => trivial) _ .start hs)).1 [97] 0 hzero
  omega

end Unitas.Bnu.Gename
