import Mathlib

/-! Paths of `uucp` in canonical form: `canPath`, which works in place. The memory is given from where
the path begins, and nothing outside it can be read or written. -/
namespace Unitas.Bnu.CanPath

abbrev Str := List UInt8

inductive Stop
  | outside
  | fuel
  /-- `return (FAIL)` -/
  | fail
  deriving DecidableEq, Repr

structure State where
  mem : Str
  to_ : ℕ
  fr : ℕ
  deriving DecidableEq, Repr

def read (mem : Str) (i : ℕ) : Except Stop UInt8 :=
  if h : i < mem.length then .ok mem[i] else .error .outside

def write (mem : Str) (i : ℕ) (c : UInt8) : Except Stop Str :=
  if i < mem.length then .ok (mem.set i c) else .error .outside

/-- `strncmp(fr, p, n) == SAME`, and `EQUALS(fr, p)` with the null character of `p`. -/
def same : Str → Str → Except Stop Bool
  | [], _ => .ok true
  | _ :: _, [] => .error .outside
  | c :: p, d :: fr => if d = c then same p fr else .ok false

def isDot (fr : Str) : Except Stop Bool := do
  if ← same [46, 47] fr then return true else same [46, 0] fr

def isDotDot (fr : Str) : Except Stop Bool := do
  if ← same [46, 46, 47] fr then return true else same [46, 46, 0] fr

/-- `while ((--to > path) && (to[-1] != '/'))` -/
def back (mem : Str) : ℕ → ℕ
  | 0 => 0
  | to_ + 1 => if 0 < to_ ∧ mem.getD (to_ - 1) 0 ≠ 47 then back mem to_ else to_

/-- The loop over references to self and to `..`. -/
def skip : ℕ → State → Except Stop State
  | 0, _ => .error .fuel
  | fuel + 1, s => do
    if (← read s.mem s.fr) = 47 then skip fuel { s with fr := s.fr + 1 }
    else if ← isDot (s.mem.drop s.fr) then skip fuel { s with fr := s.fr + 1 }
    else if ← isDotDot (s.mem.drop s.fr) then
      if s.to_ = 1 ∧ (← read s.mem 0) = 47 then skip fuel { s with fr := s.fr + 2 }
      else if s.to_ = 0 then .error .fail
      else skip fuel { s with fr := s.fr + 2, to_ := back s.mem s.to_ }
    else return s

/-- `while (((*to++ = *fr) != '\0') && (*fr++ != '/'))` -/
def copy : ℕ → State → Except Stop State
  | 0, _ => .error .fuel
  | fuel + 1, s => do
    let mem ← write s.mem s.to_ (← read s.mem s.fr)
    if (← read mem s.to_) = 0 then return { s with mem := mem, to_ := s.to_ + 1 }
    else if (← read mem s.fr) ≠ 47 then copy fuel ⟨mem, s.to_ + 1, s.fr + 1⟩
    else return ⟨mem, s.to_ + 1, s.fr + 1⟩

/-- The outer loop, with enough fuel `size` for the inner ones. -/
def loop (size : ℕ) : ℕ → State → Except Stop State
  | 0, _ => .error .fuel
  | fuel + 1, s => do
    let s ← skip size s
    if (← read s.mem s.fr) = 0 then return s
    else loop size fuel (← copy size s)

/-- `if (*fr == '/') *to++ = *fr++` -/
def start (mem : Str) : Except Stop State := do
  if (← read mem 0) = 47 then return ⟨← write mem 0 47, 1, 1⟩ else return ⟨mem, 0, 0⟩

/-- `if (to == path) *to++ = '.'; *to = '\0'` -/
def finish (s : State) : Except Stop Str := do
  if s.to_ = 0 then write (← write s.mem 0 46) 1 0 else write s.mem s.to_ 0

/-- `canPath`, of which there is the memory afterwards. -/
def canPath (mem : Str) : Except Stop Str := do
  finish (← loop (mem.length + 1) (mem.length + 1) (← start mem))

/-! ### Components -/

def components : Str → List Str
  | [] => [[]]
  | c :: s =>
    if c = 47 then [] :: components s
    else (components s).modifyHead (c :: ·)

/-- Components with slashes between them. -/
def join : List Str → Str
  | [] => []
  | [c] => c
  | c :: d :: cs => c ++ 47 :: join (d :: cs)

def IsName (c : Str) : Prop := c ≠ [] ∧ c ≠ [46] ∧ c ≠ [46, 46]

instance (c : Str) : Decidable (IsName c) := inferInstanceAs (Decidable (_ ∧ _ ∧ _))

def absolute (path : Str) : Bool := path.head? = some 47

/-- The path without the slash at its beginning. -/
def relative (path : Str) : Str := if absolute path then path.tail else path

/-- The names that are left, the last one first, if no reference to `..` is illegal. -/
def resolve (root : Bool) : List Str → List Str → Option (List Str)
  | names, [] => some names
  | names, c :: cs =>
    if c = [] ∨ c = [46] then resolve root names cs
    else if c = [46, 46] then
      if names = [] ∧ root = false then none else resolve root names.tail cs
    else resolve root (c :: names) cs

/-- A relative path, some prefix of whose components has more `..` than names. -/
def Excess (path : Str) : Prop :=
  absolute path = false ∧ ∃ k, ((components path).take k).countP (IsName ·) <
    ((components path).take k).count [46, 46]

/-- The text of a path: `/` or `.` if no name is left. -/
def text (root : Bool) (names : List Str) : Str :=
  if root then 47 :: join names else if names = [] then [46] else join names

/-- `r` is what is left of a path, with at most one slash after the last name. -/
def Canonical (path r : Str) : Prop :=
  ∃ names, resolve (absolute path) [] (components (relative path)) = some names ∧
    (r = text (absolute path) names.reverse ∨
      names ≠ [] ∧ r = text (absolute path) names.reverse ++ [47])

/-- The string at the beginning of the memory. -/
def string (mem : Str) : Str := mem.takeWhile (· ≠ 0)

/-- What is to come of a path that has no more memory than it fills: `FAIL` just where it must be, and
otherwise the canonical form, which is left as it is by another call. -/
def Meets (path : Str) : Prop :=
  (canPath (path ++ [0]) = .error .fail ∧ Excess path) ∨
    ∃ mem mem', canPath (path ++ [0]) = .ok mem ∧ ¬ Excess path ∧ Canonical path (string mem) ∧
      canPath mem = .ok mem' ∧ string mem' = string mem

/-! ### The memory while the path is rewritten -/

theorem read_append (l r : Str) (c : UInt8) : read (l ++ c :: r) l.length = .ok c := by
  rw [read, dif_pos (by simp)]
  simp

theorem read_of_drop {mem r : Str} {i : ℕ} {c : UInt8} (h : mem.drop i = c :: r) :
    read mem i = .ok c := by
  have hi : i < mem.length := by
    by_contra hi
    rw [List.drop_eq_nil_of_le (not_lt.mp hi)] at h
    cases h
  rw [List.drop_eq_getElem_cons hi] at h
  rw [read, dif_pos hi, (List.cons.inj h).1]

theorem write_append (l r : Str) (c d : UInt8) :
    write (l ++ c :: r) l.length d = .ok (l ++ d :: r) := by
  rw [write, if_pos (by simp)]
  simp

/-- What is written, what is left of the path behind it, and what is still to be read. -/
def at' (out gap rest : Str) : State := ⟨out ++ (gap ++ rest), out.length, out.length + gap.length⟩

theorem read_fr (out gap rest : Str) (c : UInt8) :
    read (at' out gap (c :: rest)).mem (at' out gap (c :: rest)).fr = .ok c := by
  have := read_append (out ++ gap) rest c
  simpa [at'] using this

theorem drop_fr (out gap rest : Str) :
    (at' out gap rest).mem.drop (at' out gap rest).fr = rest := by
  simp [at', List.drop_append]

theorem fr_append (out gap c rest : Str) :
    { at' out gap (c ++ rest) with fr := (at' out gap (c ++ rest)).fr + c.length } =
      at' out (gap ++ c) rest := by
  simp [at', Nat.add_assoc]

/-- The end of a component. -/
def End (e : UInt8) : Prop := e = 47 ∨ e = 0

/-- A component has no slash and no null character. -/
def Clean (c : Str) : Prop := 47 ∉ c ∧ 0 ∉ c

variable {c rest : Str} {e : UInt8}

theorem isDot_eq (fr : Str) (a b : Bool) (ha : same [46, 47] fr = .ok a)
    (hb : same [46, 0] fr = .ok b) : isDot fr = .ok (a || b) := by
  rw [isDot, ha, hb]
  cases a <;> rfl

theorem isDotDot_eq (fr : Str) (a b : Bool) (ha : same [46, 46, 47] fr = .ok a)
    (hb : same [46, 46, 0] fr = .ok b) : isDotDot fr = .ok (a || b) := by
  rw [isDotDot, ha, hb]
  cases a <;> rfl

/-- A comparison with dots and the end of a component. -/
theorem same_append (p : Str) (d : UInt8) (hp : ∀ x ∈ p, x = 46) (hd : End d) (hc : Clean c)
    (he : End e) : same (p ++ [d]) (c ++ e :: rest) = .ok (decide (c = p ∧ e = d)) := by
  have hdot : ∀ x, End x → x ≠ 46 := by rintro x (rfl | rfl) <;> decide
  induction p generalizing c with
  | nil =>
    cases c with
    | nil => by_cases h : e = d <;> simp [same, h]
    | cons a c =>
      have ha : a ≠ d := by
        rintro rfl
        rcases hd with rfl | rfl
        · exact hc.1 List.mem_cons_self
        · exact hc.2 List.mem_cons_self
      simp [same, ha]
  | cons x p ih =>
    obtain rfl := hp x List.mem_cons_self
    cases c with
    | nil => simp [same, hdot e he]
    | cons a c =>
      rw [List.cons_append, List.cons_append, same]
      by_cases ha : a = 46
      · rw [if_pos ha, ih (fun y hy => hp y (List.mem_cons_of_mem _ hy))
          ⟨fun h => hc.1 (List.mem_cons_of_mem _ h), fun h => hc.2 (List.mem_cons_of_mem _ h)⟩]
        simp [ha]
      · simp [ha]

theorem isDot_append (hc : Clean c) (he : End e) :
    isDot (c ++ e :: rest) = .ok (decide (c = [46])) := by
  rw [isDot_eq _ _ _ (same_append [46] 47 (by simp) (.inl rfl) hc he)
    (same_append [46] 0 (by simp) (.inr rfl) hc he)]
  rcases he with rfl | rfl <;> simp

theorem isDotDot_append (hc : Clean c) (he : End e) :
    isDotDot (c ++ e :: rest) = .ok (decide (c = [46, 46])) := by
  rw [isDotDot_eq _ _ _ (same_append [46, 46] 47 (by simp) (.inl rfl) hc he)
    (same_append [46, 46] 0 (by simp) (.inr rfl) hc he)]
  rcases he with rfl | rfl <;> simp

theorem skip_slash (k : ℕ) (out gap rest : Str) :
    skip (k + 1) (at' out gap (47 :: rest)) = skip k (at' out (gap ++ [47]) rest) := by
  rw [skip, read_fr]
  exact congrArg (skip k) (fr_append out gap [47] rest)

theorem skip_succ (k : ℕ) (out gap : Str) (hc : Clean c) (he : End e) (hslash : c = [] → e = 0) :
    skip (k + 1) (at' out gap (c ++ e :: rest)) =
      if c = [46] then skip k (at' out (gap ++ [46]) (e :: rest))
      else if c = [46, 46] then do
        if out.length = 1 ∧ (← read (out ++ (gap ++ (c ++ e :: rest))) 0) = 47 then
          skip k (at' out (gap ++ [46, 46]) (e :: rest))
        else if out.length = 0 then .error .fail
        else skip k { at' out (gap ++ [46, 46]) (e :: rest) with
          to_ := back (out ++ (gap ++ (c ++ e :: rest))) out.length }
      else .ok (at' out gap (c ++ e :: rest)) := by
  obtain ⟨a, s, hs, ha⟩ : ∃ a s, c ++ e :: rest = a :: s ∧ a ≠ 47 := by
    cases c with
    | nil => exact ⟨e, rest, rfl, by rw [hslash rfl]; decide⟩
    | cons a c => exact ⟨a, c ++ e :: rest, rfl, fun h => hc.1 (h ▸ List.mem_cons_self)⟩
  have hread : read (at' out gap (c ++ e :: rest)).mem (at' out gap (c ++ e :: rest)).fr = .ok a := by
    rw [hs]
    exact read_fr out gap s a
  rw [skip, hread, drop_fr, isDot_append hc he, isDotDot_append hc he]
  simp only [bind, Except.bind, if_neg ha, decide_eq_true_eq]
  by_cases h1 : c = [46]
  · rw [if_pos h1, if_pos h1, h1]
    exact congrArg (skip k) (fr_append out gap [46] (e :: rest))
  · rw [if_neg h1, if_neg h1]
    by_cases h2 : c = [46, 46]
    · rw [if_pos h2, if_pos h2]
      subst h2
      rw [← fr_append out gap [46, 46] (e :: rest)]
      rfl
    · rw [if_neg h2, if_neg h2]
      rfl

theorem clean_dots : Clean [46, 46] := ⟨by decide, by decide⟩

theorem skip_root (k : ℕ) (gap : Str) (he : End e) :
    skip (k + 1) (at' [47] gap ([46, 46] ++ e :: rest)) =
      skip k (at' [47] (gap ++ [46, 46]) (e :: rest)) := by
  rw [skip_succ k [47] gap clean_dots he (by simp), if_neg (by decide), if_pos rfl]
  rfl

theorem skip_fail (k : ℕ) (gap : Str) (he : End e) :
    skip (k + 1) (at' [] gap ([46, 46] ++ e :: rest)) = .error .fail := by
  rw [skip_succ k [] gap clean_dots he (by simp), if_neg (by decide), if_pos rfl]
  have hread : ∃ a, read ([] ++ (gap ++ ([46, 46] ++ e :: rest))) 0 = .ok a := by
    rw [read, dif_pos (by simp)]
    exact ⟨_, rfl⟩
  obtain ⟨a, ha⟩ := hread
  rw [ha]
  rfl

/-- What has been written ends in a slash if it is not empty. -/
def Ended (out : Str) : Prop := out = [] ∨ ∃ o, out = o ++ [47]

theorem back_append (out : Str) (hout : Ended out) (n : Str) (hn : 47 ∉ n) (rest : Str) :
    back (out ++ (n ++ rest)) (out.length + n.length + 1) = out.length := by
  induction n using List.reverseRecOn generalizing rest with
  | nil =>
    rw [back]
    rcases hout with rfl | ⟨o, rfl⟩
    · rfl
    · rw [if_neg]
      · simp
      · simp
  | append_singleton n a ih =>
    rw [List.mem_append, not_or] at hn
    have ha : a ≠ 47 := fun h => hn.2 (by simp [h])
    have hget : (out ++ (n ++ [a] ++ rest)).getD (out.length + (n ++ [a]).length - 1) 0 = a := by
      simp [List.getD_eq_getElem?_getD]
    rw [back, if_pos ⟨by simp, by rwa [hget]⟩]
    have := ih hn.1 ([a] ++ rest)
    simpa [Nat.add_assoc] using this

theorem skip_back (k : ℕ) (gap : Str) {out n : Str} (hout : Ended out) (hn : 47 ∉ n) (hne : n ≠ [])
    (he : End e) :
    skip (k + 1) (at' (out ++ n ++ [47]) gap ([46, 46] ++ e :: rest)) =
      skip k (at' out (n ++ [47] ++ gap ++ [46, 46]) (e :: rest)) := by
  have hpos : 0 < n.length := List.length_pos_iff.mpr hne
  rw [skip_succ k _ gap clean_dots he (by simp), if_neg (by decide), if_pos rfl]
  have hread : ∃ a, read (out ++ n ++ [47] ++ (gap ++ ([46, 46] ++ e :: rest))) 0 = .ok a := by
    rw [read, dif_pos (by simp)]
    exact ⟨_, rfl⟩
  obtain ⟨a, ha⟩ := hread
  have hlen : (out ++ n ++ [47]).length = out.length + n.length + 1 := by simp [Nat.add_assoc]
  have hback := back_append out hout n hn ([47] ++ (gap ++ ([46, 46] ++ e :: rest)))
  rw [ha]
  simp only [bind, Except.bind, hlen]
  rw [if_neg (by omega), if_neg (by omega)]
  congr 1
  simp only [at', List.append_assoc] at hback ⊢
  rw [hback]
  simp
  omega

theorem copy_step (k : ℕ) (out gap : Str) (a : UInt8) (rest : Str) :
    ∃ gap', gap'.length = gap.length ∧
      (out ++ a :: (gap' ++ rest)).drop (out.length + gap.length) = a :: rest ∧
      copy (k + 1) (at' out gap (a :: rest)) =
      if a = 0 then .ok ⟨out ++ 0 :: (gap' ++ rest), out.length + 1, out.length + gap.length⟩
      else if a = 47 then .ok (at' (out ++ [a]) gap' rest) else copy k (at' (out ++ [a]) gap' rest) := by
  obtain ⟨x, gap', hgap, hlen, hdrop⟩ : ∃ x gap', gap ++ a :: rest = x :: (gap' ++ rest) ∧
      gap'.length = gap.length ∧
      (out ++ a :: (gap' ++ rest)).drop (out.length + gap.length) = a :: rest := by
    cases gap with
    | nil => exact ⟨a, [], rfl, rfl, by simp⟩
    | cons x gap =>
      refine ⟨x, gap ++ [a], by simp, by simp, ?_⟩
      simp
  refine ⟨gap', hlen, hdrop, ?_⟩
  have hmem : (at' out gap (a :: rest)).mem = out ++ x :: (gap' ++ rest) := congrArg (out ++ ·) hgap
  have hfr := read_of_drop hdrop
  rw [copy, read_fr]
  simp only [bind, Except.bind]
  rw [hmem, show (at' out gap (a :: rest)).to_ = out.length from rfl, write_append]
  simp only [read_append]
  by_cases h0 : a = 0
  · rw [if_pos h0, if_pos h0, h0]
    rfl
  · rw [if_neg h0, if_neg h0, show (at' out gap (a :: rest)).fr = out.length + gap.length from rfl, hfr]
    have hnext : (⟨out ++ a :: (gap' ++ rest), out.length + 1, out.length + gap.length + 1⟩ : State) =
        at' (out ++ [a]) gap' rest := by
      simp [at', hlen]
      omega
    by_cases h47 : a = 47
    · rw [if_pos h47, ← hnext]
      simp [h47]
      rfl
    · rw [if_neg h47, ← hnext]
      simp [h47]

theorem clean_of_cons {a : UInt8} (hc : Clean (a :: c)) : a ≠ 0 ∧ a ≠ 47 ∧ Clean c :=
  ⟨fun h => hc.2 (h ▸ List.mem_cons_self), fun h => hc.1 (h ▸ List.mem_cons_self),
    fun h => hc.1 (List.mem_cons_of_mem _ h), fun h => hc.2 (List.mem_cons_of_mem _ h)⟩

theorem copy_slash (hc : Clean c) : ∀ {k : ℕ} (out gap : Str), c.length < k →
    ∃ gap', gap'.length = gap.length ∧
      copy k (at' out gap (c ++ 47 :: rest)) = .ok (at' (out ++ c ++ [47]) gap' rest) := by
  induction c with
  | nil =>
    intro k out gap hk
    obtain ⟨k, rfl⟩ : ∃ j, k = j + 1 := ⟨k - 1, by simp at hk; omega⟩
    obtain ⟨gap', hlen, -, hcopy⟩ := copy_step k out gap 47 rest
    exact ⟨gap', hlen, by simp [hcopy]⟩
  | cons a c ih =>
    intro k out gap hk
    obtain ⟨k, rfl⟩ : ∃ j, k = j + 1 := ⟨k - 1, by simp at hk; omega⟩
    obtain ⟨h0, h47, hc⟩ := clean_of_cons hc
    obtain ⟨gap', hlen, -, hcopy⟩ := copy_step k out gap a (c ++ 47 :: rest)
    obtain ⟨gap'', hlen', hcopy'⟩ := ih hc (out ++ [a]) gap' (by simpa using hk)
    refine ⟨gap'', hlen'.trans hlen, ?_⟩
    rw [List.cons_append, hcopy, if_neg h0, if_neg h47, hcopy']
    simp

theorem copy_end (hc : Clean c) : ∀ {k : ℕ} (out gap : Str), c.length < k →
    ∃ gap' s, gap'.length = gap.length ∧ copy k (at' out gap (c ++ 0 :: rest)) = .ok s ∧
      s.mem = out ++ c ++ 0 :: (gap' ++ rest) ∧ s.to_ = (out ++ c).length + 1 ∧
      s.mem.drop s.fr = 0 :: rest := by
  induction c with
  | nil =>
    intro k out gap hk
    obtain ⟨k, rfl⟩ : ∃ j, k = j + 1 := ⟨k - 1, by simp at hk; omega⟩
    obtain ⟨gap', hlen, hdrop, hcopy⟩ := copy_step k out gap 0 rest
    exact ⟨gap', _, hlen, hcopy, by simp, by simp, hdrop⟩
  | cons a c ih =>
    intro k out gap hk
    obtain ⟨k, rfl⟩ : ∃ j, k = j + 1 := ⟨k - 1, by simp at hk; omega⟩
    obtain ⟨h0, h47, hc⟩ := clean_of_cons hc
    obtain ⟨gap', hlen, -, hcopy⟩ := copy_step k out gap a (c ++ 0 :: rest)
    obtain ⟨gap'', s, hlen', hcopy', hmem, hto, hdrop⟩ := ih hc (out ++ [a]) gap' (by simpa using hk)
    refine ⟨gap'', s, hlen'.trans hlen, ?_, by simpa using hmem, by simpa using hto, hdrop⟩
    rw [List.cons_append, hcopy, if_neg h0, if_neg h47, hcopy']

/-! ### The loop -/

/-- The names with a slash after each. -/
def written (root : Bool) (names : List Str) : Str :=
  (if root then [47] else []) ++ names.reverse.flatMap (· ++ [47])

theorem written_cons (root : Bool) (n : Str) (names : List Str) :
    written root (n :: names) = written root names ++ n ++ [47] := by
  simp [written]

theorem ended_written (root : Bool) (names : List Str) : Ended (written root names) := by
  cases names with
  | nil => cases root
           · exact .inl rfl
           · exact .inr ⟨[], rfl⟩
  | cons n names => exact .inr ⟨_, written_cons root n names⟩

/-- The loop after `skip`. -/
def rest' (size n : ℕ) (s : State) : Except Stop State := do
  if (← read s.mem s.fr) = 0 then return s else loop size n (← copy size s)

theorem skip_end (k : ℕ) {s : State} (h : s.mem.drop s.fr = 0 :: rest) : skip (k + 1) s = .ok s := by
  have hdot : isDot (0 :: rest) = .ok false := rfl
  have hdots : isDotDot (0 :: rest) = .ok false := rfl
  rw [skip, read_of_drop h, h, hdot, hdots]
  rfl

/-- How the loop ends. In the memory behind a last name there is nothing just if no component has been
dropped and nothing was there before. -/
def Ends (root : Bool) (cs names : List Str) (gap rest : Str) (x : Except Stop State) : Prop :=
  match resolve root names cs with
  | none => x = .error .fail
  | some names' => ∃ s tail, x = .ok s ∧ s.to_ = (written root names').length ∧
      s.mem.length = (written root names).length + gap.length + (join cs).length + 1 + rest.length ∧
      if IsName (cs.getLastD []) then
        s.mem = (written root names').dropLast ++ 0 :: tail ∧
          (tail = [] ↔ gap = [] ∧ rest = [] ∧ ∀ c ∈ cs, IsName c)
      else s.mem = written root names' ++ tail ∧ tail ≠ []

theorem ends_nil (size n k : ℕ) (root : Bool) (names : List Str) (gap : Str) :
    Ends root [[]] names gap rest
      (skip (k + 1) (at' (written root names) gap (0 :: rest)) >>= rest' size n) := by
  rw [skip_end k (drop_fr _ _ _)]
  refine ⟨at' (written root names) gap (0 :: rest), gap ++ 0 :: rest, ?_, rfl, ?_, ?_⟩
  · simp only [bind, Except.bind, rest', read_fr]
    rfl
  · simp [at', join]
    omega
  · rw [if_neg (by decide)]
    exact ⟨rfl, by simp⟩

/-- After a component has been dropped, something lies between what is written and what is read. -/
theorem Ends.weaken {root : Bool} {cs cs' names names' : List Str} {gap gap' : Str}
    {x : Except Stop State} (h : Ends root cs' names' gap' rest x)
    (hres : resolve root names cs = resolve root names' cs') (hgap : gap' ≠ [])
    (hlen : (written root names').length + gap'.length + (join cs').length =
      (written root names).length + gap.length + (join cs).length)
    (hlast : IsName (cs'.getLastD []) ↔ IsName (cs.getLastD [])) (hbad : ¬ ∀ c ∈ cs, IsName c) :
    Ends root cs names gap rest x := by
  unfold Ends at h ⊢
  rw [hres]
  cases hnames : resolve root names' cs' with
  | none => rwa [hnames] at h
  | some left =>
    rw [hnames] at h
    obtain ⟨s, tail, hx, hto, hmem, hs⟩ := h
    refine ⟨s, tail, hx, hto, by omega, ?_⟩
    by_cases hname : IsName (cs'.getLastD [])
    · rw [if_pos hname] at hs
      rw [if_pos (hlast.mp hname)]
      exact ⟨hs.1, iff_of_false (fun h => hgap (hs.2.mp h).1) fun h => hbad h.2.2⟩
    · rw [if_neg hname] at hs
      rwa [if_neg fun h => hname (hlast.mpr h)]

/-- The names that a run can have written. -/
def Names (names : List Str) : Prop := ∀ n ∈ names, n ≠ [] ∧ 47 ∉ n

theorem skip_dots {root : Bool} {names : List Str} (hnames : Names names)
    (h : ¬ (names = [] ∧ root = false)) (k : ℕ) (gap : Str) (he : End e) :
    ∃ gap', gap' ≠ [] ∧ (written root names.tail).length + gap'.length =
        (written root names).length + gap.length + 2 ∧
      skip (k + 1) (at' (written root names) gap ([46, 46] ++ e :: rest)) =
        skip k (at' (written root names.tail) gap' (e :: rest)) := by
  cases names with
  | nil =>
    obtain rfl : root = true := by simpa using h
    exact ⟨gap ++ [46, 46], by simp, by simp; omega, skip_root k gap he⟩
  | cons n names =>
    obtain ⟨hne, hn⟩ := hnames n List.mem_cons_self
    refine ⟨n ++ [47] ++ gap ++ [46, 46], by simp, ?_, ?_⟩
    · simp [written_cons]
      omega
    · rw [written_cons]
      exact skip_back k gap (ended_written root names) hn hne he

theorem resolve_drop {root : Bool} (names : List Str) (hc : c = [] ∨ c = [46]) (cs : List Str) :
    resolve root names (c :: cs) = resolve root names cs := by rw [resolve, if_pos hc]

theorem resolve_dots {root : Bool} {names : List Str} (h : ¬ (names = [] ∧ root = false))
    (cs : List Str) : resolve root names ([46, 46] :: cs) = resolve root names.tail cs := by
  rw [resolve, if_neg (by decide), if_pos rfl, if_neg h]

theorem resolve_name {root : Bool} (names : List Str) (hc : IsName c) (cs : List Str) :
    resolve root names (c :: cs) = resolve root (c :: names) cs := by
  rw [resolve, if_neg (not_or.mpr ⟨hc.1, hc.2.1⟩), if_neg hc.2.2]

theorem skip_name (k : ℕ) (out gap : Str) (hc : Clean c) (he : End e) (hname : IsName c) :
    skip (k + 1) (at' out gap (c ++ e :: rest)) = .ok (at' out gap (c ++ e :: rest)) := by
  rw [skip_succ k out gap hc he fun h => absurd h hname.1, if_neg hname.2.1, if_neg hname.2.2]

theorem rest_name (size n : ℕ) (out gap : Str) (hc : Clean c) (hname : IsName c) :
    rest' size n (at' out gap (c ++ e :: rest)) =
      copy size (at' out gap (c ++ e :: rest)) >>= loop size n := by
  cases c with
  | nil => exact absurd rfl hname.1
  | cons a c =>
    obtain ⟨h0, -⟩ := clean_of_cons hc
    rw [List.cons_append, rest', read_fr]
    exact if_neg h0

/-- The last component. -/
theorem ends_last (root : Bool) {names : List Str} (hnames : Names names) (hc : Clean c)
    (gap : Str) {size n k : ℕ} (hk : c.length < k) (hsize : k ≤ size) (hn : c.length ≤ n) :
    Ends root [c] names gap rest
      (skip k (at' (written root names) gap (c ++ 0 :: rest)) >>= rest' size n) := by
  obtain ⟨k, rfl⟩ : ∃ j, k = j + 1 := ⟨k - 1, by omega⟩
  have hnil : ¬ IsName [] := by decide
  by_cases hname : IsName c
  · have hpos : 0 < c.length := List.length_pos_iff.mpr hname.1
    obtain ⟨n, rfl⟩ : ∃ j, n = j + 1 := ⟨n - 1, by omega⟩
    obtain ⟨size, rfl⟩ : ∃ j, size = j + 1 := ⟨size - 1, by omega⟩
    obtain ⟨gap', s, hlen, hcopy, hmem, hto, hdrop⟩ :=
      @copy_end c rest hc (size + 1) (written root names) gap (by omega)
    rw [skip_name k _ gap hc (.inr rfl) hname]
    simp only [bind, Except.bind]
    rw [rest_name _ _ _ gap hc hname, hcopy]
    simp only [bind, Except.bind]
    have hres : resolve root names [c] = some (c :: names) := resolve_name names hname []
    rw [Ends, hres]
    refine ⟨s, gap' ++ rest, ?_, ?_, ?_, ?_⟩
    · rw [loop, skip_end size hdrop]
      simp only [bind, Except.bind]
      rw [read_of_drop hdrop]
      rfl
    · simp [hto, written_cons, Nat.add_assoc]
    · simp [hmem, join, hlen]
      omega
    · rw [if_pos (show IsName (([c] : List Str).getLastD []) from hname)]
      refine ⟨by rw [hmem, written_cons, List.dropLast_concat], ?_⟩
      have hgap : gap' = [] ↔ gap = [] := by rw [← List.length_eq_zero_iff, hlen, List.length_eq_zero_iff]
      simp [hgap, hname]
  · have hend : ¬ IsName (([c] : List Str).getLastD []) := hname
    by_cases h0 : c = []
    · subst h0
      exact ends_nil size n k root names gap
    obtain ⟨k, rfl⟩ : ∃ j, k = j + 1 := ⟨k - 1, by
      have := List.length_pos_iff.mpr h0
      omega⟩
    by_cases h1 : c = [46]
    · subst h1
      rw [skip_succ _ _ gap hc (.inr rfl) (by simp), if_pos rfl]
      refine (ends_nil size n k root names (gap ++ [46])).weaken ?_ (by simp) ?_
        (iff_of_false hnil hname) fun h => hname (h _ (by simp))
      · rw [resolve_drop names (.inr rfl), resolve_drop names (.inl rfl)]
      · simp [join]
        omega
    · obtain rfl : c = [46, 46] := by
        by_contra h2
        exact hname ⟨h0, h1, h2⟩
      by_cases hfail : names = [] ∧ root = false
      · obtain ⟨rfl, rfl⟩ := hfail
        rw [show written false [] = [] from rfl, skip_fail (k + 1) gap (.inr rfl)]
        rfl
      · obtain ⟨gap', hne, hlen, hskip⟩ := skip_dots hnames hfail (k + 1) gap (.inr rfl)
        rw [hskip]
        refine (ends_nil size n k root names.tail gap').weaken ?_ hne ?_
          (iff_of_false hnil hname) fun h => hname (h _ (by simp))
        · rw [resolve_dots hfail, resolve_drop _ (.inl rfl)]
        · simp [join]
          omega

theorem ends_loop (root : Bool) (size : ℕ) {cs : List Str} (hne : cs ≠ []) (hcs : ∀ c ∈ cs, Clean c) :
    ∀ {names : List Str} (gap : Str) {k n : ℕ}, Names names → (join cs).length < k → k ≤ size →
      (join cs).length ≤ n → Ends root cs names gap rest
        (skip k (at' (written root names) gap (join cs ++ 0 :: rest)) >>= rest' size n) := by
  induction cs with
  | nil => exact absurd rfl hne
  | cons c cs ih =>
    intro names gap k n hnames hk hsize hn
    have hc := hcs c List.mem_cons_self
    cases cs with
    | nil => exact ends_last root hnames hc gap hk hsize hn
    | cons d cs =>
      have ih := @ih (by simp) fun x hx => hcs x (List.mem_cons_of_mem _ hx)
      have hjoin : join (c :: d :: cs) ++ 0 :: rest = c ++ 47 :: (join (d :: cs) ++ 0 :: rest) := by
        simp [join]
      have hlen : (join (c :: d :: cs)).length = c.length + 1 + (join (d :: cs)).length := by
        simp [join]
        omega
      have hlast : IsName ((d :: cs).getLastD []) ↔ IsName ((c :: d :: cs).getLastD []) := by
        simp
      obtain ⟨k, rfl⟩ : ∃ j, k = j + 1 := ⟨k - 1, by omega⟩
      rw [hjoin]
      by_cases hname : IsName c
      · have hpos : 0 < c.length := List.length_pos_iff.mpr hname.1
        obtain ⟨n, rfl⟩ : ∃ j, n = j + 1 := ⟨n - 1, by omega⟩
        obtain ⟨gap', hgap, hcopy⟩ := @copy_slash c (join (d :: cs) ++ 0 :: rest) hc size
          (written root names) gap (by omega)
        rw [skip_name k _ gap hc (.inl rfl) hname]
        simp only [bind, Except.bind]
        rw [rest_name _ _ _ gap hc hname, hcopy, ← written_cons]
        have hrun := @ih (c :: names) gap' size n
          (List.forall_mem_cons.mpr ⟨⟨hname.1, hc.1⟩, hnames⟩) (by omega) le_rfl (by omega)
        have hnil : gap' = [] ↔ gap = [] := by
          rw [← List.length_eq_zero_iff, hgap, List.length_eq_zero_iff]
        unfold Ends at hrun ⊢
        rw [resolve_name names hname]
        cases hres : resolve root (c :: names) (d :: cs) with
        | none => rwa [hres] at hrun
        | some left =>
          rw [hres] at hrun
          obtain ⟨s, tail, hx, hto, hmem, hs⟩ := hrun
          refine ⟨s, tail, hx, hto, ?_, ?_⟩
          · rw [hmem, hlen, written_cons, hgap]
            simp
            omega
          · by_cases hlastname : IsName ((d :: cs).getLastD [])
            · rw [if_pos hlastname] at hs
              rw [if_pos (hlast.mp hlastname), hs.2, hnil, List.forall_mem_cons (a := c)]
              exact ⟨hs.1, by simp [hname]⟩
            · rw [if_neg hlastname] at hs
              rwa [if_neg fun h => hlastname (hlast.mpr h)]
      · have hbad : ¬ ∀ x ∈ c :: d :: cs, IsName x := fun h => hname (h c (by simp))
        by_cases h0 : c = []
        · subst h0
          rw [List.nil_append, skip_slash]
          refine (ih (gap ++ [47]) hnames (by omega) (by omega) (by omega)).weaken
            (resolve_drop names (.inl rfl) _) (by simp) ?_ hlast hbad
          simp [hlen]
          omega
        have hpos := List.length_pos_iff.mpr h0
        obtain ⟨k, rfl⟩ : ∃ j, k = j + 1 := ⟨k - 1, by omega⟩
        by_cases h1 : c = [46]
        · subst h1
          rw [skip_succ _ _ gap hc (.inl rfl) (by simp), if_pos rfl, skip_slash]
          refine (ih (gap ++ [46] ++ [47]) hnames (by omega) (by omega) (by omega)).weaken
            (resolve_drop names (.inr rfl) _) (by simp) ?_ hlast hbad
          simp [hlen]
          omega
        · obtain rfl : c = [46, 46] := by
            by_contra h2
            exact hname ⟨h0, h1, h2⟩
          by_cases hfail : names = [] ∧ root = false
          · obtain ⟨rfl, rfl⟩ := hfail
            rw [show written false [] = [] from rfl, skip_fail (k + 1) gap (.inl rfl)]
            rfl
          · obtain ⟨gap', hgap, hskiplen, hskip⟩ := skip_dots
              hnames hfail (k + 1) gap (.inl rfl)
            rw [hskip, skip_slash]
            refine (ih (gap' ++ [47]) (fun x hx => hnames x (List.mem_of_mem_tail hx)) (by omega)
              (by omega) (by omega)).weaken (resolve_dots hfail _) (by simp) ?_ hlast hbad
            simp [hlen]
            omega

/-! ### Components and their text -/

theorem components_ne_nil (s : Str) : components s ≠ [] := by
  induction s with
  | nil => simp [components]
  | cons a s ih =>
    rw [components]
    split_ifs
    · simp
    · cases h : components s with
      | nil => exact absurd h ih
      | cons d ds => simp

theorem join_cons (c : Str) {cs : List Str} (h : cs ≠ []) : join (c :: cs) = c ++ 47 :: join cs := by
  cases cs with
  | nil => exact absurd rfl h
  | cons d cs => rfl

theorem join_components (s : Str) : join (components s) = s := by
  induction s with
  | nil => rfl
  | cons a s ih =>
    rw [components]
    split_ifs with ha
    · rw [join_cons _ (components_ne_nil s), ih, ha]
      rfl
    · cases h : components s with
      | nil => exact absurd h (components_ne_nil s)
      | cons d ds =>
        rw [h] at ih
        rw [List.modifyHead_cons, ← ih]
        cases ds <;> rfl

theorem clean_components {s : Str} (h : 0 ∉ s) : ∀ c ∈ components s, Clean c := by
  induction s with
  | nil => simp [components, Clean]
  | cons a s ih =>
    rw [List.mem_cons, not_or] at h
    have ih := ih h.2
    rw [components]
    split_ifs with ha
    · exact List.forall_mem_cons.mpr ⟨⟨by simp, by simp⟩, ih⟩
    · cases hs : components s with
      | nil => exact absurd hs (components_ne_nil s)
      | cons d ds =>
        rw [hs, List.forall_mem_cons] at ih
        rw [List.modifyHead_cons, List.forall_mem_cons]
        exact ⟨⟨by simp [ih.1.1, Ne.symm ha], by simp [ih.1.2, h.1]⟩, ih.2⟩

theorem components_append {c : Str} (hc : 47 ∉ c) (s : Str) :
    components (c ++ 47 :: s) = c :: components s := by
  induction c with
  | nil => rw [List.nil_append, components, if_pos rfl]
  | cons a c ih =>
    rw [List.mem_cons, not_or] at hc
    rw [List.cons_append, components, if_neg (Ne.symm hc.1), ih hc.2, List.modifyHead_cons]

theorem components_clean {c : Str} (hc : 47 ∉ c) : components c = [c] := by
  induction c with
  | nil => rfl
  | cons a c ih =>
    rw [List.mem_cons, not_or] at hc
    rw [components, if_neg (Ne.symm hc.1), ih hc.2, List.modifyHead_cons]

theorem components_join {cs : List Str} (hne : cs ≠ []) (hcs : ∀ c ∈ cs, 47 ∉ c) :
    components (join cs) = cs := by
  induction cs with
  | nil => exact absurd rfl hne
  | cons c cs ih =>
    rw [List.forall_mem_cons] at hcs
    rcases eq_or_ne cs [] with rfl | h
    · exact components_clean hcs.1
    · rw [join_cons c h, components_append hcs.1, ih h hcs.2]

theorem join_slash {cs : List Str} (h : cs ≠ []) : join cs ++ [47] = join (cs ++ [[]]) := by
  induction cs with
  | nil => exact absurd rfl h
  | cons c cs ih =>
    rcases eq_or_ne cs [] with rfl | hne
    · rfl
    · rw [List.cons_append, join_cons c hne, join_cons c (by simp), ← ih hne]
      simp

theorem flatMap_slash {cs : List Str} (h : cs ≠ []) : cs.flatMap (· ++ [47]) = join cs ++ [47] := by
  induction cs with
  | nil => exact absurd rfl h
  | cons c cs ih =>
    rcases eq_or_ne cs [] with rfl | hne
    · simp [join]
    · rw [List.flatMap_cons, ih hne, join_cons c hne]
      simp

theorem written_eq (root : Bool) {names : List Str} (h : names ≠ []) :
    written root names = text root names.reverse ++ [47] := by
  rw [written, flatMap_slash (List.reverse_ne_nil_iff.mpr h), text]
  cases root <;> simp [h]

/-! ### What is resolved -/

/-- Where no reference to `..` is illegal, names that are clean are left. -/
theorem resolve_mem {root : Bool} {cs : List Str} : ∀ {names left : List Str},
    resolve root names cs = some left → ∀ n ∈ left, n ∈ names ∨ n ∈ cs ∧ IsName n := by
  induction cs with
  | nil =>
    intro names left h n hn
    exact .inl (Option.some.inj h ▸ hn)
  | cons c cs ih =>
    intro names left h n hn
    rw [resolve] at h
    split_ifs at h with h1 h2 h3
    · exact (ih h n hn).imp_right fun ⟨hm, hname⟩ => ⟨List.mem_cons_of_mem _ hm, hname⟩
    · exact (ih h n hn).imp List.mem_of_mem_tail fun ⟨hm, hname⟩ => ⟨List.mem_cons_of_mem _ hm, hname⟩
    · rcases ih h n hn with hm | ⟨hm, hname⟩
      · rcases List.mem_cons.mp hm with rfl | hm
        · exact .inr ⟨List.mem_cons_self, fun h => h1 (.inl h), fun h => h1 (.inr h), h2⟩
        · exact .inl hm
      · exact .inr ⟨List.mem_cons_of_mem _ hm, hname⟩

theorem resolve_last {root : Bool} {cs : List Str} : ∀ {names left : List Str},
    resolve root names cs = some left → IsName (cs.getLastD []) → left ≠ [] := by
  induction cs with
  | nil => intro _ _ _ h; exact absurd rfl h.1
  | cons c cs ih =>
    intro names left h hlast
    rcases eq_or_ne cs [] with rfl | hne
    · rw [resolve_name names (show IsName c from hlast)] at h
      exact Option.some.inj h ▸ List.cons_ne_nil _ _
    · have hlast : IsName (cs.getLastD []) := by
        cases cs with
        | nil => exact absurd rfl hne
        | cons d cs => simpa using hlast
      rw [resolve] at h
      split_ifs at h
      · exact ih h hlast
      · exact ih h hlast
      · exact ih h hlast

theorem resolve_names {root : Bool} {cs : List Str} (hcs : ∀ c ∈ cs, IsName c) :
    ∀ {names : List Str} (more : List Str),
      resolve root names (cs ++ more) = resolve root (cs.reverse ++ names) more := by
  induction cs with
  | nil => intro names more; rfl
  | cons c cs ih =>
    intro names more
    rw [List.forall_mem_cons] at hcs
    rw [List.cons_append, resolve_name names hcs.1, ih hcs.2]
    simp

theorem resolve_none_iff {root : Bool} {cs : List Str} : ∀ {names : List Str},
    resolve root names cs = none ↔ root = false ∧
      ∃ k, names.length + (cs.take k).countP (IsName ·) < (cs.take k).count [46, 46] := by
  induction cs with
  | nil => simp [resolve]
  | cons c cs ih =>
    intro names
    have hshift : ∀ {P : ℕ → Prop}, (¬ P 0) → ((∃ k, P k) ↔ ∃ k, P (k + 1)) := fun h0 =>
      ⟨fun ⟨k, hk⟩ => ⟨k - 1, by cases k with
        | zero => exact absurd hk h0
        | succ k => exact hk⟩, fun ⟨k, hk⟩ => ⟨k + 1, hk⟩⟩
    rw [hshift (by simp)]
    simp only [List.take_succ_cons, List.countP_cons, List.count_cons]
    by_cases h1 : c = [] ∨ c = [46]
    · have hname : ¬ IsName c := fun h => h1.elim h.1 h.2.1
      have hdots : (c == [46, 46]) = false := by rcases h1 with rfl | rfl <;> rfl
      simp [resolve_drop names h1, ih, hname, hdots]
    by_cases h2 : c = [46, 46]
    · subst h2
      have hname : ¬ IsName [46, 46] := fun h => h.2.2 rfl
      by_cases h3 : names = [] ∧ root = false
      · obtain ⟨rfl, rfl⟩ := h3
        exact iff_of_true rfl ⟨rfl, 0, by simp [hname]⟩
      · rw [resolve_dots h3, ih]
        refine and_congr_right fun hroot => exists_congr fun k => ?_
        have hpos : 0 < names.length := List.length_pos_iff.mpr fun h => h3 ⟨h, hroot⟩
        simp [hname]
        omega
    · have hname : IsName c := ⟨fun h => h1 (.inl h), fun h => h1 (.inr h), h2⟩
      have hdots : (c == [46, 46]) = false := by simpa using h2
      rw [resolve_name names hname, ih]
      refine and_congr_right fun _ => exists_congr fun k => ?_
      simp [hname, hdots]
      omega

theorem excess_iff (path : Str) :
    Excess path ↔ resolve (absolute path) [] (components (relative path)) = none := by
  rw [resolve_none_iff, Excess]
  refine and_congr_right fun h => ?_
  simp [relative, h]

/-! ### `canPath` -/

/-- The string that is left: a slash after the last name goes if the path ends in a name. -/
def left (root : Bool) (cs names : List Str) : Str :=
  if IsName (cs.getLastD []) then (written root names).dropLast
  else if written root names = [] then [46] else written root names

/-- Every component of the path is a name that stays. -/
def Full (path : Str) : Prop := path = [] ∨ ∀ c ∈ components (relative path), IsName c

instance (path : Str) : Decidable (Full path) := inferInstanceAs (Decidable (_ ∨ _))

theorem start_eq (path rest : Str) : start (path ++ 0 :: rest) =
    .ok (at' (written (absolute path) []) [] (relative path ++ 0 :: rest)) := by
  cases path with
  | nil => rfl
  | cons a path =>
    have hread : read (a :: path ++ 0 :: rest) 0 = .ok a := read_append [] _ a
    have hwrite : write (a :: path ++ 0 :: rest) 0 47 = .ok (47 :: path ++ 0 :: rest) :=
      write_append [] _ a 47
    rw [start, hread]
    simp only [bind, Except.bind]
    by_cases ha : a = 47
    · subst ha
      rw [if_pos rfl, hwrite]
      rfl
    · rw [if_neg ha]
      have hroot : absolute (a :: path) = false := by simp [absolute, ha]
      rw [hroot, relative, hroot]
      rfl

theorem length_relative (path : Str) :
    (written (absolute path) []).length + (relative path).length = path.length := by
  cases path with
  | nil => rfl
  | cons a path =>
    by_cases ha : a = 47 <;> simp [absolute, relative, written, ha]
    omega

/-- The loop runs over the components. -/
theorem ends_path {path : Str} (hnul : 0 ∉ path) (rest : Str) {x : Except Stop State}
    (hx : x = loop ((path ++ 0 :: rest).length + 1) ((path ++ 0 :: rest).length + 1)
      (at' (written (absolute path) []) [] (relative path ++ 0 :: rest))) :
    Ends (absolute path) (components (relative path)) [] [] rest x := by
  have hlen := length_relative path
  have hrel : 0 ∉ relative path := by
    rw [relative]
    split_ifs
    · exact fun h => hnul (List.mem_of_mem_tail h)
    · exact hnul
  have hsize : (path ++ 0 :: rest).length = path.length + rest.length + 1 := by
    simp
    omega
  have hrun := @ends_loop rest (absolute path) ((path ++ 0 :: rest).length + 1) _
    (components_ne_nil (relative path)) (clean_components hrel) [] [] ((path ++ 0 :: rest).length + 1)
    (path ++ 0 :: rest).length (by simp [Names])
    (by rw [join_components]; omega) le_rfl (by rw [join_components]; omega)
  rw [join_components] at hrun
  rwa [hx]

theorem canPath_eq (path rest : Str) : canPath (path ++ 0 :: rest) =
    loop ((path ++ 0 :: rest).length + 1) ((path ++ 0 :: rest).length + 1)
      (at' (written (absolute path) []) [] (relative path ++ 0 :: rest)) >>= finish := by
  rw [canPath, start_eq]
  rfl

theorem canPath_none {path : Str} (hnul : 0 ∉ path) (rest : Str)
    (h : resolve (absolute path) [] (components (relative path)) = none) :
    canPath (path ++ 0 :: rest) = .error .fail := by
  have hends := ends_path hnul rest rfl
  rw [Ends, h] at hends
  rw [canPath_eq, show loop _ _ _ = Except.error Stop.fail from hends]
  rfl

theorem written_nil_iff {root : Bool} {names : List Str} :
    written root names = [] ↔ names = [] ∧ root = false := by
  cases names with
  | nil => cases root <;> simp [written]
  | cons n names => simp [written_cons]

/-- The memory afterwards, where nothing is written outside it. -/
theorem canPath_some {path : Str} (hnul : 0 ∉ path) (rest : Str) {names : List Str}
    (h : resolve (absolute path) [] (components (relative path)) = some names) :
    if rest = [] ∧ Full path then canPath (path ++ 0 :: rest) = .error .outside
    else ∃ tail, canPath (path ++ 0 :: rest) =
        .ok (left (absolute path) (components (relative path)) names ++ 0 :: tail) ∧
      (IsName ((components (relative path)).getLastD []) → tail ≠ []) := by
  have hends := ends_path hnul rest rfl
  rw [Ends, h] at hends
  obtain ⟨s, tail, hloop, hto, hlen, hs⟩ := hends
  rw [join_components] at hlen
  have hlen : s.mem.length = path.length + 1 + rest.length := by
    have := length_relative path
    simp only [List.length_nil] at hlen
    omega
  rw [canPath_eq, hloop]
  simp only [bind, Except.bind]
  rw [finish, hto]
  by_cases hlast : IsName ((components (relative path)).getLastD [])
  · rw [if_pos hlast] at hs
    obtain ⟨hmem, htail⟩ := hs
    have hne : written (absolute path) names ≠ [] := fun hnil =>
      resolve_last h hlast (written_nil_iff.mp hnil).1
    have hfull : (rest = [] ∧ Full path) ↔ tail = [] := by
      rw [htail, Full]
      constructor
      · rintro ⟨hr, rfl | hall⟩
        · exact absurd rfl hlast.1
        · exact ⟨rfl, hr, hall⟩
      · exact fun ⟨_, hr, hall⟩ => ⟨hr, .inr hall⟩
    have hpos : 0 < (written (absolute path) names).length := List.length_pos_iff.mpr hne
    rw [if_neg hpos.ne', left, if_pos hlast]
    cases tail with
    | nil =>
      rw [if_pos (hfull.mpr rfl), hmem, write, if_neg]
      simp
      omega
    | cons t tail =>
      rw [if_neg fun hf => List.cons_ne_nil _ _ (hfull.mp hf)]
      refine ⟨0 :: tail, ?_, fun _ => List.cons_ne_nil _ _⟩
      have hwrite := write_append ((written (absolute path) names).dropLast ++ [0]) tail t 0
      rw [List.length_append, List.length_dropLast, List.length_singleton,
        Nat.sub_add_cancel hpos] at hwrite
      rw [hmem]
      simpa using hwrite
  · rw [if_neg hlast] at hs
    obtain ⟨hmem, hne⟩ := hs
    have hnames : ¬ ∀ c ∈ components (relative path), IsName c := fun hall => hlast (by
      rw [List.getLastD_eq_getLast?, List.getLast?_eq_some_getLast (components_ne_nil _)]
      exact hall _ (List.getLast_mem _))
    obtain ⟨t, tail, rfl⟩ := List.exists_cons_of_ne_nil hne
    rw [left, if_neg hlast]
    by_cases hnil : written (absolute path) names = []
    · rw [hnil] at hmem ⊢
      rw [List.length_nil, if_pos rfl, if_pos rfl, hmem]
      have hwrite : write ([] ++ t :: tail) 0 46 = .ok (46 :: tail) := write_append [] tail t 46
      rw [hwrite]
      simp only [bind, Except.bind]
      cases tail with
      | nil =>
        have hshort : path = [] ∧ rest = [] := by
          rw [hmem] at hlen
          simp at hlen
          exact ⟨List.length_eq_zero_iff.mp (by omega), List.length_eq_zero_iff.mp (by omega)⟩
        rw [if_pos ⟨hshort.2, .inl hshort.1⟩]
        rfl
      | cons t' tail =>
        have hlong : ¬ (rest = [] ∧ Full path) := by
          rintro ⟨rfl, rfl | hall⟩
          · rw [hmem] at hlen
            simp at hlen
          · exact hnames hall
        rw [if_neg hlong]
        exact ⟨tail, write_append [46] tail t' 0, fun hname => absurd hname hlast⟩
    · have hpos := List.length_pos_iff.mpr hnil
      have hfull : ¬ (rest = [] ∧ Full path) := by
        rintro ⟨-, rfl | hall⟩
        · have : names = [] := (Option.some.inj h).symm
          exact hnil (written_nil_iff.mpr ⟨this, rfl⟩)
        · exact hnames hall
      rw [if_neg hpos.ne', if_neg hfull, if_neg hnil, hmem, write_append]
      exact ⟨tail, rfl, fun hname => absurd hname hlast⟩

/-! ### Another call -/

variable {root : Bool} {names : List Str}

/-- The names that are left of a path. -/
def Left (names : List Str) : Prop := ∀ n ∈ names, IsName n ∧ Clean n

theorem head_join {cs : List Str} (hcs : ∀ c ∈ cs, c ≠ [] ∧ 47 ∉ c) : absolute (join cs) = false := by
  cases cs with
  | nil => rfl
  | cons c cs =>
    obtain ⟨hne, hc⟩ := hcs c List.mem_cons_self
    obtain ⟨a, c, rfl⟩ := List.exists_cons_of_ne_nil hne
    have ha : a ≠ 47 := fun h => hc (h ▸ List.mem_cons_self)
    have hhead : (join ((a :: c) :: cs)).head? = some a := by cases cs <;> rfl
    rw [absolute, hhead]
    simpa using ha

/-- The text of names, and of names with a slash behind them, has the root it was written with. -/
theorem text_parts (hne : names ≠ []) (hnames : Left names) (slash : Bool) :
    let r := text root names.reverse ++ if slash then [47] else []
    absolute r = root ∧ components (relative r) = names.reverse ++ if slash then [[]] else [] := by
  have hrev : names.reverse ≠ [] := List.reverse_ne_nil_iff.mpr hne
  have hjoin : join names.reverse ++ (if slash then [47] else []) =
      join (names.reverse ++ if slash then [[]] else []) := by
    cases slash
    · simp
    · exact join_slash hrev
  have hcomp : components (join (names.reverse ++ if slash then [[]] else [])) =
      names.reverse ++ if slash then [[]] else [] := by
    refine components_join (by simp [hne]) fun c hc => ?_
    rcases List.mem_append.mp hc with hc | hc
    · exact (hnames c (List.mem_reverse.mp hc)).2.1
    · cases slash
      · cases hc
      · rw [List.mem_singleton.mp hc]
        simp
  have habs : absolute (join names.reverse ++ if slash then [47] else []) = false := by
    have hhead := @head_join names.reverse fun c hc =>
      ⟨(hnames c (List.mem_reverse.mp hc)).1.1, (hnames c (List.mem_reverse.mp hc)).2.1⟩
    obtain ⟨n, ns, hns⟩ := List.exists_cons_of_ne_nil hrev
    have hn := (hnames n (by rw [← List.mem_reverse, hns]; exact List.mem_cons_self)).1.1
    rw [absolute, List.head?_append_of_ne_nil]
    · exact hhead
    · rw [hns]
      obtain ⟨a, n, rfl⟩ := List.exists_cons_of_ne_nil hn
      cases ns <;> simp [join]
  cases root
  · simp only [text, Bool.false_eq_true, if_false, if_neg hrev]
    refine ⟨habs, ?_⟩
    rw [relative, habs, ← hcomp, ← hjoin]
    rfl
  · simp only [text, if_true, List.cons_append]
    refine ⟨rfl, ?_⟩
    rw [← hcomp, ← hjoin]
    rfl

theorem resolve_left (hnames : Left names) (slash : Bool) :
    resolve root [] (names.reverse ++ if slash then [[]] else []) = some names := by
  rw [resolve_names fun c hc => (hnames c (List.mem_reverse.mp hc)).1]
  cases slash <;> simp [resolve]

theorem canPath_text (hne : names ≠ []) (hnames : Left names) (hnul : 0 ∉ text root names.reverse)
    (slash : Bool) {tail : Str} (htail : slash = false → tail ≠ []) :
    let r := text root names.reverse ++ if slash then [47] else []
    ∃ tail', canPath (r ++ 0 :: tail) = .ok (r ++ 0 :: tail') := by
  intro r
  obtain ⟨habs, hcomp⟩ := @text_parts root names hne hnames slash
  obtain ⟨n, ns, hns⟩ := List.exists_cons_of_ne_nil hne
  have hn := (hnames n (hns ▸ List.mem_cons_self)).1
  have hr : 0 ∉ r := by
    cases slash <;> simp [r, hnul]
  have hsome := @canPath_some r hr tail names
    (by rw [habs, hcomp]; exact resolve_left hnames slash)
  have hlast : IsName ((components (relative r)).getLastD []) ↔ slash = false := by
    rw [hcomp, hns]
    cases slash
    · simpa using hn
    · simp [IsName]
  rw [if_neg, habs] at hsome
  · obtain ⟨tail', htail', -⟩ := hsome
    refine ⟨tail', ?_⟩
    rw [htail', left]
    cases slash
    · rw [if_pos (hlast.mpr rfl), written_eq root hne, List.dropLast_concat]
      simp [r]
    · rw [if_neg fun h => Bool.noConfusion (hlast.mp h), written_eq root hne, if_neg (by simp)]
      simp [r]
  · rintro ⟨rfl, hfull⟩
    cases slash
    · exact htail rfl rfl
    · rcases hfull with hnil | hall
      · simp [r] at hnil
      · rw [hcomp] at hall
        exact (hall [] (by simp)).1 rfl

theorem nul_join {cs : List Str} (hcs : ∀ c ∈ cs, 0 ∉ c) : 0 ∉ join cs := by
  induction cs with
  | nil => simp [join]
  | cons c cs ih =>
    rw [List.forall_mem_cons] at hcs
    rcases eq_or_ne cs [] with rfl | hne
    · exact hcs.1
    · rw [join_cons c hne]
      simp [hcs.1, ih hcs.2]

theorem nul_text (hnames : Left names) : 0 ∉ text root names.reverse := by
  have hjoin := @nul_join names.reverse fun c hc => (hnames c (List.mem_reverse.mp hc)).2.2
  rw [text]
  split_ifs
  · simp [hjoin]
  · decide
  · exact hjoin

/-- What a call has left is left as it is by another one. -/
theorem canPath_left {cs : List Str} (hlast : IsName (cs.getLastD []) → names ≠ [])
    (hnames : Left names) {tail : Str} (htail : IsName (cs.getLastD []) → tail ≠ []) :
    ∃ tail', canPath (left root cs names ++ 0 :: tail) = .ok (left root cs names ++ 0 :: tail') := by
  rcases eq_or_ne names [] with rfl | hne
  · have h : ¬ IsName (cs.getLastD []) := fun h => hlast h rfl
    rw [left, if_neg h]
    cases root
    · have hsome := @canPath_some [46] (by decide) tail [] rfl
      rw [if_neg fun hf => absurd hf.2 (by decide)] at hsome
      exact ⟨_, hsome.choose_spec.1⟩
    · have hsome := @canPath_some [47] (by decide) tail [] rfl
      rw [if_neg fun hf => absurd hf.2 (by decide)] at hsome
      exact ⟨_, hsome.choose_spec.1⟩
  · have hnul := @nul_text root names hnames
    rw [left]
    by_cases h : IsName (cs.getLastD [])
    · rw [if_pos h, written_eq root hne, List.dropLast_concat]
      simpa using canPath_text hne hnames hnul false fun _ => htail h
    · rw [if_neg h, written_eq root hne, if_neg (by simp)]
      exact canPath_text hne hnames hnul true Bool.noConfusion

theorem canonical_left {cs : List Str} (hlast : IsName (cs.getLastD []) → names ≠ []) :
    left root cs names = text root names.reverse ∨
      names ≠ [] ∧ left root cs names = text root names.reverse ++ [47] := by
  rw [left]
  rcases eq_or_ne names [] with rfl | hne
  · rw [if_neg fun h => hlast h rfl]
    cases root <;> exact .inl rfl
  · by_cases h : IsName (cs.getLastD [])
    · rw [if_pos h, written_eq root hne, List.dropLast_concat]
      exact .inl rfl
    · rw [if_neg h, written_eq root hne, if_neg (by simp)]
      exact .inr ⟨hne, rfl⟩

theorem string_append {r : Str} (h : 0 ∉ r) (tail : Str) : string (r ++ 0 :: tail) = r := by
  rw [string, List.takeWhile_append_of_pos]
  · simp
  · intro c hc
    have hne : c ≠ 0 := fun h0 => h (h0 ▸ hc)
    simpa using hne

/-- `canPath` does what it is for just if the path is not empty and some component of it, maybe the
empty one behind a slash at its end, is dropped or resolved. -/
theorem canPath_meets_iff {path : Str} (hnul : 0 ∉ path) :
    Meets path ↔ path ≠ [] ∧ ∃ c ∈ components (relative path), ¬ IsName c := by
  have hfull : (path ≠ [] ∧ ∃ c ∈ components (relative path), ¬ IsName c) ↔ ¬ Full path := by
    simp [Full]
  rw [hfull]
  cases hres : resolve (absolute path) [] (components (relative path)) with
  | none =>
    have hexcess := (excess_iff path).mpr hres
    refine iff_of_true (.inl ⟨canPath_none hnul [] hres, hexcess⟩) ?_
    rintro (rfl | hall)
    · cases hres
    · have := @resolve_names (absolute path) _ hall [] []
      rw [List.append_nil, hres] at this
      cases this
  | some names =>
    have hexcess : ¬ Excess path := fun h => by
      rw [(excess_iff path).mp h] at hres
      cases hres
    have hsome := canPath_some hnul [] hres
    by_cases hf : Full path
    · rw [if_pos ⟨rfl, hf⟩] at hsome
      refine iff_of_false ?_ fun h => h hf
      rintro (⟨hfail, -⟩ | ⟨mem, mem', hok, -⟩)
      · rw [hsome] at hfail
        cases hfail
      · rw [hsome] at hok
        cases hok
    · rw [if_neg fun h => hf h.2] at hsome
      refine iff_of_true (.inr ?_) hf
      obtain ⟨tail, hok, htail⟩ := hsome
      have hlast := resolve_last hres
      have hrel : 0 ∉ relative path := by
        rw [relative]
        split_ifs
        · exact fun h => hnul (List.mem_of_mem_tail h)
        · exact hnul
      have hnames : Left names := fun n hn => by
        rcases resolve_mem hres n hn with h | ⟨h, hname⟩
        · cases h
        · exact ⟨hname, clean_components hrel n h⟩
      have htext := @nul_text (absolute path) names hnames
      have hstr : 0 ∉ left (absolute path) (components (relative path)) names := by
        rcases canonical_left hlast with h | ⟨-, h⟩
        · rwa [h]
        · rw [h]
          simp [htext]
      obtain ⟨tail', hagain⟩ := @canPath_left (absolute path) names _ hlast hnames tail htail
      refine ⟨_, _, hok, hexcess, ?_, hagain, ?_⟩
      · rw [string_append hstr]
        exact ⟨names, hres, canonical_left hlast⟩
      · rw [string_append hstr, string_append hstr]

theorem canPath_meets : Meets [97, 47, 46, 46, 47, 98] :=
  (canPath_meets_iff (by decide)).mpr ⟨by decide, [46, 46], by decide, by decide⟩

theorem not_meets_name : ¬ Meets [97] := by
  rintro (⟨hfail, -⟩ | ⟨mem, mem', hok, -⟩)
  · cases hfail
  · cases hok

end Unitas.Bnu.CanPath
