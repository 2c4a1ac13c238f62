import Unitas.Lib.Decimal
import Unitas.Lib.EditScript
import Unitas.Lib.Lines

/-! The output of `diff`, and how `bdiff` moves its line numbers. -/
namespace Unitas.Bdiff
open Unitas.Decimal Unitas.EditScript Unitas.Lines

/-- What a string is for `printf`, `fputs` and `strcmp`. -/
def cstr (line : List UInt8) : List UInt8 := line.takeWhile (· ≠ 0)

def satoi (p : List UInt8) : ℕ × List UInt8 := (decValue (p.takeWhile isDigit), p.dropWhile isDigit)

theorem satoi_length (p : List UInt8) : (satoi p).2.length ≤ p.length :=
  (List.dropWhile_suffix isDigit).length_le

theorem satoi_length_lt {c : UInt8} (h : isDigit c = true) (p : List UInt8) :
    (satoi (c :: p)).2.length < (c :: p).length := by
  rw [satoi, List.dropWhile_cons_of_pos h]
  exact Nat.lt_succ_of_le (satoi_length p)

/-- `fixnum`. At another character `satoi` reads nothing, and the loop never ends. -/
def fixnum (linenum : ℕ) (lp : List UInt8) : Option (List UInt8) :=
  match lp with
  | [] => some []
  | c :: rest =>
    if c = 0 then some []
    else if c = 97 ∨ c = 99 ∨ c = 100 ∨ c = 44 ∨ c = 10 then (fixnum linenum rest).map (c :: ·)
    else if _h : isDigit c = true then
      (fixnum linenum (satoi (c :: rest)).2).map
        (decimal ((satoi (c :: rest)).1 + linenum) ++ ·)
    else none
  termination_by lp.length
  decreasing_by
    · exact Nat.lt_succ_self _
    · exact satoi_length_lt _h rest

def number (t : List UInt8) : Option (ℕ × List UInt8) :=
  if t.takeWhile isDigit = [] then none else some (satoi t)

/-- One line number, or two with a comma. -/
def address (t : List UInt8) : Option ((ℕ × ℕ) × List UInt8) := do
  let (n, t) ← number t
  match t with
  | 44 :: t =>
    let (m, t) ← number t
    some ((n, m), t)
  | _ => some ((n, n), t)

/-- The first line of a hunk, and the lines of the old file that it is about. -/
def header (line : List UInt8) : Option (ℕ × ℕ) := do
  let ((n, m), t) ← address line
  match t with
  | [] => none
  | c :: t =>
    let (_, t) ← address t
    if t ≠ [10] then none
    else if c = 97 ∧ n = m then some (n, n)
    else if (c = 99 ∨ c = 100) ∧ 1 ≤ n then some (n - 1, m)
    else none

/-- The lines after `> `. A line with a backslash says that there is no newline before it. -/
def added : List (List UInt8) → List (List UInt8)
  | [] => []
  | (62 :: 32 :: text) :: rest =>
    (if rest.head?.bind List.head? = some 92 then text.dropLast else text) :: added rest
  | _ :: rest => added rest

/-- Is it the first line of a hunk? -/
def isHeader (line : List UInt8) : Bool := line.head?.any isDigit

/-- The lines before the first hunk, and the hunks. -/
def parse : List (List UInt8) → Option (List (List UInt8) × List (Hunk (List UInt8)))
  | [] => some ([], [])
  | line :: ls => do
    let (body, hs) ← parse ls
    if isHeader line then
      let (start, stop) ← header line
      some ([], ⟨start, stop, added body⟩ :: hs)
    else some (line :: body, hs)

def script (out : List UInt8) : Option (List (Hunk (List UInt8))) :=
  match parse (fileLines out) with
  | some ([], hs) => some hs
  | _ => none

/-- An edit script that makes the new file of the old one. -/
def Correct (out old new : List UInt8) : Prop :=
  ∃ hs, script out = some hs ∧ Fits (fileLines old).length 0 hs ∧
    (apply (fileLines old) 0 hs).flatten = new

theorem isDigit_of_head {c : UInt8} {p : List UInt8} (h : (c :: p).takeWhile isDigit ≠ []) :
    isDigit c = true := by
  by_contra hc
  exact h (List.takeWhile_cons_of_neg hc)

theorem number_decimal (k : ℕ) {c : UInt8} (hc : isDigit c = false) (u : List UInt8) :
    number (decimal k ++ c :: u) = some (k, c :: u) := by
  rw [number, satoi, takeWhile_decimal k hc, dropWhile_decimal k hc, decValue_decimal,
    if_neg (decimal_ne_nil k)]

/-- A line number becomes another one. -/
theorem fixnum_number (linenum : ℕ) {n : ℕ} {t u : List UInt8} (h : number t = some (n, u)) :
    fixnum linenum t = (fixnum linenum u).map (decimal (n + linenum) ++ ·) := by
  rw [number] at h
  split_ifs at h with hnil
  obtain ⟨rfl, rfl⟩ := Prod.mk.inj (Option.some.inj h)
  cases t with
  | nil => exact absurd rfl hnil
  | cons c t =>
    have hc := isDigit_of_head hnil
    have hne : ¬ (c = 97 ∨ c = 99 ∨ c = 100 ∨ c = 44 ∨ c = 10) := by
      rintro (rfl | rfl | rfl | rfl | rfl) <;> exact absurd hc (by decide)
    have hzero : c ≠ 0 := by
      rintro rfl
      exact absurd hc (by decide)
    rw [fixnum, if_neg hzero, if_neg hne, dif_pos hc]
    rfl

theorem fixnum_char (linenum : ℕ) {c : UInt8} (hc : c = 97 ∨ c = 99 ∨ c = 100 ∨ c = 44 ∨ c = 10)
    (u : List UInt8) : fixnum linenum (c :: u) = (fixnum linenum u).map (c :: ·) := by
  have hzero : c ≠ 0 := by
    rintro rfl
    exact absurd hc (by decide)
  rw [fixnum, if_neg hzero, if_pos hc]

/-- What no newline is in, and what begins with a digit. -/
def IsAddress (text : List UInt8) : Prop := 10 ∉ text ∧ isHeader text = true

theorem isHeader_append {text : List UInt8} (h : isHeader text = true) (u : List UInt8) :
    isHeader (text ++ u) = true := by
  cases text with
  | nil => exact absurd h (by decide)
  | cons c text => exact h

theorem isAddress_decimal (k : ℕ) : IsAddress (decimal k) := by
  refine ⟨fun h => absurd (decimal_isDigit k 10 h) (by decide), ?_⟩
  cases h : decimal k with
  | nil => exact absurd h (decimal_ne_nil k)
  | cons c ds => exact decimal_isDigit k c (h ▸ List.mem_cons_self)

theorem isAddress_comma (k l : ℕ) : IsAddress (decimal k ++ 44 :: decimal l) := by
  refine ⟨fun h => ?_, isHeader_append (isAddress_decimal k).2 _⟩
  rcases List.mem_append.mp h with h | h
  · exact (isAddress_decimal k).1 h
  · exact (isAddress_decimal l).1 (List.mem_of_ne_of_mem (by decide) h)

/-- A text that stands for two line numbers, whatever comes after it. -/
def Reads (text : List UInt8) (n m : ℕ) : Prop :=
  IsAddress text ∧ ∀ c v, isDigit c = false → c ≠ 44 →
    address (text ++ c :: v) = some ((n, m), c :: v)

theorem reads_decimal (k : ℕ) : Reads (decimal k) k k := by
  refine ⟨isAddress_decimal k, fun c v hc hcomma => ?_⟩
  rw [address, number_decimal k hc]
  change (match c :: v with | 44 :: t => _ | _ => _) = _
  split
  · rename_i heq
    exact absurd (List.cons.inj heq).1 hcomma
  · rfl

theorem reads_comma (k l : ℕ) : Reads (decimal k ++ 44 :: decimal l) k l := by
  refine ⟨isAddress_comma k l, fun c v hc _ => ?_⟩
  rw [List.append_assoc, List.cons_append, address, number_decimal k (by decide)]
  change (do
    let (m, t) ← number (decimal l ++ c :: v)
    some ((k, m), t)) = _
  rw [number_decimal l hc]
  rfl

/-- Line numbers are moved, one or two. -/
theorem fixnum_address (linenum : ℕ) {n m : ℕ} {t u : List UInt8}
    (h : address t = some ((n, m), u)) :
    ∃ text, Reads text (n + linenum) (m + linenum) ∧
      fixnum linenum t = (fixnum linenum u).map (text ++ ·) := by
  rw [address] at h
  cases hn : number t with
  | none =>
    rw [hn] at h
    exact absurd h (by simp)
  | some p =>
    obtain ⟨k, t'⟩ := p
    rw [hn] at h
    have hfix := fixnum_number linenum hn
    change (match t' with | 44 :: t => _ | _ => _) = _ at h
    split at h
    · rename_i t₂
      cases hm : number t₂ with
      | none =>
        rw [hm] at h
        exact absurd h (by simp)
      | some q =>
        obtain ⟨l, w⟩ := q
        rw [hm] at h
        obtain ⟨hkl, rfl⟩ := Prod.mk.inj (Option.some.inj h)
        obtain ⟨rfl, rfl⟩ := Prod.mk.inj hkl
        refine ⟨_, reads_comma (k + linenum) (l + linenum), ?_⟩
        rw [hfix, fixnum_char linenum (by decide), fixnum_number linenum hm, Option.map_map,
          Option.map_map]
        refine congrArg (Option.map · _) (funext fun v => ?_)
        simp
    · obtain ⟨hkl, rfl⟩ := Prod.mk.inj (Option.some.inj h)
      obtain ⟨rfl, rfl⟩ := Prod.mk.inj hkl
      exact ⟨_, reads_decimal (k + linenum), hfix⟩

/-- A kind of hunk with the lines of the old file that it is about. -/
theorem header_eq {line t u : List UInt8} {n m start stop : ℕ} {c : UInt8} {q : ℕ × ℕ}
    (hold : address line = some ((n, m), c :: t)) (hnew : address t = some (q, u)) :
    header line = some (start, stop) ↔ u = [10] ∧
      (c = 97 ∧ n = m ∧ start = n ∧ stop = n ∨
        (c = 99 ∨ c = 100) ∧ 1 ≤ n ∧ start = n - 1 ∧ stop = m) := by
  have heq : header line = if u ≠ [10] then none else if c = 97 ∧ n = m then some (n, n)
      else if (c = 99 ∨ c = 100) ∧ 1 ≤ n then some (n - 1, m) else none := by
    rw [header, hold]
    change (do
      let (_, t) ← address t
      if t ≠ [10] then none
      else if c = 97 ∧ n = m then some (n, n)
      else if (c = 99 ∨ c = 100) ∧ 1 ≤ n then some (n - 1, m)
      else none) = _
    rw [hnew]
    rfl
  have hkind : ¬ (c = 97 ∧ (c = 99 ∨ c = 100)) := by
    rintro ⟨rfl, h | h⟩
    · exact absurd h (by decide)
    · exact absurd h (by decide)
  rw [heq]
  split_ifs with h1 h2 h3
  · exact iff_of_false (by simp) fun h => h1 h.1
  · simp only [Option.some.injEq, Prod.mk.injEq]
    have hnot : ¬ (c = 99 ∨ c = 100) := fun h => hkind ⟨h2.1, h⟩
    constructor
    · rintro ⟨rfl, rfl⟩
      exact ⟨not_not.mp h1, Or.inl ⟨h2.1, h2.2, rfl, rfl⟩⟩
    · rintro ⟨-, ⟨-, -, rfl, rfl⟩ | ⟨h, -⟩⟩
      · exact ⟨rfl, rfl⟩
      · exact absurd h hnot
  · simp only [Option.some.injEq, Prod.mk.injEq]
    constructor
    · rintro ⟨rfl, rfl⟩
      exact ⟨not_not.mp h1, Or.inr ⟨h3.1, h3.2, rfl, rfl⟩⟩
    · rintro ⟨-, ⟨hc, -⟩ | ⟨-, -, rfl, rfl⟩⟩
      · exact absurd ⟨hc, h3.1⟩ hkind
      · exact ⟨rfl, rfl⟩
  · refine iff_of_false (by simp) ?_
    rintro ⟨-, ⟨hc, hnm, -⟩ | ⟨hc, hn, -⟩⟩
    · exact h2 ⟨hc, hnm⟩
    · exact h3 ⟨hc, hn⟩

/-- A header is two addresses around a letter. -/
theorem header_some {line : List UInt8} {start stop : ℕ} (h : header line = some (start, stop)) :
    ∃ n m c t q, address line = some ((n, m), c :: t) ∧ address t = some (q, [10]) ∧
      (c = 97 ∧ n = m ∧ start = n ∧ stop = n ∨
        (c = 99 ∨ c = 100) ∧ 1 ≤ n ∧ start = n - 1 ∧ stop = m) := by
  cases hold : address line with
  | none =>
    rw [header, hold] at h
    exact absurd h (by simp)
  | some p =>
    obtain ⟨⟨n, m⟩, t⟩ := p
    cases t with
    | nil =>
      rw [header, hold] at h
      exact absurd h (by simp)
    | cons c t =>
      cases hnew : address t with
      | none =>
        rw [header, hold] at h
        change (do
          let (_, t) ← address t
          if t ≠ [10] then none
          else if c = 97 ∧ n = m then some (n, n)
          else if (c = 99 ∨ c = 100) ∧ 1 ≤ n then some (n - 1, m)
          else none) = _ at h
        rw [hnew] at h
        exact absurd h (by simp)
      | some q =>
        obtain ⟨q, u⟩ := q
        obtain ⟨rfl, hkind⟩ := (header_eq hold hnew).mp h
        exact ⟨n, m, c, t, q, rfl, hnew, hkind⟩

/-- Two addresses around a letter are a header. -/
theorem header_text {text text' : List UInt8} {n m n' m' start stop : ℕ} {c : UInt8}
    (htext : Reads text n m) (htext' : Reads text' n' m')
    (hkind : c = 97 ∧ n = m ∧ start = n ∧ stop = n ∨
      (c = 99 ∨ c = 100) ∧ 1 ≤ n ∧ start = n - 1 ∧ stop = m) :
    Ended (text ++ c :: (text' ++ [10])) ∧ isHeader (text ++ c :: (text' ++ [10])) = true ∧
      header (text ++ c :: (text' ++ [10])) = some (start, stop) := by
  have hc : c = 97 ∨ c = 99 ∨ c = 100 := hkind.elim (fun h => Or.inl h.1) fun h => Or.inr h.1
  have hplain : isDigit c = false ∧ c ≠ 44 ∧ c ≠ 10 := by
    rcases hc with rfl | rfl | rfl <;> decide
  refine ⟨⟨text ++ c :: text', fun hmem => ?_, ?_⟩, isHeader_append htext.1.2 _, ?_⟩
  · rcases List.mem_append.mp hmem with hmem | hmem
    · exact htext.1.1 hmem
    · exact htext'.1.1 (List.mem_of_ne_of_mem (Ne.symm hplain.2.2) hmem)
  · rw [List.append_assoc, List.cons_append]
  · exact (header_eq (htext.2 c _ hplain.1 hplain.2.1)
      (htext'.2 10 [] (by decide) (by decide))).mpr ⟨rfl, hkind⟩

/-- The first line of a hunk is moved as a whole. -/
theorem fixnum_header (linenum : ℕ) {start stop : ℕ} {line : List UInt8}
    (h : header line = some (start, stop)) :
    ∃ line', fixnum linenum line = some line' ∧ Ended line' ∧ isHeader line' = true ∧
      header line' = some (linenum + start, linenum + stop) := by
  obtain ⟨n, m, c, t, ⟨n', m'⟩, hold, hnew, hkind⟩ := header_some h
  obtain ⟨text, htext, hfix⟩ := fixnum_address linenum hold
  obtain ⟨text', htext', hfix'⟩ := fixnum_address linenum hnew
  have hchar : c = 97 ∨ c = 99 ∨ c = 100 ∨ c = 44 ∨ c = 10 :=
    hkind.elim (fun h => Or.inl h.1) fun h => Or.inr (h.1.imp_right Or.inl)
  refine ⟨text ++ c :: (text' ++ [10]), ?_, header_text htext htext' (hkind.imp ?_ ?_)⟩
  · rw [hfix, fixnum_char linenum hchar, hfix', fixnum_char linenum (by decide), fixnum]
    rfl
  · rintro ⟨hc, rfl, rfl, rfl⟩
    exact ⟨hc, rfl, Nat.add_comm .., Nat.add_comm ..⟩
  · rintro ⟨hc, hn, rfl, rfl⟩
    exact ⟨hc, by omega, by omega, Nat.add_comm ..⟩

end Unitas.Bdiff
