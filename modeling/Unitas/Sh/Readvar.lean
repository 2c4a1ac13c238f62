import Mathlib
import Unitas.Sh.Word

/-! The built-in command `read`: `readvar`, in a single-byte locale. The input begins with the
character in `peekc` if there is one. -/
namespace Unitas.Sh.Readvar
open Word (nextwc nextwc_of_ne nextwc_escape)

abbrev Str := List UInt8

/-- `readwc`, which gives 0 at the end of the file. -/
def readwc : Str → UInt8 × Str
  | [] => (0, [])
  | c :: s => (c, s)

def newwc (r : Bool) : Str → UInt8 × Str := if r then readwc else nextwc

def eolchar (d : UInt8) : Bool := d = 10 || d = 0

/-- The loops that strip characters of `IFS`: `d`, what `c` holds, and the input. -/
def strip (r : Bool) (ifs : Str) : ℕ → UInt8 → Str → Option (UInt8 × UInt8 × Str)
  | 0, _, _ => none
  | fuel + 1, c, input =>
    let d := (newwc r input).1
    let input := (newwc r input).2
    if eolchar d then some (d, c, input)
    else if d ∈ ifs then strip r ifs fuel d input
    else some (d, d, input)

/-- `stak` is what is on the stack for the variable, `oldstak` its length up to which it is kept;
`names` counts the variables behind it, and `assigned` holds what those before it have got. -/
structure State where
  d : UInt8
  c : UInt8
  input : Str
  stak : Str
  oldstak : ℕ
  names : ℕ
  assigned : List Str

/-- `d = newwc()` and what follows it at the end of the loop. -/
def State.next (r : Bool) (s : State) : State :=
  let d := (newwc r s.input).1
  let input := (newwc r s.input).2
  if eolchar d then { s with d := d, input := input, stak := s.stak.take s.oldstak }
  else { s with d := d, c := d, input := input }

/-- The character or the quoted character is put on the stack. -/
def State.push (r : Bool) (ifs : Str) (s : State) : State :=
  if s.d = 92 ∧ r = false then
    let d := (newwc r s.input).1
    let stak := s.stak ++ if d = 0 then [] else [d]
    { s with input := (newwc r s.input).2, stak := stak, oldstak := stak.length }
  else
    let stak := s.stak ++ [s.c]
    { s with stak := stak, oldstak := if s.c ∈ ifs then s.oldstak else stak.length }

/-- The main loop, with enough fuel `size` for `strip`, and the loop over the variables for which
nothing is left. -/
def loop (r : Bool) (ifs : Str) (size : ℕ) : ℕ → State → Option (List Str)
  | 0, _ => none
  | fuel + 1, s =>
    if (0 < s.names ∧ s.c ∈ ifs) ∨ eolchar s.d then
      if eolchar s.d then some (s.assigned ++ [s.stak] ++ List.replicate s.names [])
      else do
        let (d, c, input) ← strip r ifs size s.c s.input
        loop r ifs size fuel ⟨d, c, input, [], s.oldstak, s.names - 1, s.assigned ++ [s.stak]⟩
    else loop r ifs size fuel ((s.push r ifs).next r)

/-- `readvar` for a list of names that goes on with so many more; `c` is what the array holds
before. -/
def readvar (r : Bool) (ifs : Str) (names : ℕ) (c : UInt8) (input : Str) : Option (List Str) := do
  let size := input.length + 2
  let (d, c, input) ← strip r ifs size c input
  loop r ifs size size ⟨d, c, input, [], 0, names, []⟩

/-! ### Fields -/

/-- A character of the line, or what a backslash and the character behind it come to. -/
structure Item where
  sep : Bool
  text : Str
  deriving DecidableEq, Repr

/-- A backslash that quotes. -/
def escape (r : Bool) (c : UInt8) : Bool := c = 92 && !r

/-- The line, without the backslashes and the joined ends. Where a backslash is the last of the
file, `last` is what it comes to. -/
def items (r : Bool) (ifs : Str) (last : List Item) : Str → List Item
  | [] => []
  | c :: s =>
    if c = 10 then []
    else if escape r c then
      match s with
      | [] => last
      | d :: s => if d = 10 then items r ifs last s else ⟨false, [d]⟩ :: items r ifs last s
    else ⟨decide (c ∈ ifs), [c]⟩ :: items r ifs last s

def text (l : List Item) : Str := l.flatMap Item.text

/-- What variables are to get: the fields, and the last variable all that is left. -/
def fields : ℕ → List Item → List Str
  | 0, _ => []
  | 1, l => [text ((l.dropWhile Item.sep).rdropWhile Item.sep)]
  | k + 2, l =>
    let l := l.dropWhile Item.sep
    text (l.takeWhile (! ·.sep)) :: fields (k + 1) (l.dropWhile (! ·.sep))

/-- No quoted backslash comes before the end of a line, and a backslash at the end of the file does
not follow a separator. -/
def Harmless (ifs : Str) : Bool → Str → Prop
  | _, [] => True
  | sep, c :: s =>
    if c = 10 then True
    else if c = 92 then
      match s with
      | [] => sep = false
      | d :: s =>
        if d = 10 then Harmless ifs sep s
        else ¬ (d = 92 ∧ s.head? = some 10) ∧ Harmless ifs false s
    else Harmless ifs (decide (c ∈ ifs)) s

/-! ### What is read -/

/-- `d` has been read, `c` holds it unless it ends the line, and with the input the items are to
come. -/
inductive Ahead (r : Bool) (ifs : Str) : UInt8 → UInt8 → Str → List Item → Prop
  | eol {d c : UInt8} {input : Str} : eolchar d = true → Ahead r ifs d c input []
  | plain {d : UInt8} {input : Str} {l : List Item} : eolchar d = false → (d = 92 → r = true) →
      Ahead r ifs (newwc r input).1 (newwc r input).1 (newwc r input).2 l →
      Ahead r ifs d d input (⟨decide (d ∈ ifs), [d]⟩ :: l)
  | quoted {input input' : Str} {l : List Item} {d : UInt8} : r = false →
      newwc r input = (d, input') →
      Ahead r ifs (newwc r input').1 (newwc r input').1 (newwc r input').2 l →
      Ahead r ifs 92 92 input (⟨false, if d = 0 then [] else [d]⟩ :: l)

variable {r : Bool} {ifs : Str}

/-- A character that a backslash quotes is read as it is, unless it is a backslash before the end of
a line. -/
theorem nextwc_quoted {d : UInt8} {s : Str} (h : ¬ (d = 92 ∧ s.head? = some 10))
    (hnil : d = 92 → s ≠ []) : nextwc (d :: s) = (d, s) := by
  by_cases hd : d = 92
  · subst hd
    obtain ⟨c, s, rfl⟩ := List.exists_cons_of_ne_nil (hnil rfl)
    have hc : c ≠ 10 := fun hc => h ⟨rfl, by rw [hc]; rfl⟩
    rw [nextwc_escape, if_neg hc]
  · exact nextwc_of_ne hd s

theorem items_of_ne {c : UInt8} (last : List Item) (s : Str) (h10 : c ≠ 10)
    (h : ¬ (c = 92 ∧ r = false)) :
    items r ifs last (c :: s) = ⟨decide (c ∈ ifs), [c]⟩ :: items r ifs last s := by
  have hescape : ¬ escape r c = true := by simpa [escape] using h
  rw [items.eq_def]
  exact (if_neg h10).trans (if_neg hescape)

theorem items_escape (last : List Item) (d : UInt8) (s : Str) :
    items false ifs last (92 :: d :: s) =
      if d = 10 then items false ifs last s else ⟨false, [d]⟩ :: items false ifs last s := by
  rw [items.eq_def]
  rfl

theorem harmless_escape (sep : Bool) (d : UInt8) (s : Str) : Harmless ifs sep (92 :: d :: s) ↔
    if d = 10 then Harmless ifs sep s
    else ¬ (d = 92 ∧ s.head? = some 10) ∧ Harmless ifs false s := by
  rw [Harmless.eq_def]
  rfl

/-- What a backslash at the end of the file comes to in the program. -/
def nothing : Item := ⟨false, []⟩

theorem ahead_eol {s : Str} (h : s = [] ∨ s.head? = some 10 ∨ s = [0]) :
    Ahead r ifs (newwc r s).1 (newwc r s).1 (newwc r s).2 [] := by
  have hd : eolchar (newwc r s).1 = true := by
    rcases h with rfl | h | rfl
    · cases r <;> rfl
    · cases s with
      | nil => cases h
      | cons c s =>
        obtain rfl : c = 10 := Option.some.inj h
        cases r
        · change eolchar (nextwc (10 :: s)).1 = true
          rw [nextwc_of_ne (by decide)]
          rfl
        · rfl
    · cases r <;> rfl
  exact .eol hd

/-- The items of a line are read one after the other. -/
theorem ahead_items (n : ℕ) : ∀ {input : Str} {sep : Bool}, input.length ≤ n → 0 ∉ input →
    (r = false → Harmless ifs sep input) →
    Ahead r ifs (newwc r input).1 (newwc r input).1 (newwc r input).2
      (items r ifs [nothing] input) := by
  induction n with
  | zero =>
    intro input sep hlen _ _
    obtain rfl : input = [] := List.length_eq_zero_iff.mp (by omega)
    exact ahead_eol (.inl rfl)
  | succ n ih =>
    intro input sep hlen hnul hharm
    cases input with
    | nil => exact ahead_eol (.inl rfl)
    | cons c s =>
      rw [List.mem_cons, not_or] at hnul
      rw [List.length_cons] at hlen
      by_cases h10 : c = 10
      · subst h10
        have hitems : items r ifs [nothing] (10 :: s) = [] := by
          rw [items.eq_def]
          rfl
        rw [hitems]
        exact ahead_eol (.inr (.inl rfl))
      by_cases h92 : c = 92 ∧ r = false
      · obtain ⟨rfl, rfl⟩ := h92
        have hharm := hharm rfl
        cases s with
        | nil => exact @Ahead.quoted false ifs _ [] _ 0 rfl rfl (ahead_eol (.inl rfl))
        | cons d s =>
          rw [List.mem_cons, not_or] at hnul
          rw [List.length_cons] at hlen
          rw [harmless_escape] at hharm
          rw [items_escape]
          change Ahead false ifs (nextwc (92 :: d :: s)).1 (nextwc (92 :: d :: s)).1
            (nextwc (92 :: d :: s)).2 _
          rw [nextwc_escape]
          by_cases hd : d = 10
          · rw [if_pos hd] at hharm ⊢
            rw [if_pos hd]
            exact ih (by omega) hnul.2.2 fun _ => hharm
          · rw [if_neg hd] at hharm ⊢
            rw [if_neg hd]
            have hitem : (⟨false, [d]⟩ : Item) = ⟨false, if d = 0 then [] else [d]⟩ := by
              rw [if_neg fun h0 => hnul.2.1 h0.symm]
            rw [hitem]
            by_cases hend : d = 92 ∧ s = []
            · obtain ⟨rfl, rfl⟩ := hend
              exact @Ahead.quoted false ifs _ [0] _ 92 rfl rfl (ahead_eol (.inr (.inr rfl)))
            · refine .quoted rfl (nextwc_quoted hharm.1 fun hd hs => hend ⟨hd, hs⟩) ?_
              exact ih (by omega) hnul.2.2 fun _ => hharm.2
      · rw [items_of_ne [nothing] s h10 h92]
        have hread : newwc r (c :: s) = (c, s) := by
          cases r
          · exact nextwc_of_ne (fun h => h92 ⟨h, rfl⟩) s
          · rfl
        rw [hread]
        refine .plain (by simp [eolchar, h10, Ne.symm hnul.1]) (fun h => ?_) ?_
        · cases r
          · exact absurd ⟨h, rfl⟩ h92
          · rfl
        · refine @ih s (decide (c ∈ ifs)) (by omega) hnul.2 fun hr => ?_
          have hharm := hharm hr
          rw [Harmless.eq_def] at hharm
          simp only [if_neg h10, if_neg fun h => h92 ⟨h, hr⟩] at hharm
          exact hharm

/-! ### The loops -/

theorem strip_eq (hifs : 92 ∉ ifs ∧ 10 ∉ ifs ∧ 0 ∉ ifs) (fuel : ℕ) : ∀ {c : UInt8} {input : Str}
    {l : List Item}, l.length < fuel →
    Ahead r ifs (newwc r input).1 (newwc r input).1 (newwc r input).2 l →
    ∃ d c' input', strip r ifs fuel c input = some (d, c', input') ∧
      Ahead r ifs d c' input' (l.dropWhile Item.sep) := by
  induction fuel with
  | zero => intro _ _ _ h; omega
  | succ fuel ih =>
    intro c input l hlen hahead
    rw [strip]
    generalize newwc r input = p at hahead ⊢
    obtain ⟨d, input'⟩ := p
    dsimp only at hahead ⊢
    cases hahead with
    | eol hd => exact ⟨d, c, input', by rw [if_pos hd], .eol hd⟩
    | @plain _ _ l hd hr hnext =>
      rw [if_neg (by simp [hd])]
      by_cases hsep : d ∈ ifs
      · rw [if_pos hsep, List.dropWhile_cons_of_pos (by simp [hsep])]
        exact ih (by simpa using hlen) hnext
      · rw [if_neg hsep, List.dropWhile_cons_of_neg (by simp [hsep])]
        exact ⟨d, d, input', rfl, .plain hd hr hnext⟩
    | quoted hr hnew hnext =>
      rw [if_neg (by decide), if_neg hifs.1, List.dropWhile_cons_of_neg (by simp)]
      exact ⟨92, 92, input', rfl, .quoted hr hnew hnext⟩

theorem fields_nil (k : ℕ) : fields k [] = List.replicate k [] := by
  induction k with
  | zero => rfl
  | succ k ih =>
    cases k with
    | zero => rfl
    | succ k =>
      rw [fields, List.replicate_succ, ← ih]
      rfl

/-- What the variables get when so much is on the stack and these items are to come. -/
def rest (names : ℕ) (stak : Str) (oldstak : ℕ) (l : List Item) : List Str :=
  if l = [] then stak :: List.replicate names []
  else if names = 0 then
    [if l.all Item.sep then stak.take oldstak else stak ++ text (l.rdropWhile Item.sep)]
  else (stak ++ text (l.takeWhile (! ·.sep))) :: fields names (l.dropWhile (! ·.sep))

theorem dropWhile_concat {e : Item} {m : List Item} : e.sep = false ∨ ¬ m.all Item.sep →
    (m ++ [e]).dropWhile Item.sep = m.dropWhile Item.sep ++ [e] := by
  induction m with
  | nil =>
    rintro (he | hm)
    · rw [List.nil_append, List.dropWhile_cons_of_neg (by simp [he])]
      rfl
    · exact absurd rfl hm
  | cons x m ih =>
    intro hm
    by_cases hx : x.sep = true
    · rw [List.cons_append, List.dropWhile_cons_of_pos hx, List.dropWhile_cons_of_pos hx]
      exact ih (hm.imp_right fun hm hall => hm (by simp [hx, hall]))
    · rw [List.cons_append, List.dropWhile_cons_of_neg hx, List.dropWhile_cons_of_neg hx]
      rfl

theorem rdropWhile_cons {e : Item} {l : List Item} (h : e.sep = false ∨ ¬ l.all Item.sep) :
    (e :: l).rdropWhile Item.sep = e :: l.rdropWhile Item.sep := by
  rw [List.rdropWhile, List.reverse_cons, dropWhile_concat (by simpa using h), List.reverse_append]
  rfl

theorem rdropWhile_all {l : List Item} (h : l.all Item.sep = true) :
    l.rdropWhile Item.sep = [] :=
  List.rdropWhile_eq_nil_iff.mpr fun x hx => List.all_eq_true.mp h x hx

/-- A character that is no separator is on the stack. -/
theorem rest_cons (names : ℕ) (stak : Str) (oldstak : ℕ) {e : Item} (he : e.sep = false)
    (l : List Item) : rest names stak oldstak (e :: l) =
      rest names (stak ++ e.text) (stak ++ e.text).length l := by
  have hall : ¬ (e :: l).all Item.sep = true := by simp [he]
  have htext : ∀ m, stak ++ text (e :: m) = stak ++ e.text ++ text m := fun m => by
    rw [text, List.flatMap_cons, List.append_assoc]
    rfl
  have htake : (e :: l).takeWhile (! ·.sep) = e :: l.takeWhile (! ·.sep) :=
    List.takeWhile_cons_of_pos (by simp [he])
  have hdrop : (e :: l).dropWhile (! ·.sep) = l.dropWhile (! ·.sep) :=
    List.dropWhile_cons_of_pos (by simp [he])
  rw [rest, if_neg (List.cons_ne_nil _ _), rest, rdropWhile_cons (.inl he), htext, htake, htext,
    hdrop, if_neg hall]
  by_cases hl : l = []
  · subst hl
    rw [if_pos rfl]
    by_cases h0 : names = 0
    · subst h0
      simp [text]
    · rw [if_neg h0]
      simp [text, fields_nil]
  · rw [if_neg hl]
    by_cases h0 : names = 0
    · rw [if_pos h0, if_pos h0]
      by_cases hsep : l.all Item.sep = true
      · rw [if_pos hsep, rdropWhile_all hsep, List.take_length]
        simp [text]
      · rw [if_neg hsep]
    · rw [if_neg h0, if_neg h0]

theorem rest_sep (stak : Str) {oldstak : ℕ} (hold : oldstak ≤ stak.length) {e : Item}
    (he : e.sep = true) {l : List Item} (hl : l ≠ []) :
    rest 0 stak oldstak (e :: l) = rest 0 (stak ++ e.text) oldstak l := by
  rw [rest, if_neg (List.cons_ne_nil _ _), if_pos rfl, rest, if_neg hl, if_pos rfl, List.all_cons,
    he, Bool.true_and]
  by_cases hsep : l.all Item.sep = true
  · rw [if_pos hsep, if_pos hsep, List.take_append_of_le_length hold]
  · rw [if_neg hsep, if_neg hsep, rdropWhile_cons (.inr hsep), text, List.flatMap_cons,
      List.append_assoc]
    rfl

/-- The first item that is not stripped is no separator. -/
theorem head_dropWhile (l : List Item) : l.dropWhile Item.sep = [] ∨
    ∃ e ∈ (l.dropWhile Item.sep).head?, e.sep = false := by
  cases h : l.dropWhile Item.sep with
  | nil => exact .inl rfl
  | cons e m =>
    have := List.head?_dropWhile_not Item.sep l
    rw [h] at this
    exact .inr ⟨e, rfl, by simpa using this⟩

/-- The items that are left after a separator belong to the next variable. -/
theorem fields_succ (names oldstak : ℕ) (l : List Item) :
    fields (names + 1) l = rest names [] oldstak (l.dropWhile Item.sep) := by
  rw [rest]
  by_cases hl : l.dropWhile Item.sep = []
  · rw [if_pos hl]
    cases names with
    | zero => rw [fields, hl]; rfl
    | succ k => rw [fields, hl, ← fields_nil]; rfl
  · rw [if_neg hl]
    cases names with
    | zero =>
      obtain ⟨e, he, hsep⟩ := (head_dropWhile l).resolve_left hl
      have hall : ¬ (l.dropWhile Item.sep).all Item.sep = true := fun hall => by
        have := List.all_eq_true.mp hall e (List.mem_of_mem_head? he)
        rw [hsep] at this
        cases this
      rw [fields, if_pos rfl, if_neg hall]
      rfl
    | succ k => rw [fields, if_neg (Nat.succ_ne_zero k)]; rfl

/-- At a separator a variable gets what is on the stack, and the next one begins. -/
theorem rest_split {names : ℕ} (hnames : 0 < names) (stak : Str) (oldstak : ℕ) {e : Item}
    (he : e.sep = true) (l : List Item) : rest names stak oldstak (e :: l) =
      stak :: rest (names - 1) [] oldstak (l.dropWhile Item.sep) := by
  obtain ⟨k, rfl⟩ : ∃ k, names = k + 1 := ⟨names - 1, by omega⟩
  rw [rest, if_neg (List.cons_ne_nil _ _), if_neg (Nat.succ_ne_zero k),
    List.takeWhile_cons_of_neg (by simp [he]), List.dropWhile_cons_of_neg (by simp [he]),
    fields_succ k oldstak, List.dropWhile_cons_of_pos he]
  simp [text]

/-- After `d = newwc()` the stack is cut if the line ends. -/
theorem ahead_next {s : State} {l : List Item}
    (h : Ahead r ifs (newwc r s.input).1 (newwc r s.input).1 (newwc r s.input).2 l) :
    Ahead r ifs (s.next r).d (s.next r).c (s.next r).input l ∧ (s.next r).names = s.names ∧
      (s.next r).assigned = s.assigned ∧ (s.next r).oldstak = s.oldstak ∧
      (s.next r).stak = if l = [] then s.stak.take s.oldstak else s.stak := by
  rw [State.next]
  generalize newwc r s.input = p at h ⊢
  obtain ⟨d, input⟩ := p
  dsimp only at h ⊢
  cases h with
  | eol hd =>
    rw [if_pos hd]
    exact ⟨.eol hd, rfl, rfl, rfl, rfl⟩
  | plain hd hr hnext =>
    rw [if_neg (by simp [hd])]
    exact ⟨.plain hd hr hnext, rfl, rfl, rfl, rfl⟩
  | quoted hr hnew hnext =>
    rw [if_neg (by decide)]
    exact ⟨.quoted hr hnew hnext, rfl, rfl, rfl, rfl⟩

/-- An item that is no separator has been put on the stack, or one that is for the last variable. -/
theorem loop_next {s : State} {l : List Item} {e : Item} (stak : Str) (oldstak : ℕ)
    (hstak : s.stak = stak ++ e.text)
    (hold : e.sep = false ∧ s.oldstak = s.stak.length ∨
      e.sep = true ∧ s.names = 0 ∧ s.oldstak = oldstak ∧ oldstak ≤ stak.length) :
    rest s.names (if l = [] then s.stak.take s.oldstak else s.stak) s.oldstak l =
      rest s.names stak oldstak (e :: l) := by
  rcases hold with ⟨he, hold⟩ | ⟨he, h0, hold, hle⟩
  · rw [rest_cons _ _ _ he, hold, List.take_length, ite_self, hstak]
  · rw [h0, hold, hstak]
    by_cases hl : l = []
    · subst hl
      rw [if_pos rfl, List.take_append_of_le_length hle]
      simp [rest, he]
    · rw [if_neg hl, rest_sep stak hle he hl]

theorem push_plain {s : State} (h : s.d = 92 → r = true) :
    s.push r ifs = { s with
      stak := s.stak ++ [s.c]
      oldstak := if s.c ∈ ifs then s.oldstak else (s.stak ++ [s.c]).length } := by
  rw [State.push, if_neg fun hd => Bool.false_ne_true (hd.2.symm.trans (h hd.1))]

theorem loop_eq (hifs : 92 ∉ ifs ∧ 10 ∉ ifs ∧ 0 ∉ ifs) (size fuel : ℕ) : ∀ {s : State}
    {l : List Item}, l.length < fuel → l.length < size → Ahead r ifs s.d s.c s.input l →
    (l ≠ [] → s.names = 0 → (∃ e ∈ l.head?, e.sep = false) ∨ s.oldstak ≤ s.stak.length) →
    loop r ifs size fuel s = some (s.assigned ++ rest s.names s.stak s.oldstak l) := by
  induction fuel with
  | zero => intro _ _ h; omega
  | succ fuel ih =>
    intro s l hlen hsize hahead hold
    -- one item is put on the stack, and the others are to come
    have hput : ∀ {t : State} {m : List Item} {e : Item} , l = e :: m →
        Ahead r ifs (newwc r t.input).1 (newwc r t.input).1 (newwc r t.input).2 m →
        t.names = s.names → t.assigned = s.assigned → t.stak = s.stak ++ e.text →
        (e.sep = false ∧ t.oldstak = t.stak.length ∨
          e.sep = true ∧ t.names = 0 ∧ t.oldstak = s.oldstak ∧ s.oldstak ≤ s.stak.length) →
        loop r ifs size fuel (t.next r) =
          some (s.assigned ++ rest s.names s.stak s.oldstak l) := by
      intro t m e hl hm hnames hassigned hstak hcase
      obtain ⟨hnext, hn, ha, ho, hs⟩ := ahead_next hm
      rw [hl, List.length_cons] at hlen hsize
      have hcut := loop_next s.stak s.oldstak hstak hcase (l := m)
      rw [ih (by omega) (by omega) hnext, hn, ha, ho, hs, hcut, hl, hnames, hassigned]
      intro hne _
      right
      rw [ho, hs, if_neg hne]
      rcases hcase with ⟨-, h⟩ | ⟨-, -, h, hle⟩
      · exact h.le
      · rw [h, hstak, List.length_append]
        omega
    rw [loop]
    generalize hd : s.d = d at hahead
    generalize hc : s.c = c at hahead
    generalize hi : s.input = input at hahead
    cases hahead with
    | eol heol =>
      rw [if_pos (.inr heol), if_pos heol, rest, if_pos rfl, List.append_assoc]
      rfl
    | @plain d input m heol hr hnext =>
      by_cases hsplit : 0 < s.names ∧ d ∈ ifs
      · have hsep : (⟨decide (d ∈ ifs), [d]⟩ : Item).sep = true := decide_eq_true hsplit.2
        obtain ⟨d', c', input', hstrip, hnext'⟩ := strip_eq hifs size (c := d) (l := m)
          (by simp at hsize; omega) hnext
        rw [if_pos (.inl hsplit), if_neg (by simp [heol]), hstrip]
        change loop r ifs size fuel ⟨d', c', input', [], s.oldstak, s.names - 1,
          s.assigned ++ [s.stak]⟩ = _
        have hle := (List.dropWhile_sublist Item.sep (l := m)).length_le
        rw [ih (l := m.dropWhile Item.sep) (by simp at hlen; omega) (by simp at hsize; omega) hnext'
          fun hne _ => .inl ((head_dropWhile m).resolve_left hne)]
        rw [rest_split hsplit.1 _ _ hsep, List.append_assoc]
        rfl
      · have hcond : ¬ ((0 < s.names ∧ d ∈ ifs) ∨ eolchar d = true) := by simp [heol, hsplit]
        rw [if_neg hcond, push_plain (by rw [hd]; exact hr), hc]
        refine hput rfl (by rw [hi]; exact hnext) rfl rfl rfl ?_
        by_cases hmem : d ∈ ifs
        · have h0 : s.names = 0 := by
            by_contra hne
            exact hsplit ⟨Nat.pos_of_ne_zero hne, hmem⟩
          refine .inr ⟨decide_eq_true hmem, h0, if_pos hmem, ?_⟩
          refine (hold (List.cons_ne_nil _ _) h0).resolve_left ?_
          rintro ⟨e, he, hsep⟩
          obtain rfl := Option.some.inj he
          exact of_decide_eq_false hsep hmem
        · exact .inl ⟨decide_eq_false hmem, if_neg hmem⟩
    | @quoted input input' m d hr hnew hnext =>
      have hcond : ¬ ((0 < s.names ∧ (92 : UInt8) ∈ ifs) ∨ eolchar 92 = true) := by
        simp [hifs.1, eolchar]
      rw [if_neg hcond, State.push, if_pos ⟨hd, hr⟩, hi, hnew]
      exact hput rfl hnext rfl rfl rfl (.inl ⟨rfl, rfl⟩)

/-! ### `readvar` -/

theorem text_append (l m : List Item) : text (l ++ m) = text l ++ text m := List.flatMap_append

/-- What stands for a backslash at the end of the file makes no difference behind a character that
is no separator. -/
theorem fields_nothing (k : ℕ) : ∀ {l : List Item}, (∀ e ∈ l.getLast?, e.sep = false) →
    fields k (l ++ [nothing]) = fields k l := by
  induction k with
  | zero => intro l _; rfl
  | succ k ih =>
    intro l hl
    have hlast : ∀ {m}, m <:+ l → ∀ e ∈ m.getLast?, e.sep = false := by
      rintro m ⟨t, rfl⟩ e he
      exact hl e (by rw [List.getLast?_append, he]; rfl)
    have hdrop := dropWhile_concat (e := nothing) (m := l) (.inl rfl)
    have hm := List.dropWhile_suffix Item.sep (l := l)
    cases k with
    | zero =>
      rw [fields, fields, hdrop, List.rdropWhile_concat_neg _ _ _ (by decide), text_append]
      have hkeep : (l.dropWhile Item.sep).rdropWhile Item.sep = l.dropWhile Item.sep := by
        rw [List.rdropWhile_eq_self_iff]
        intro hne
        have := hlast hm _ (List.getLast?_eq_some_getLast hne)
        simp [this]
      rw [hkeep]
      simp [text, nothing]
    | succ k =>
      rw [fields, fields, hdrop]
      generalize l.dropWhile Item.sep = m at hm
      rw [List.takeWhile_append, List.dropWhile_append]
      have htext : text (m ++ [nothing]) = text m := by simp [text, nothing]
      congr 1
      · split_ifs with hall
        · have : m.takeWhile (! ·.sep) = m :=
            (List.takeWhile_prefix _).eq_of_length hall
          rw [this]
          exact htext
        · rfl
      · split_ifs with hnil
        · rw [List.isEmpty_iff.mp hnil]
          rfl
        · exact ih (hlast ((List.dropWhile_suffix _).trans hm))

theorem items_nothing (n : ℕ) : ∀ {input : Str} {sep : Bool}, input.length ≤ n →
    Harmless ifs sep input → ∃ l, items false ifs [] input = l ∧
      (items false ifs [nothing] input = l ∨ items false ifs [nothing] input = l ++ [nothing] ∧
        (l = [] ∧ sep = false ∨ ∃ e ∈ l.getLast?, e.sep = false)) := by
  induction n with
  | zero =>
    intro input sep hlen _
    obtain rfl : input = [] := List.length_eq_zero_iff.mp (by omega)
    exact ⟨[], rfl, .inl rfl⟩
  | succ n ih =>
    intro input sep hlen hharm
    -- one more item before those of the rest of the line
    have hcons : ∀ {s : Str} {sep' : Bool} {e : Item}, s.length ≤ n → Harmless ifs sep' s →
        (sep' = false → e.sep = false) →
        (∀ last, items false ifs last input = e :: items false ifs last s) →
        ∃ l, items false ifs [] input = l ∧
          (items false ifs [nothing] input = l ∨ items false ifs [nothing] input = l ++ [nothing] ∧
            (l = [] ∧ sep = false ∨ ∃ e ∈ l.getLast?, e.sep = false)) := by
      intro s sep' e hs hharm' hsep hitems
      obtain ⟨l, hl, hlast⟩ := ih hs hharm'
      refine ⟨e :: l, by rw [hitems, hl], ?_⟩
      rw [hitems]
      rcases hlast with h | ⟨h, ⟨rfl, h0⟩ | ⟨x, hx, hxsep⟩⟩
      · exact .inl (by rw [h])
      · exact .inr ⟨by rw [h]; rfl, .inr ⟨e, rfl, hsep h0⟩⟩
      · refine .inr ⟨by rw [h]; rfl, .inr ⟨x, ?_, hxsep⟩⟩
        rw [List.getLast?_cons, hx]
        rfl
    cases input with
    | nil => exact ⟨[], rfl, .inl rfl⟩
    | cons c s =>
      rw [List.length_cons] at hlen
      by_cases h10 : c = 10
      · have hitems : ∀ last, items false ifs last (c :: s) = [] := fun last => by
          rw [items.eq_def]
          exact if_pos h10
        exact ⟨[], hitems [], .inl (hitems [nothing])⟩
      by_cases h92 : c = 92
      · subst h92
        cases s with
        | nil =>
          refine ⟨[], rfl, .inr ⟨rfl, .inl ⟨rfl, ?_⟩⟩⟩
          simpa [Harmless] using hharm
        | cons d s =>
          rw [List.length_cons] at hlen
          rw [harmless_escape] at hharm
          by_cases hd : d = 10
          · rw [if_pos hd] at hharm
            simp only [items_escape, if_pos hd]
            exact ih (by omega) hharm
          · rw [if_neg hd] at hharm
            exact hcons (by omega) hharm.2 (fun _ => rfl) fun last => by
              rw [items_escape, if_neg hd]
      · rw [Harmless.eq_def] at hharm
        simp only [if_neg h10, if_neg h92] at hharm
        exact hcons (by omega) hharm id fun last => items_of_ne last s h10 fun h => h92 h.1

theorem length_items (n : ℕ) : ∀ {input : Str}, input.length ≤ n →
    (items r ifs [nothing] input).length ≤ input.length := by
  induction n with
  | zero =>
    intro input hlen
    obtain rfl : input = [] := List.length_eq_zero_iff.mp (by omega)
    exact le_rfl
  | succ n ih =>
    intro input hlen
    cases input with
    | nil => exact le_rfl
    | cons c s =>
      rw [List.length_cons] at hlen
      by_cases h10 : c = 10
      · rw [items.eq_def]
        simp [h10]
      by_cases h92 : c = 92 ∧ r = false
      · obtain ⟨rfl, rfl⟩ := h92
        cases s with
        | nil => exact le_rfl
        | cons d s =>
          rw [List.length_cons] at hlen
          have := @ih s (by omega)
          rw [items_escape]
          split_ifs <;> simp <;> omega
      · rw [items_of_ne [nothing] s h10 h92, List.length_cons, List.length_cons]
        exact Nat.succ_le_succ (ih (by omega))

theorem items_raw (last : List Item) (input : Str) :
    items true ifs last input = items true ifs [] input := by
  induction input with
  | nil => rfl
  | cons c s ih =>
    by_cases h10 : c = 10
    · rw [items.eq_def, items.eq_def true ifs []]
      simp [h10]
    · rw [items_of_ne last s h10 (by simp), items_of_ne [] s h10 (by simp), ih]

/-- What `readvar` is for: every variable gets its field, and the last one the rest of the line. -/
def Meets (r : Bool) (ifs : Str) (names : ℕ) (input : Str) : Prop :=
  ∀ c, readvar r ifs names c input = some (fields (names + 1) (items r ifs [] input))

/-- `readvar` does so for every list of names and every line, with `-r`, and without it for a line
in which no quoted backslash comes before the end of a line and no backslash at the end of the file
follows a separator. -/
theorem readvar_meets (hifs : 92 ∉ ifs ∧ 10 ∉ ifs ∧ 0 ∉ ifs) (names : ℕ) {input : Str}
    (hnul : 0 ∉ input) (hharm : r = false → Harmless ifs false input) : Meets r ifs names input := by
  intro c
  have hlen := @length_items r ifs input.length input le_rfl
  have hahead := @ahead_items r ifs input.length input false le_rfl hnul hharm
  obtain ⟨d, c', input', hstrip, hnext⟩ :=
    strip_eq hifs (input.length + 2) (c := c) (by omega) hahead
  have hle := (List.dropWhile_sublist Item.sep (l := items r ifs [nothing] input)).length_le
  rw [readvar, hstrip]
  change loop r ifs (input.length + 2) (input.length + 2) ⟨d, c', input', [], 0, names, []⟩ = _
  rw [loop_eq hifs _ _ (by omega) (by omega) hnext fun _ _ => .inr le_rfl, ← fields_succ,
    List.nil_append]
  cases r with
  | true => rw [items_raw]
  | false =>
    obtain ⟨l, hl, heq⟩ := items_nothing input.length le_rfl (hharm rfl)
    rcases heq with heq | ⟨heq, hlast⟩
    · rw [heq, hl]
    · rw [heq, hl, fields_nothing]
      rcases hlast with ⟨rfl, -⟩ | ⟨e, he, hsep⟩
      · intro e he
        cases he
      · intro e' he'
        exact Option.some.inj (he.symm.trans he') ▸ hsep

theorem readvar_meets_line : Meets false [32] 1 [97, 32, 98, 92, 32, 10] :=
  readvar_meets ⟨by decide, by decide, by decide⟩ 1 (by decide) fun _ => by simp [Harmless]

/-- The second of two backslashes before the end of a line joins the next line. -/
theorem not_meets_backslash : ¬ Meets false [32] 0 [97, 92, 92, 10, 98, 10] := by
  intro h
  have := h 0
  revert this
  decide

end Unitas.Sh.Readvar
