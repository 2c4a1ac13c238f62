import Unitas.Sh.Fields
import Unitas.Sh.Macro

/-! Words as they are read, and single quotes: what stands between them comes through `word`,
`macro`, `split` and `trim` as it is. The input is without null characters, which are not read; at
its end they are read. -/
namespace Unitas.Sh.Word
open Fields (arguments Item)
open Macro

/-- `eofmeta`: the end, a blank, a newline, or one of `& ( ) ; < > ^ |`. -/
def eofmeta (c : UInt8) : Bool :=
  c = 0 || c = 9 || c = 10 || c = 32 || c = 38 || c = 40 || c = 41 || c = 59 || c = 60 || c = 62 ||
    c = 94 || c = 124

def nextwc : Str → UInt8 × Str
  | [] => (0, [])
  | d :: s =>
    if d = 92 then
      match s with
      | [] => (92, [0])
      | c :: s => if c = 10 then nextwc s else (92, c :: s)
    else (d, s)

theorem nextwc_of_ne {c : UInt8} (h : c ≠ 92) (s : Str) : nextwc (c :: s) = (c, s) := by
  unfold nextwc
  exact if_neg h

theorem nextwc_escape (c : UInt8) (s : Str) :
    nextwc (92 :: c :: s) = if c = 10 then nextwc s else (92, c :: s) := by
  rw [nextwc.eq_def]
  exact if_pos rfl

/-- Between single quotes. -/
def literal : Str → Str × Str
  | [] => ([], [])
  | c :: s =>
    if c = 39 then ([], s)
    else
      let (arg, s) := literal s
      (92 :: c :: arg, s)

/-- Up to the quote `d`, which is not a backslash. -/
def quotation (d : UInt8) : Str → Str × Str
  | [] => ([0], [])
  | [92] => ([92, 0, 0], [])
  | 92 :: cc :: s =>
    if cc = 10 then quotation d s
    else
      let (arg, s) := quotation d s
      (92 :: cc :: arg, s)
  | c :: s =>
    if c = d then ([c], s)
    else
      let (arg, s) := quotation d s
      (c :: arg, s)

/-- A turn of the loop of `word`, for the character `c`: what goes to the word, and the rest. -/
def part (c : UInt8) (s : Str) : Str × Str :=
  if c = 39 then
    let (arg, s) := literal s
    (if arg = [] then [34, 34] else arg, s)
  else if c = 92 then
    match s with
    | [] => ([92, 0], [])
    | cc :: s => ([92, cc], s)
  else if c = 34 ∨ c = 96 then
    let (arg, s) := quotation c s
    (c :: arg, s)
  else ([c], s)

/-- The word, and what `peekn` and the input are after it. -/
def wordLoop : ℕ → UInt8 → Str → Option (Str × UInt8 × Str)
  | 0, _, _ => none
  | fuel + 1, c, s =>
    let (arg, s) := part c s
    let (c, s) := nextwc s
    if eofmeta c then some (arg, c, s)
    else (wordLoop fuel c s).map fun r => (arg ++ r.1, r.2)

/-- Blanks and comments before a word. -/
def skipBlanks : ℕ → Str → UInt8 × Str
  | 0, s => nextwc s
  | fuel + 1, s =>
    let (c, s) := nextwc s
    if space c then skipBlanks fuel s
    else if c = 35 then skipBlanks fuel (s.dropWhile (· ≠ 10))
    else (c, s)

/-- `word`, where there is one and not a symbol. Whether it is reserved or the number of a
redirection is found out from what this gives. -/
def word (s : Str) : Option (Str × UInt8 × Str) :=
  let (c, s) := skipBlanks (s.length + 1) s
  if eofmeta c then none else wordLoop (s.length + 1) c s

/-! ### Single quotes -/

/-- A string with a backslash before each character. -/
def escaped (s : Str) : Str := s.flatMap fun c => [92, c]

theorem literal_eq {s : Str} (hs : 39 ∉ s) (rest : Str) :
    literal (s ++ 39 :: rest) = (escaped s, rest) := by
  induction s with
  | nil => rfl
  | cons c s ih =>
    obtain ⟨hc, hs⟩ := not_or.mp (List.mem_cons.not.mp hs)
    rw [List.cons_append, literal, if_neg fun h => hc h.symm, ih hs]
    rfl

/-- What `word` makes of the string between quotes. -/
def quotedWord (s : Str) : Str := if s = [] then [34, 34] else escaped s

theorem word_quoted {s rest : Str} (hs : 39 ∉ s) (hrest : eofmeta (nextwc rest).1 = true) :
    word (39 :: (s ++ 39 :: rest)) = some (quotedWord s, nextwc rest) := by
  have hskip (fuel : ℕ) : skipBlanks (fuel + 1) (39 :: (s ++ 39 :: rest)) =
      (39, s ++ 39 :: rest) := by
    have hnext : nextwc (39 :: (s ++ 39 :: rest)) = (39, s ++ 39 :: rest) :=
      nextwc_of_ne (by decide) _
    rw [skipBlanks, hnext]
    rfl
  have hempty : escaped s = [] ↔ s = [] := by
    unfold escaped
    cases s <;> simp
  have hpart : part 39 (s ++ 39 :: rest) = (quotedWord s, rest) := by
    unfold part quotedWord
    rw [if_pos rfl, literal_eq hs]
    simp only [hempty]
  unfold word
  rw [hskip]
  dsimp only
  rw [if_neg (by decide), wordLoop, hpart]
  dsimp only
  rw [if_pos hrest]

variable {Body : Type}

/-- Characters with backslashes are copied as they are. -/
theorem copyto_escaped (e : Env) {s : Str} (h0 : 0 ∉ s) (fuel : ℕ) (hfuel : s.length + 2 ≤ fuel)
    (stak : Str) (names : Names.State Body) :
    copyto e fuel 0 true ⟨escaped s, stak, false, 0, names⟩ =
      .ok ⟨[], stak ++ escaped s, false, 0, names⟩ := by
  induction s generalizing fuel stak with
  | nil =>
    obtain ⟨f, rfl⟩ : ∃ f, fuel = f + 2 := ⟨fuel - 2, by simp at hfuel; omega⟩
    simp [copyto, getch, escaped, State.readwc, subchar, bind, Except.bind]
  | cons c s ih =>
    obtain ⟨-, h0⟩ := not_or.mp (List.mem_cons.not.mp h0)
    rw [List.length_cons] at hfuel
    obtain ⟨f, rfl⟩ : ∃ f, fuel = f + 2 := ⟨fuel - 2, by omega⟩
    have hescaped : escaped (c :: s) = 92 :: c :: escaped s := rfl
    have hget (word : State Body → Except Stop (State Body)) :
        getch e true word 0 (f + 1) false ⟨92 :: c :: escaped s, stak, false, 0, names⟩ =
          .ok (92, ⟨c :: escaped s, stak, false, 0, names⟩) := by
      rw [getch]
      rfl
    have hcopy : copyChar 92 ⟨c :: escaped s, stak, false, 0, names⟩ =
        ⟨escaped s, stak ++ [92, c], false, 0, names⟩ := rfl
    rw [hescaped, copyto, hget]
    simp only [bind, Except.bind]
    rw [if_pos (by decide), hcopy, ih h0 (f + 1) (by omega)]
    simp

theorem macroText_quoted (e : Env) {s : Str} (h0 : 0 ∉ s) (fuel : ℕ)
    (hfuel : (quotedWord s).length + 2 ≤ fuel) (names : Names.State Body) :
    macroText e fuel (quotedWord s) names =
      .ok (if s = [] then [92, 0] else escaped s, names) := by
  unfold quotedWord at hfuel ⊢
  unfold macroText
  by_cases hnil : s = []
  · rw [if_pos hnil] at hfuel ⊢
    obtain ⟨f, rfl⟩ : ∃ f, fuel = f + 4 := ⟨fuel - 4, by simp at hfuel; omega⟩
    rw [if_pos hnil]
    simp [copyto, getch, State.readwc, subchar, bind, Except.bind]
  · rw [if_neg hnil] at hfuel ⊢
    have hlen : s.length ≤ (escaped s).length := by
      unfold escaped
      rw [List.length_flatMap]
      simp
      omega
    have htake : (escaped s).takeWhile (· ≠ 0) = escaped s := by
      refine List.takeWhile_eq_self_iff.mpr fun c hc => ?_
      rw [decide_eq_true_iff]
      rintro rfl
      obtain ⟨d, hd, hmem⟩ := List.mem_flatMap.mp hc
      rcases List.mem_cons.mp hmem with h | h
      · exact absurd h (by decide)
      · rw [List.mem_singleton.mp h] at h0
        exact h0 hd
    rw [htake, copyto_escaped e h0 fuel (by omega)]
    have hzero : ¬ ((0 : UInt8) ≠ 0 ∧ ([] : Str) ++ escaped s = []) := fun h => h.1 rfl
    simp only [bind, Except.bind]
    rw [if_neg hzero, if_neg hnil]
    rfl

/-- Whatever stands between single quotes comes out as one argument. What comes after the word in
the input ends it, and `ifs` and what is behind the text on the stack do not matter. -/
theorem single_quotes (s rest : Str) (h0 : 0 ∉ s) (hs : 39 ∉ s)
    (hrest : eofmeta (nextwc rest).1 = true) :
    ∃ argval, word (39 :: (s ++ 39 :: rest)) = some (argval, nextwc rest) ∧
      ∀ (e : Env) (names : Names.State Body) (fuel : ℕ), argval.length + 2 ≤ fuel →
        ∃ text, macroText e fuel argval names = .ok (text, names) ∧
          ∀ ifs junk : Str, arguments ifs (text ++ 0 :: junk) = some [s] := by
  refine ⟨quotedWord s, word_quoted hs hrest, fun e names fuel hfuel =>
    ⟨_, macroText_quoted e h0 fuel hfuel names, fun ifs junk => ?_⟩⟩
  have hargs (items : List Item) (hne : items ≠ [])
      (hquoted : ∀ i ∈ items, ∃ c, i = .quoted c) :
      arguments ifs (Fields.bytes items ++ 0 :: junk) = some [Fields.text items] := by
    have hok : ∀ i ∈ items, i.Ok := by
      intro i hi
      obtain ⟨c, rfl⟩ := hquoted i hi
      trivial
    have hsep : ∀ i ∈ items, i.separates ifs = false := by
      intro i hi
      obtain ⟨c, rfl⟩ := hquoted i hi
      rfl
    rw [Fields.arguments_eq ifs items hok junk]
    unfold Fields.fields
    rw [List.splitOnP_eq_singleton hsep]
    simp [hne]
  by_cases hnil : s = []
  · rw [if_pos hnil, hnil]
    exact hargs [.quoted 0] (by simp) (by simp)
  · rw [if_neg hnil]
    have hbytes : Fields.bytes (s.map Item.quoted) = escaped s := by
      simp [Fields.bytes, escaped, List.flatMap_map, Item.bytes]
    have htext : Fields.text (s.map Item.quoted) = s := by
      unfold Fields.text
      rw [List.flatMap_map]
      have hone : s.flatMap (fun c => (Item.quoted c).text) = s.flatMap fun c => [c] := by
        refine List.flatMap_congr fun c hc => ?_
        have hc0 : c ≠ 0 := fun h => h0 (h ▸ hc)
        exact if_neg hc0
      rw [hone]
      simp
    have h := hargs (s.map Item.quoted) (by simpa using hnil) (by simp)
    rw [hbytes, htext] at h
    exact h

/-- A dollar sign, a blank and a backslash. -/
theorem single_quotes_dollar :
    ∃ argval, word (39 :: ([36, 32, 92] ++ 39 :: [10])) = some (argval, nextwc [10]) ∧
      ∀ (e : Env) (names : Names.State Unit) (fuel : ℕ), argval.length + 2 ≤ fuel →
        ∃ text, macroText e fuel argval names = .ok (text, names) ∧
          ∀ ifs junk : Str, arguments ifs (text ++ 0 :: junk) = some [[36, 32, 92]] :=
  single_quotes [36, 32, 92] [10] (by decide) (by decide) (by decide)

end Unitas.Sh.Word
