import Mathlib.Data.List.Infix

/-! Patterns of stars and one-character elements, and their backtracking search. -/
namespace Unitas.Glob

variable {ε α : Type*} (accepts : ε → α → Bool)

/-- `none` is a star, `some e` matches one character. -/
def Matches : List (Option ε) → List α → Prop
  | [], s => s = []
  | some _ :: _, [] => False
  | some e :: p, c :: s => accepts e c = true ∧ Matches p s
  | none :: p, s => ∃ v, v <:+ s ∧ Matches p v

/-- A star that is not last leaves at least one character to the elements after it. -/
def Strict : List (Option ε) → List α → Prop
  | [], s => s = []
  | some _ :: _, [] => False
  | some e :: p, c :: s => accepts e c = true ∧ Strict p s
  | none :: p, s => p = [] ∨ ∃ v, v <:+ s ∧ v ≠ [] ∧ Strict p v

/-- The tails of the string except the empty one are tried from the longest on. -/
def firstTail (f : List α → Option Bool) : List α → Option Bool
  | [] => some false
  | c :: s =>
    match f (c :: s) with
    | some false => firstTail f s
    | r => r

/-- The search. An element with `past` that meets the end of the string reads on, and there
is no result. -/
def search (past : ε → Bool) : List (Option ε) → List α → Option Bool
  | [], s => some s.isEmpty
  | some e :: _, [] => if past e then none else some false
  | some e :: p, c :: s => if accepts e c then search past p s else some false
  | none :: p, s => if p.isEmpty then some true else firstTail (search past p) s

/-- The string ends where an element with `past` comes up. -/
def Overruns (past : ε → Bool) (p : List (Option ε)) (s : List α) : Prop :=
  ∃ q e r, p = q ++ some e :: r ∧ past e = true ∧ q.getLast? ≠ some none ∧ Matches accepts q s

section FirstTail
variable {f : List α → Option Bool}

theorem firstTail_true : ∀ {s : List α}, firstTail f s = some true →
    ∃ v, v <:+ s ∧ v ≠ [] ∧ f v = some true
  | [], h => by simp [firstTail] at h
  | c :: s, h => by
    simp only [firstTail] at h
    split at h
    · obtain ⟨v, hv, hne, hf⟩ := firstTail_true h
      exact ⟨v, hv.trans (List.suffix_cons c s), hne, hf⟩
    · exact ⟨c :: s, List.suffix_refl _, by simp, h⟩

theorem firstTail_false : ∀ {s : List α}, firstTail f s = some false →
    ∀ v, v <:+ s → v ≠ [] → f v = some false
  | [], _, v, hv, hne => absurd (List.suffix_nil.mp hv) hne
  | c :: s, h, v, hv, hne => by
    simp only [firstTail] at h
    split at h
    next hf =>
      rcases List.suffix_cons_iff.mp hv with rfl | hv
      · exact hf
      · exact firstTail_false h v hv hne
    next hf => exact absurd h hf

theorem firstTail_none : ∀ {s : List α}, firstTail f s = none →
    ∃ w, w <:+ s ∧ w ≠ [] ∧ f w = none ∧
      ∀ v, v <:+ s → w.length < v.length → f v = some false
  | [], h => by simp [firstTail] at h
  | c :: s, h => by
    simp only [firstTail] at h
    split at h
    next hf =>
      obtain ⟨w, hw, hne, hn, hlong⟩ := firstTail_none h
      refine ⟨w, hw.trans (List.suffix_cons c s), hne, hn, fun v hv hlen => ?_⟩
      rcases List.suffix_cons_iff.mp hv with rfl | hv
      · exact hf
      · exact hlong v hv hlen
    next hf =>
      refine ⟨c :: s, List.suffix_refl _, by simp, h, fun v hv hlen => ?_⟩
      have := hv.length_le
      omega

theorem firstTail_congr {g : List α → Option Bool} : ∀ {s : List α},
    (∀ v, v <:+ s → f v = g v) → firstTail f s = firstTail g s
  | [], _ => rfl
  | c :: s, h => by
    rw [firstTail, firstTail, h _ (List.suffix_refl _),
      firstTail_congr fun v hv => h v (hv.trans (List.suffix_cons c s))]

end FirstTail

variable {accepts}

theorem matches_cons_some {e : ε} {p : List (Option ε)} {s : List α} :
    Matches accepts (some e :: p) s ↔ ∃ c t, s = c :: t ∧ accepts e c = true ∧ Matches accepts p t := by
  cases s with
  | nil => simp [Matches]
  | cons c t => simp [Matches]

theorem strict_cons_some {e : ε} {p : List (Option ε)} {s : List α} :
    Strict accepts (some e :: p) s ↔ ∃ c t, s = c :: t ∧ accepts e c = true ∧ Strict accepts p t := by
  cases s with
  | nil => simp [Strict]
  | cons c t => simp [Strict]

/-- A tail of `c :: t` that begins with some character is that tail, or its rest is a tail of
`t`. -/
theorem suffix_of_cons_suffix {c d : α} {t v : List α} (h : d :: v <:+ c :: t) : v <:+ t := by
  rcases List.suffix_cons_iff.mp h with h | h
  · rw [(List.cons.inj h).2]
  · exact (List.suffix_cons d v).trans h

section Search
variable {past : ε → Bool}

theorem strict_of_search : ∀ {p : List (Option ε)} {s : List α},
    search accepts past p s = some true → Strict accepts p s
  | [], s, h => by simpa [search, Strict] using h
  | some e :: p, [], h => by
    simp only [search] at h
    split at h <;> simp at h
  | some e :: p, c :: s, h => by
    simp only [search] at h
    split at h
    next hc => exact ⟨hc, strict_of_search h⟩
    next => simp at h
  | none :: p, s, h => by
    simp only [search] at h
    split at h
    next hp => exact .inl (by simpa using hp)
    next =>
      obtain ⟨v, hv, hne, hs⟩ := firstTail_true h
      exact .inr ⟨v, hv, hne, strict_of_search hs⟩

theorem not_strict_of_search_false : ∀ {p : List (Option ε)} {s : List α},
    search accepts past p s = some false → ¬ Strict accepts p s
  | [], s, h => by simpa [search, Strict] using h
  | some e :: p, [], _ => by simp [Strict]
  | some e :: p, c :: s, h => by
    rintro ⟨hc, hs⟩
    simp only [search, hc, if_true] at h
    exact not_strict_of_search_false h hs
  | none :: p, s, h => by
    simp only [search] at h
    split at h
    next => simp at h
    next hp =>
      rintro (rfl | ⟨v, hv, hne, hs⟩)
      · simp at hp
      · exact not_strict_of_search_false (firstTail_false h v hv hne) hs

/-- Where the search reads on, the pattern matches no tail of the string: a later start of the
same elements only has fewer characters left. -/
theorem not_strict_of_search_none : ∀ {p : List (Option ε)} {s : List α},
    search accepts past p s = none → ∀ v, v <:+ s → ¬ Strict accepts p v
  | [], s, h, _, _ => by simp [search] at h
  | some e :: p, [], _, v, hv => by
    rw [List.suffix_nil.mp hv]
    simp [Strict]
  | some e :: p, c :: s, h, v, hv => by
    simp only [search] at h
    split at h
    next =>
      rw [strict_cons_some]
      rintro ⟨d, t, rfl, -, hs⟩
      exact not_strict_of_search_none h t (suffix_of_cons_suffix hv) hs
    next => simp at h
  | none :: p, s, h, v, hv => by
    simp only [search] at h
    split at h
    next => simp at h
    next hp =>
      obtain ⟨w, hw, -, hn, hlong⟩ := firstTail_none h
      rintro (rfl | ⟨x, hx, hne, hs⟩)
      · simp at hp
      · have hxs := hx.trans hv
        by_cases hlen : w.length < x.length
        · exact not_strict_of_search_false (hlong x hxs hlen) hs
        · exact not_strict_of_search_none hn x (List.suffix_of_suffix_length_le hxs hw (by omega)) hs

theorem search_of_strict {p : List (Option ε)} {s : List α} (h : Strict accepts p s) :
    search accepts past p s = some true := by
  match hr : search accepts past p s with
  | some true => rfl
  | some false => exact absurd h (not_strict_of_search_false hr)
  | none => exact absurd h (not_strict_of_search_none hr s (List.suffix_refl s))

theorem overruns_of_search : ∀ {p : List (Option ε)} {s : List α},
    search accepts past p s = none → Overruns accepts past p s
  | [], s, h => by simp [search] at h
  | some e :: p, [], h => by
    simp only [search] at h
    split at h
    next he => exact ⟨[], e, p, rfl, he, by simp, rfl⟩
    next => simp at h
  | some e :: p, c :: s, h => by
    simp only [search] at h
    split at h
    next hc =>
      obtain ⟨q, e', r, rfl, he, hq, hm⟩ := overruns_of_search h
      refine ⟨some e :: q, e', r, rfl, he, ?_, hc, hm⟩
      cases q with
      | nil => simp
      | cons _ _ => simpa using hq
    next => simp at h
  | none :: p, s, h => by
    simp only [search] at h
    split at h
    next => simp at h
    next =>
      obtain ⟨w, hw, hne, hn, -⟩ := firstTail_none h
      obtain ⟨q, e', r, rfl, he, hq, hm⟩ := overruns_of_search hn
      refine ⟨none :: q, e', r, rfl, he, ?_, w, hw, hm⟩
      cases q with
      | nil => exact absurd hm hne
      | cons _ _ => simpa using hq

/-- Only stars match the empty string. -/
theorem eq_none_of_matches_nil : ∀ {p : List (Option ε)}, Matches accepts p [] → ∀ x ∈ p, x = none
  | [], _, _, hx => by simp at hx
  | some e :: p, h, _, _ => by simp [Matches] at h
  | none :: p, ⟨v, hv, hm⟩, x, hx => by
    rw [List.suffix_nil.mp hv] at hm
    rcases List.mem_cons.mp hx with rfl | hx
    · rfl
    · exact eq_none_of_matches_nil hm x hx

theorem search_ne_false_of_overruns : ∀ {p : List (Option ε)} {s : List α},
    Overruns accepts past p s → search accepts past p s ≠ some false := by
  rintro p s ⟨q, e, r, rfl, he, hq, hm⟩
  induction q generalizing s with
  | nil =>
    rw [show s = [] from hm]
    simp [search, he]
  | cons x q ih =>
    cases x with
    | some e' =>
      obtain ⟨c, t, rfl, hc, hm⟩ := matches_cons_some.mp hm
      simp only [List.cons_append, search, hc, if_true]
      refine ih (fun h => hq ?_) hm
      rw [List.getLast?_cons, h]
      rfl
    | none =>
      obtain ⟨v, hv, hm⟩ := hm
      have hq0 : q ≠ [] := fun h => hq (by simp [h])
      have hlast : q.getLast? ≠ some none := fun h => hq (by rw [List.getLast?_cons, h]; rfl)
      have hne : v ≠ [] := by
        rintro rfl
        obtain ⟨x, hx⟩ := List.getLast?_isSome.mpr hq0 |> Option.isSome_iff_exists.mp
        rw [eq_none_of_matches_nil hm x (List.mem_of_getLast? hx)] at hx
        exact hlast hx
      intro h
      have hemp : (q ++ some e :: r).isEmpty = false := by simp
      simp only [List.cons_append, search, hemp, Bool.false_eq_true, if_false] at h
      exact ih hlast hm (firstTail_false h v hv hne)

theorem search_eq_none_iff {p : List (Option ε)} {s : List α} :
    search accepts past p s = none ↔ Overruns accepts past p s ∧ ¬ Strict accepts p s := by
  constructor
  · intro h
    exact ⟨overruns_of_search h, not_strict_of_search_none h s (List.suffix_refl s)⟩
  · rintro ⟨ho, hs⟩
    match hr : search accepts past p s with
    | some true => exact absurd (strict_of_search hr) hs
    | some false => exact absurd hr (search_ne_false_of_overruns ho)
    | none => rfl

end Search

theorem matches_of_strict : ∀ {p : List (Option ε)} {s : List α}, Strict accepts p s →
    Matches accepts p s
  | [], _, h => h
  | some _ :: _, [], h => h.elim
  | some _ :: _, _ :: _, h => ⟨h.1, matches_of_strict h.2⟩
  | none :: p, s, h => by
    rcases h with rfl | ⟨v, hv, -, hs⟩
    · exact ⟨[], List.nil_suffix, rfl⟩
    · exact ⟨v, hv, matches_of_strict hs⟩

/-- Two stars at the end match what the elements before them match, and a character more. -/
theorem strict_two_stars : ∀ {p : List (Option ε)} {s : List α},
    Strict accepts (p ++ [none, none]) s ↔ ∃ u v, s = u ++ v ∧ v ≠ [] ∧ Matches accepts p u
  | [], s => by
    constructor
    · rintro (h | ⟨v, hv, hne, -⟩)
      · simp at h
      · refine ⟨[], s, rfl, ?_, rfl⟩
        rintro rfl
        exact hne (List.suffix_nil.mp hv)
    · rintro ⟨u, v, rfl, hne, rfl⟩
      exact .inr ⟨v, List.suffix_refl _, hne, .inl rfl⟩
  | some e :: p, s => by
    rw [List.cons_append, strict_cons_some]
    constructor
    · rintro ⟨c, t, rfl, hc, hs⟩
      obtain ⟨u, v, rfl, hne, hm⟩ := strict_two_stars.mp hs
      exact ⟨c :: u, v, rfl, hne, hc, hm⟩
    · rintro ⟨u, v, rfl, hne, hm⟩
      obtain ⟨c, t, rfl, hc, hm⟩ := matches_cons_some.mp hm
      exact ⟨c, t ++ v, rfl, hc, strict_two_stars.mpr ⟨t, v, rfl, hne, hm⟩⟩
  | none :: p, s => by
    constructor
    · rintro (h | ⟨w, ⟨x, rfl⟩, -, hs⟩)
      · simp at h
      · obtain ⟨u, v, rfl, hne, hm⟩ := strict_two_stars.mp hs
        exact ⟨x ++ u, v, by simp, hne, u, List.suffix_append x u, hm⟩
    · rintro ⟨u, v, rfl, hne, w, ⟨x, rfl⟩, hm⟩
      refine .inr ⟨w ++ v, ⟨x, by simp⟩, by simp [hne], ?_⟩
      exact strict_two_stars.mpr ⟨w, v, rfl, hne, hm⟩

theorem strict_of_matches : ∀ {p : List (Option ε)} {s : List α},
    (∀ q, p ≠ q ++ [none, none]) → Matches accepts p s → Strict accepts p s
  | [], _, _, h => h
  | some _ :: _, [], _, h => h.elim
  | some e :: p, _ :: _, hp, h =>
    ⟨h.1, strict_of_matches (fun q hq => hp (some e :: q) (by rw [hq]; rfl)) h.2⟩
  | none :: p, s, hp, ⟨v, hv, h⟩ => by
    by_cases hnil : p = []
    · exact .inl hnil
    · refine .inr ⟨v, hv, ?_, strict_of_matches (fun q hq => hp (none :: q) (by rw [hq]; rfl)) h⟩
      rintro rfl
      -- All of `p` is stars, so with the star before it there are two at the end.
      have hall := eq_none_of_matches_nil h
      rcases List.eq_nil_or_concat p with rfl | ⟨q, x, rfl⟩
      · exact hnil rfl
      · rcases List.eq_nil_or_concat q with rfl | ⟨q', y, rfl⟩
        · exact hp [] (by simp [hall x (by simp)])
        · exact hp (none :: q') (by simp [hall x (by simp), hall y (by simp)])

end Unitas.Glob
