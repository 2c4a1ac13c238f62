import Mathlib.Data.UInt
import Mathlib.Tactic.SplitIfs
import Unitas.Lib.Glob

/-! `gmatch`, the pattern matching of the shell, in a single-byte locale. A string is given
with its null byte, and there is no result once something behind that byte is read. -/
namespace Unitas.Sh
open Unitas.Glob

def ULONG_MAX : ℕ := 2 ^ 64 - 1

/-- The loop over a bracket expression, with `c` fetched from in front of `p`. `first` tells
that `p == bp`. The result is `ok` and `p` behind the closing bracket, or `some none` where
`gmatch` returns 0. -/
def bracket (scc : UInt8) (first ok : Bool) (lc : ℕ) :
    UInt8 → List UInt8 → Option (Option (Bool × List UInt8))
  | c, p =>
    if c = 0 then some none
    else if c = 93 ∧ first = false then some (some (ok, p))
    else match p with
      | [] => none
      | c₁ :: p₁ =>
        if c = 45 ∧ first = false ∧ c₁ ≠ 93 then
          if c₁ = 92 then
            match p₁ with
            | [] => none
            | c₂ :: p₂ =>
              if c₂ = 0 then some none
              else match p₂ with
                | [] => none
                | c₃ :: p₃ =>
                  bracket scc false (ok || (lc ≤ scc.toNat && scc ≤ c₂)) lc c₃ p₃
          else if c₁ = 0 then some none
          else match p₁ with
            | [] => none
            | c₂ :: p₂ => bracket scc false (ok || (lc ≤ scc.toNat && scc ≤ c₁)) lc c₂ p₂
        else if c = 92 then
          if c₁ = 0 then some none
          else match p₁ with
            | [] => none
            | c₂ :: p₂ => bracket scc false (ok || scc = c₁) c₁.toNat c₂ p₂
        else bracket scc false (ok || scc = c) c.toNat c₁ p₁

/-- The case `[` of the switch up to the closing bracket, with `ok ^ excl`. -/
def bracketCase (scc : UInt8) : List UInt8 → Option (Option (Bool × List UInt8))
  | [] => none
  | c :: p =>
    if c = 33 then
      match p with
      | [] => none
      | c' :: p' =>
        (bracket scc true false ULONG_MAX c' p').map (·.map fun (ok, q) => (ok ^^ true, q))
    else (bracket scc true false ULONG_MAX c p).map (·.map fun (ok, q) => (ok ^^ false, q))

theorem length_bracket {scc : UInt8} {first ok : Bool} {lc : ℕ} {c : UInt8} {p : List UInt8}
    {r : Bool × List UInt8} (h : bracket scc first ok lc c p = some (some r)) :
    r.2.length ≤ p.length := by
  fun_induction bracket scc first ok lc c p <;> simp_all <;> grind

theorem length_bracketCase {scc : UInt8} {p : List UInt8} {r : Bool × List UInt8}
    (h : bracketCase scc p = some (some r)) : r.2.length ≤ p.length := by
  unfold bracketCase at h
  split at h
  · simp at h
  · split at h
    · split at h
      · simp at h
      · simp only [Option.map_eq_some_iff] at h
        obtain ⟨_, h, q, rfl, rfl⟩ := h
        have := length_bracket h
        simp only [List.length_cons]
        omega
    · simp only [Option.map_eq_some_iff] at h
      obtain ⟨_, h, q, rfl, rfl⟩ := h
      have := length_bracket h
      simp only [List.length_cons]
      omega

/-- The loop of the case `*`. -/
def starLoop (f : List UInt8 → Option Bool) : List UInt8 → Option Bool
  | [] => none
  | c :: s =>
    if c = 0 then some false
    else match f (c :: s) with
      | some false => starLoop f s
      | r => r

def gmatch : List UInt8 → List UInt8 → Option Bool
  | [], _ => none
  | _, [] => none
  | scc :: s, c :: p =>
    if c = 91 then
      match _h : bracketCase scc p with
      | none => none
      | some none => some false
      | some (some r) => if r.1 then gmatch s r.2 else some false
    else if c = 92 then
      match p with
      | [] => none
      | c' :: p' =>
        if c' = 0 then some false
        else if c' ≠ scc then some false
        else if scc ≠ 0 then gmatch s p' else some false
    else if c = 63 then if scc ≠ 0 then gmatch s p else some false
    else if c = 42 then
      match p with
      | [] => none
      | c' :: p' =>
        if c' = 0 then some true else starLoop (fun t => gmatch t (c' :: p')) (scc :: s)
    else if c = 0 then some (scc = 0)
    else if c ≠ scc then some false
    else if scc ≠ 0 then gmatch s p else some false
termination_by _ p => p.length
decreasing_by
  · have := length_bracketCase _h
    simp only [List.length_cons]
    omega
  all_goals
    simp only [List.length_cons]
    omega

/-! The pattern language. -/

/-- What matches one character: any, a given one, one of the ranges (with `excl`, one outside
of them), or nothing. A listed character is a range of one. -/
inductive Elem
  | any
  | char (c : UInt8)
  | ranges (excl : Bool) (rs : List (UInt8 × UInt8))
  | never
  deriving DecidableEq, Repr

def inRanges (rs : List (UInt8 × UInt8)) (c : UInt8) : Bool := rs.any fun r => r.1 ≤ c && c ≤ r.2

def Elem.accepts : Elem → UInt8 → Bool
  | .any, _ => true
  | .char d, c => c = d
  | .ranges excl rs, c => inRanges rs c ^^ excl
  | .never, _ => false

def Elem.negated : Elem → Bool
  | .ranges true _ => true
  | _ => false

def listing (r : UInt8 × UInt8) (o : Option (List (UInt8 × UInt8) × List UInt8)) :
    Option (List (UInt8 × UInt8) × List UInt8) :=
  o.map fun (rs, q) => (r :: rs, q)

/-- The rest of a bracket expression after `lo`, the last character listed, and what follows
it. A `-` is itself when the bracket closes behind it. -/
def members (lo : UInt8) : List UInt8 → Option (List (UInt8 × UInt8) × List UInt8)
  | [] => none
  | [c] => if c = 93 then some ([], []) else none
  | c :: d :: p =>
    if c = 93 then some ([], d :: p)
    else if c = 45 ∧ d ≠ 93 then
      if d = 92 then
        match p with
        | [] => none
        | e :: p => listing (lo, e) (members lo p)
      else listing (lo, d) (members lo p)
    else if c = 92 then listing (d, d) (members d p)
    else listing (c, c) (members c (d :: p))

/-- A bracket expression from its first character on, which is listed even if it is `]` or
`-`. -/
def listed : List UInt8 → Option (List (UInt8 × UInt8) × List UInt8)
  | [] => none
  | [c] => if c = 92 then none else listing (c, c) (members c [])
  | c :: d :: p =>
    if c = 92 then listing (d, d) (members d p)
    else listing (c, c) (members c (d :: p))

/-- The bracket expression behind a `[`. -/
def bracketed : List UInt8 → Option (Elem × List UInt8)
  | 33 :: p => (listed p).map fun (rs, q) => (.ranges true rs, q)
  | p => (listed p).map fun (rs, q) => (.ranges false rs, q)

@[grind =]
theorem listing_eq_some {r : UInt8 × UInt8} {o : Option (List (UInt8 × UInt8) × List UInt8)}
    {x : List (UInt8 × UInt8) × List UInt8} :
    listing r o = some x ↔ ∃ y, o = some y ∧ (r :: y.1, y.2) = x := by
  simp [listing]

theorem length_members {lo : UInt8} {p : List UInt8} {r : List (UInt8 × UInt8) × List UInt8}
    (h : members lo p = some r) : r.2.length < p.length := by
  fun_induction members lo p generalizing r <;> grind

theorem length_listed {p : List UInt8} {r : List (UInt8 × UInt8) × List UInt8}
    (h : listed p = some r) : r.2.length < p.length := by
  have := @length_members
  fun_cases listed p <;> grind [listed]

theorem length_bracketed {p : List UInt8} {r : Elem × List UInt8} (h : bracketed p = some r) :
    r.2.length < p.length := by
  have := @length_listed
  fun_cases bracketed p <;> grind [bracketed, Option.map_eq_some_iff]

/-- The elements of a pattern; a star is `none`. -/
def elems : List UInt8 → List (Option Elem)
  | [] => []
  | c :: p =>
    if c = 91 then
      match _h : bracketed p with
      | none => [some .never]
      | some r => some r.1 :: elems r.2
    else if c = 92 then
      match p with
      | [] => [some .never]
      | c' :: p' => some (.char c') :: elems p'
    else if c = 63 then some .any :: elems p
    else if c = 42 then none :: elems p
    else some (.char c) :: elems p
termination_by p => p.length
decreasing_by
  · have := length_bracketed _h
    simp only [List.length_cons]
    omega
  all_goals
    simp only [List.length_cons]
    omega

/-- What the loop returns for a parsed expression. `ok` tells whether `scc` was listed before. -/
def found (scc : UInt8) (ok : Bool) (o : Option (List (UInt8 × UInt8) × List UInt8)) :
    Option (Bool × List UInt8) :=
  o.map fun (rs, q) => (ok || inRanges rs scc, q ++ [0])

theorem found_listing (scc lo hi : UInt8) (ok : Bool)
    (o : Option (List (UInt8 × UInt8) × List UInt8)) :
    found scc ok (listing (lo, hi) o) =
      found scc (ok || (lo.toNat ≤ scc.toNat && scc ≤ hi)) o := by
  simp only [found, listing, Option.map_map, Function.comp_def, Bool.or_assoc]
  rfl

theorem found_listing_single (scc c : UInt8) (ok : Bool)
    (o : Option (List (UInt8 × UInt8) × List UInt8)) :
    found scc ok (listing (c, c) o) = found scc (ok || scc = c) o := by
  rw [found_listing]
  congr 2
  rw [Bool.eq_iff_iff]
  simp only [Bool.and_eq_true, decide_eq_true_eq, ← UInt8.toNat_inj, UInt8.le_iff_toNat_le]
  omega

theorem bracket_eq (scc : UInt8) (ok : Bool) (lo : UInt8) (t : List UInt8) (h0 : 0 ∉ t) (c : UInt8)
    (p : List UInt8) (ht : t ++ [0] = c :: p) :
    bracket scc false ok lo.toNat c p = some (found scc ok (members lo t)) := by
  fun_induction members lo t generalizing ok c p with
  | case1 lo =>
    obtain ⟨rfl, rfl⟩ : (0 : UInt8) = c ∧ [] = p := by simpa using ht
    simp [bracket, found]
  | case2 lo =>
    obtain ⟨rfl, rfl⟩ : (93 : UInt8) = c ∧ [0] = p := by simpa using ht
    simp [bracket, found, inRanges]
  | case3 lo d hd =>
    obtain ⟨rfl, rfl⟩ : d = c ∧ [0] = p := by simpa using ht
    have hd0 : ¬ d = 0 := by simpa [eq_comm] using h0
    rw [bracket.eq_def]
    by_cases h45 : d = 45 <;> by_cases h92 : d = 92 <;> simp [hd, hd0, h45, h92, bracket, found]
  | case4 lo d q =>
    obtain ⟨rfl, rfl⟩ : (93 : UInt8) = c ∧ d :: (q ++ [0]) = p := by simpa using ht
    rw [bracket.eq_def]
    simp [found, inRanges]
  | case5 lo d h93 hd =>
    obtain ⟨rfl, rfl⟩ : d = c ∧ [92, 0] = p := by simpa using ht
    simp [bracket, found, hd.1]
  | case6 lo d h93 e q hd ih =>
    obtain ⟨rfl, rfl⟩ : d = c ∧ 92 :: e :: (q ++ [0]) = p := by simpa using ht
    simp only [List.mem_cons, not_or] at h0
    obtain ⟨c', p', hq⟩ := List.exists_cons_of_ne_nil (l := q ++ [0]) (by simp)
    rw [found_listing, ← ih _ h0.2.2.2 _ _ hq, bracket.eq_def]
    simp [hd.1, Ne.symm h0.2.2.1, hq]
  | case7 lo d e q h93 hd he ih =>
    obtain ⟨rfl, rfl⟩ : d = c ∧ e :: (q ++ [0]) = p := by simpa using ht
    simp only [List.mem_cons, not_or] at h0
    obtain ⟨c', p', hq⟩ := List.exists_cons_of_ne_nil (l := q ++ [0]) (by simp)
    rw [found_listing, ← ih _ h0.2.2 _ _ hq, bracket.eq_def]
    simp [hd, he, Ne.symm h0.2.1, hq]
  | case8 lo e q h93 hd ih =>
    obtain ⟨rfl, rfl⟩ : (92 : UInt8) = c ∧ e :: (q ++ [0]) = p := by simpa using ht
    simp only [List.mem_cons, not_or] at h0
    obtain ⟨c', p', hq⟩ := List.exists_cons_of_ne_nil (l := q ++ [0]) (by simp)
    rw [found_listing_single, ← ih _ h0.2.2 _ _ hq, bracket.eq_def]
    simp [Ne.symm h0.2.1, hq]
  | case9 lo d e q h93 hd h92 ih =>
    obtain ⟨rfl, rfl⟩ : d = c ∧ e :: (q ++ [0]) = p := by simpa using ht
    rw [List.mem_cons, not_or] at h0
    rw [found_listing_single, ← ih _ h0.2 _ _ rfl, bracket.eq_def]
    have hd0 : ¬ d = 0 := Ne.symm h0.1
    by_cases h45 : d = 45
    · have he : e = 93 := by simpa [h45] using hd
      simp [h45, he]
    · simp [h93, h92, h45, hd0]

/-- The first character is listed whatever it is, and only from there on is `lc` set. -/
theorem bracket_first (scc : UInt8) (t : List UInt8) (h0 : 0 ∉ t) (c : UInt8)
    (p : List UInt8) (ht : t ++ [0] = c :: p) :
    bracket scc true false ULONG_MAX c p = some (found scc false (listed t)) := by
  fun_cases listed t with
  | case1 =>
    obtain ⟨rfl, rfl⟩ : (0 : UInt8) = c ∧ [] = p := by simpa using ht
    simp [bracket, found]
  | case2 =>
    obtain ⟨rfl, rfl⟩ : (92 : UInt8) = c ∧ [0] = p := by simpa using ht
    simp [bracket, found]
  | case3 d h92 =>
    obtain ⟨rfl, rfl⟩ : d = c ∧ [0] = p := by simpa using ht
    have hd0 : ¬ d = 0 := by simpa [eq_comm] using h0
    rw [found_listing_single, ← bracket_eq _ _ _ [] (by simp) 0 [] rfl, bracket.eq_def]
    simp [h92, hd0]
  | case4 e q =>
    obtain ⟨rfl, rfl⟩ : (92 : UInt8) = c ∧ e :: (q ++ [0]) = p := by simpa using ht
    simp only [List.mem_cons, not_or] at h0
    obtain ⟨c', p', hq⟩ := List.exists_cons_of_ne_nil (l := q ++ [0]) (by simp)
    rw [found_listing_single, ← bracket_eq _ _ _ q h0.2.2 _ _ hq, bracket.eq_def]
    simp [Ne.symm h0.2.1, hq]
  | case5 d e q h92 =>
    obtain ⟨rfl, rfl⟩ : d = c ∧ e :: (q ++ [0]) = p := by simpa using ht
    rw [List.mem_cons, not_or] at h0
    have hd0 : ¬ d = 0 := Ne.symm h0.1
    rw [found_listing_single, ← bracket_eq _ _ _ (e :: q) h0.2 _ _ rfl, bracket.eq_def]
    simp [h92, hd0]

theorem bracketCase_eq (scc : UInt8) (t : List UInt8) (h0 : 0 ∉ t) :
    bracketCase scc (t ++ [0]) = some ((bracketed t).map fun r => (r.1.accepts scc, r.2 ++ [0])) := by
  have hfound (excl : Bool) (o : Option (List (UInt8 × UInt8) × List UInt8)) :
      ((found scc false o).map fun r => (r.1 ^^ excl, r.2)) =
        (o.map fun r => (Elem.ranges excl r.1, r.2)).map fun r => (r.1.accepts scc, r.2 ++ [0]) := by
    simp [found, Function.comp_def, Elem.accepts]
  fun_cases bracketed t with
  | case1 p =>
    simp only [List.mem_cons, not_or] at h0
    obtain ⟨c', p', hp⟩ := List.exists_cons_of_ne_nil (l := p ++ [0]) (by simp)
    rw [← hfound true, List.cons_append, hp, bracketCase.eq_def]
    simp only [if_true, bracket_first scc p h0.2 c' p' hp, Option.map_some]
  | case2 _ h33 =>
    obtain ⟨c', p', hp⟩ := List.exists_cons_of_ne_nil (l := t ++ [0]) (by simp)
    have hc : ¬ c' = 33 := by
      rintro rfl
      cases t with
      | nil => simp at hp
      | cons d t => exact h33 t (by rw [(List.cons.inj hp).1])
    rw [← hfound false, hp, bracketCase.eq_def]
    simp only [hc, if_false, bracket_first scc t h0 c' p' hp, Option.map_some]

theorem not_mem_members {lo : UInt8} {p : List UInt8} (h0 : 0 ∉ p)
    {r : List (UInt8 × UInt8) × List UInt8} (h : members lo p = some r) : 0 ∉ r.2 := by
  fun_induction members lo p generalizing r <;> grind

theorem not_mem_bracketed {p : List UInt8} (h0 : 0 ∉ p) {r : Elem × List UInt8}
    (h : bracketed p = some r) : 0 ∉ r.2 := by
  have := @not_mem_members
  have hl {q : List UInt8} (hq : 0 ∉ q) {x : List (UInt8 × UInt8) × List UInt8}
      (hx : listed q = some x) : 0 ∉ x.2 := by
    fun_cases listed q <;> grind [listed]
  fun_cases bracketed p <;> grind [bracketed, Option.map_eq_some_iff]

theorem inRanges_cons_zero {lo hi : UInt8} (h : lo ≠ 0) (rs : List (UInt8 × UInt8)) :
    inRanges ((lo, hi) :: rs) 0 = inRanges rs 0 := by
  simp [inRanges, h]

theorem members_zero {lo : UInt8} {p : List UInt8} (hlo : lo ≠ 0) (h0 : 0 ∉ p)
    {r : List (UInt8 × UInt8) × List UInt8} (h : members lo p = some r) :
    inRanges r.1 0 = false := by
  fun_induction members lo p generalizing r <;> grind [inRanges_cons_zero, inRanges]

/-- No expression lists the null byte. -/
theorem accepts_zero {p : List UInt8} (h0 : 0 ∉ p) {r : Elem × List UInt8}
    (h : bracketed p = some r) : r.1.accepts 0 = r.1.negated := by
  have hm := @members_zero
  have hl {q : List UInt8} (hq : 0 ∉ q) {x : List (UInt8 × UInt8) × List UInt8}
      (hx : listed q = some x) : inRanges x.1 0 = false := by
    fun_cases listed q <;> grind [listed, inRanges_cons_zero]
  fun_cases bracketed p with
  | case1 p =>
    obtain ⟨x, hx, rfl⟩ := Option.map_eq_some_iff.mp h
    have := hl (by grind) hx
    simp [Elem.accepts, Elem.negated, this]
  | case2 _ h33 =>
    rw [bracketed.eq_2 _ h33] at h
    obtain ⟨x, hx, rfl⟩ := Option.map_eq_some_iff.mp h
    have := hl h0 hx
    simp [Elem.accepts, Elem.negated, this]

theorem starLoop_eq (f : List UInt8 → Option Bool) (s : List UInt8) (h0 : 0 ∉ s) :
    starLoop f (s ++ [0]) = firstTail (fun t => f (t ++ [0])) s := by
  induction s with
  | nil => simp [starLoop, firstTail]
  | cons c s ih =>
    simp only [List.mem_cons, not_or] at h0
    rw [List.cons_append, starLoop, if_neg (Ne.symm h0.1), ih h0.2]
    rfl

theorem elems_ne_nil (c : UInt8) (p : List UInt8) : elems (c :: p) ≠ [] := by
  rw [elems.eq_def]
  split
  · simp_all
  · split_ifs <;> (try split) <;> simp

/-- At the null byte of the string only a negated bracket expression matches, and what comes
after it is looked for behind that byte. -/
theorem gmatch_eq_search (s p : List UInt8) (hs : 0 ∉ s) (hp : 0 ∉ p) :
    gmatch (s ++ [0]) (p ++ [0]) = search Elem.accepts Elem.negated (elems p) s := by
  fun_induction elems p generalizing s with
  | case1 =>
    cases s with
    | nil => simp [gmatch, search]
    | cons c s =>
      have hc : ¬ c = 0 := by grind
      simp [gmatch, search, hc]
  | case2 p hb =>
    have hcase (scc : UInt8) : bracketCase scc (p ++ [0]) = some none := by
      rw [bracketCase_eq scc p (by grind), hb]
      rfl
    cases s with
    | nil =>
      rw [List.nil_append, List.cons_append, gmatch.eq_def]
      simp only [if_true, search, Elem.negated]
      split <;> simp_all
    | cons c s =>
      rw [List.cons_append, List.cons_append, gmatch.eq_def]
      simp only [if_true, search, Elem.accepts]
      split <;> simp_all
  | case3 p r hb ih =>
    have hcase (scc : UInt8) :
        bracketCase scc (p ++ [0]) = some (some (r.1.accepts scc, r.2 ++ [0])) := by
      rw [bracketCase_eq scc p (by grind), hb]
      rfl
    have hr : 0 ∉ r.2 := not_mem_bracketed (by grind) hb
    cases s with
    | nil =>
      rw [List.nil_append, List.cons_append, gmatch.eq_def]
      simp only [if_true, search, ← accepts_zero (by grind) hb]
      split <;> simp_all [gmatch]
      next h => rw [← h]
    | cons c s =>
      rw [List.cons_append, List.cons_append, gmatch.eq_def]
      simp only [if_true, search, ← ih s (by grind) hr]
      split <;> simp_all
      next h => rw [← h, ih s hs.2]
  | case4 h91 =>
    cases s <;> simp [gmatch, search, Elem.negated, Elem.accepts]
  | case5 c' p' h91 ih =>
    have hc' : ¬ c' = 0 := by grind
    cases s with
    | nil => simp [gmatch, search, Elem.negated, hc']
    | cons c s =>
      have hc : ¬ c = 0 := by grind
      by_cases heq : c' = c
      · simp [gmatch, search, Elem.accepts, heq, hc, ← ih s (by grind) (by grind)]
      · simp [gmatch, search, Elem.accepts, hc', heq, Ne.symm heq]
  | case6 p h1 h2 ih =>
    cases s with
    | nil => simp [gmatch.eq_def, search, Elem.negated]
    | cons c s =>
      have hc : ¬ c = 0 := by grind
      rw [List.cons_append, List.cons_append, gmatch.eq_def]
      simp [search, Elem.accepts, hc, ← ih s (by grind) (by grind)]
  | case7 p h1 h2 h3 ih =>
    have hloop : starLoop (fun t => gmatch t (p ++ [0])) (s ++ [0]) =
        firstTail (search Elem.accepts Elem.negated (elems p)) s := by
      rw [starLoop_eq _ s hs]
      exact firstTail_congr fun v hv => ih v (fun h => hs (hv.subset h)) (by grind)
    obtain ⟨scc, s', hs'⟩ : ∃ scc s', s ++ [0] = scc :: s' := List.exists_cons_of_ne_nil (by simp)
    rw [hs', List.cons_append, gmatch.eq_def]
    cases p with
    | nil => simp [search, elems]
    | cons c p =>
      have hc : ¬ c = 0 := by grind
      rw [hs'] at hloop
      simp [search, elems_ne_nil, hc, ← hloop]
  | case8 c p h1 h2 h3 h4 ih =>
    have hc' : ¬ c = 0 := by grind
    cases s with
    | nil =>
      rw [List.nil_append, List.cons_append, gmatch.eq_def]
      simp [search, Elem.negated, h1, h2, h3, h4, hc']
    | cons d s =>
      rw [List.cons_append, List.cons_append, gmatch.eq_def]
      by_cases heq : c = d
      · simp [search, Elem.accepts, h1, h2, h3, h4, hc', ← heq, ← ih s (by grind) (by grind)]
      · simp [search, Elem.accepts, h1, h2, h3, h4, hc', heq, Ne.symm heq]

/-- The string matches, but the pattern ends in two stars and the elements before these match
no proper beginning of it, so that the last star is left with the empty string. -/
def NeedsEmptyStar (s p : List UInt8) : Prop :=
  Matches Elem.accepts (elems p) s ∧ ∃ q, elems p = q ++ [none, none] ∧
    ¬ ∃ u v, s = u ++ v ∧ v ≠ [] ∧ Matches Elem.accepts q u

theorem strict_iff_not_needsEmptyStar {s p : List UInt8} (h : Matches Elem.accepts (elems p) s) :
    Strict Elem.accepts (elems p) s ↔ ¬ NeedsEmptyStar s p := by
  constructor
  · rintro hs ⟨-, q, hq, hno⟩
    rw [hq] at hs
    exact hno (strict_two_stars.mp hs)
  · intro hn
    by_cases hq : ∃ q, elems p = q ++ [none, none]
    · obtain ⟨q, hq⟩ := hq
      rw [hq]
      by_contra hs
      exact hn ⟨h, q, hq, fun huv => hs (strict_two_stars.mpr huv)⟩
    · exact strict_of_matches (fun q h' => hq ⟨q, h'⟩) h

/-- The strings that match are found, and no byte behind either string is read, unless the last
of two stars at the end of the pattern has nothing left to match, or a string that does not
match ends where a negated bracket expression comes up. -/
theorem gmatch_iff (s p : List UInt8) (hs : 0 ∉ s) (hp : 0 ∉ p) :
    (∃ b, gmatch (s ++ [0]) (p ++ [0]) = some b ∧
        (b = true ↔ Matches Elem.accepts (elems p) s)) ↔
      ¬ NeedsEmptyStar s p ∧
        (Overruns Elem.accepts Elem.negated (elems p) s → Matches Elem.accepts (elems p) s) := by
  rw [gmatch_eq_search s p hs hp]
  by_cases hm : Matches Elem.accepts (elems p) s
  · have hstrict := strict_iff_not_needsEmptyStar hm
    constructor
    · rintro ⟨b, hb, hbm⟩
      rw [hbm.mpr hm] at hb
      exact ⟨hstrict.mp (strict_of_search hb), fun _ => hm⟩
    · rintro ⟨hn, -⟩
      exact ⟨true, search_of_strict (hstrict.mpr hn), by simp [hm]⟩
  · have hns : ¬ Strict Elem.accepts (elems p) s := fun h => hm (matches_of_strict h)
    constructor
    · rintro ⟨b, hb, -⟩
      refine ⟨fun h => hm h.1, fun ho => ?_⟩
      rw [search_eq_none_iff.mpr ⟨ho, hns⟩] at hb
      simp at hb
    · rintro ⟨-, ho⟩
      match hr : search Elem.accepts Elem.negated (elems p) s with
      | some true => exact absurd (strict_of_search hr) hns
      | some false => exact ⟨false, rfl, by simp [hm]⟩
      | none => exact absurd (ho (overruns_of_search hr)) hm

/-- `[ab]*` on `b` -/
theorem gmatch_iff_brackets :
    (0 : UInt8) ∉ [98] ∧ (0 : UInt8) ∉ [91, 97, 98, 93, 42] ∧
      ((∃ b, gmatch ([98] ++ [0]) ([91, 97, 98, 93, 42] ++ [0]) = some b ∧
          (b = true ↔ Matches Elem.accepts (elems [91, 97, 98, 93, 42]) [98])) ↔
        ¬ NeedsEmptyStar [98] [91, 97, 98, 93, 42] ∧
          (Overruns Elem.accepts Elem.negated (elems [91, 97, 98, 93, 42]) [98] →
            Matches Elem.accepts (elems [91, 97, 98, 93, 42]) [98])) :=
  ⟨by decide, by decide, gmatch_iff _ _ (by decide) (by decide)⟩

/-- The pattern `**` does not match the empty string, and `[!a]` on it reads behind both
null bytes. -/
theorem gmatch_fails :
    (gmatch [0] [42, 42, 0] = some false ∧ Matches Elem.accepts (elems [42, 42]) []) ∧
      gmatch [0] [91, 33, 97, 93, 0] = none := by
  refine ⟨⟨?_, ?_⟩, ?_⟩
  · simp [gmatch, starLoop]
  · simp only [elems]
    exact ⟨[], List.nil_suffix, [], List.nil_suffix, rfl⟩
  · simp [gmatch, bracketCase, bracket]

end Unitas.Sh
