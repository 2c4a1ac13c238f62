import Mathlib.Data.List.Count
import Unitas.Printf.Escapes
import Unitas.Printf.Output

/-! When `%b` writes its argument as it is interpreted: its octal escapes are stored at the end of
another buffer. -/
namespace Unitas.Printf
open Unitas.Stopping

/-- `put` where there is room. -/
def write (n : ℕ) (bbuf : List UInt8) (p : UInt8 × Bool) : List UInt8 :=
  bbuf.set (if p.2 then n else strlen bbuf) p.1

/-- How many characters have been stored. -/
def filled (bbuf : List UInt8) : ℕ := bbuf.countP (· ≠ 0)

theorem strlen_le_filled (bbuf : List UInt8) : strlen bbuf ≤ filled bbuf := by
  induction bbuf with
  | nil => exact le_rfl
  | cons c bbuf ih =>
    unfold strlen filled at ih ⊢
    by_cases hc : c = 0
    · simp [hc]
    · simp only [ne_eq, hc, not_false_eq_true, decide_true, List.takeWhile_cons_of_pos,
        List.length_cons, List.countP_cons_of_pos]
      exact Nat.succ_le_succ ih

theorem strlen_append {text : List UInt8} (h : 0 ∉ text) (rest : List UInt8) :
    strlen (text ++ 0 :: rest) = text.length := by
  have hall : ∀ c ∈ text, decide (c ≠ 0) = true := fun c hc => by
    simpa using fun h0 : c = 0 => h (h0 ▸ hc)
  rw [strlen, List.takeWhile_append_of_pos hall, List.takeWhile_cons_of_neg (by decide),
    List.append_nil]

section
variable {n : ℕ} {bbuf : List UInt8} {c : UInt8}

theorem filled_set_le (i : ℕ) (c : UInt8) : filled (bbuf.set i c) ≤ filled bbuf + 1 := by
  by_cases hi : i < bbuf.length
  · rw [filled, List.countP_set hi, filled]
    split_ifs <;> omega
  · rw [List.set_eq_of_length_le (not_lt.mp hi)]
    exact Nat.le_succ _

theorem filled_set_of_ne {x : UInt8} (hx : bbuf[n]? = some x) (h : x ≠ 0) (c : UInt8) :
    filled (bbuf.set n c) ≤ filled bbuf := by
  obtain ⟨hn, hget⟩ := List.getElem?_eq_some_iff.mp hx
  have hpos : 0 < bbuf.countP (· ≠ 0) :=
    List.countP_pos_iff.mpr ⟨x, List.mem_of_getElem? hx, by simpa using h⟩
  rw [filled, List.countP_set hn, filled, hget, if_pos (by simpa using h)]
  split_ifs <;> omega

/-- Every character takes one place at most. -/
theorem filled_foldl_le (ps : List (UInt8 × Bool)) : ∀ bbuf : List UInt8,
    filled (ps.foldl (write n) bbuf) ≤ filled bbuf + ps.length := by
  induction ps with
  | nil => exact fun _ => le_rfl
  | cons p ps ih =>
    intro bbuf
    have h := @filled_set_le bbuf (if p.2 then n else strlen bbuf) p.1
    refine (ih (write n bbuf p)).trans ?_
    rw [write, List.length_cons]
    omega

/-- The octal escapes take no place more where their own is filled. -/
theorem filled_foldl_of_ne (ps : List (UInt8 × Bool)) (h0 : ∀ p ∈ ps, p.1 ≠ 0) :
    ∀ {bbuf : List UInt8}, (∃ x, bbuf[n]? = some x ∧ x ≠ 0) →
    filled (ps.foldl (write n) bbuf) ≤ filled bbuf + ps.countP fun p => !p.2 := by
  induction ps with
  | nil => exact fun _ => le_rfl
  | cons p ps ih =>
    rintro bbuf ⟨x, hx, hne⟩
    obtain ⟨hp, hps⟩ := List.forall_mem_cons.mp h0
    obtain ⟨hn, hget⟩ := List.getElem?_eq_some_iff.mp hx
    have hkept (i : ℕ) : ∃ y, (bbuf.set i p.1)[n]? = some y ∧ y ≠ 0 := by
      rw [List.getElem?_set]
      split_ifs with hi
      · exact ⟨p.1, rfl, hp⟩
      · omega
      · exact ⟨x, hx, hne⟩
    have hrest := ih hps (hkept (if p.2 then n else strlen bbuf))
    rw [List.foldl_cons, write]
    cases hoct : p.2 with
    | true =>
      have hset := filled_set_of_ne hx hne p.1
      rw [hoct] at hrest
      rw [List.countP_cons_of_neg (by simp [hoct])]
      simp only [if_true] at hrest ⊢
      omega
    | false =>
      have hset := @filled_set_le bbuf (strlen bbuf) p.1
      rw [hoct] at hrest
      rw [List.countP_cons_of_pos (by simp [hoct])]
      simp only [Bool.false_eq_true, if_false] at hrest ⊢
      omega

/-- Together they take one place. -/
theorem filled_foldl_le_succ (ps : List (UInt8 × Bool)) (h0 : ∀ p ∈ ps, p.1 ≠ 0) :
    ∀ {bbuf : List UInt8}, n < bbuf.length →
    filled (ps.foldl (write n) bbuf) ≤ filled bbuf + (ps.countP fun p => !p.2) + 1 := by
  induction ps with
  | nil => exact fun _ => Nat.le_succ _
  | cons p ps ih =>
    intro bbuf hn
    obtain ⟨hp, hps⟩ := List.forall_mem_cons.mp h0
    rw [List.foldl_cons, write]
    cases hoct : p.2 with
    | true =>
      have hset := @filled_set_le bbuf n p.1
      have hrest := @filled_foldl_of_ne n ps hps (bbuf.set n p.1)
        ⟨p.1, List.getElem?_set_self hn, hp⟩
      rw [List.countP_cons_of_neg (by simp [hoct])]
      simp only [if_true]
      omega
    | false =>
      have hset := @filled_set_le bbuf (strlen bbuf) p.1
      have hrest := @ih hps (bbuf.set (strlen bbuf) p.1) (by simpa using hn)
      rw [List.countP_cons_of_pos (by simp [hoct])]
      simp only [Bool.false_eq_true, if_false]
      omega

/-- There is room for what has places enough. -/
theorem foldlM_put (ps : List (UInt8 × Bool)) : ∀ {bbuf : List UInt8},
    filled bbuf + ps.length < BUFSIZ → ps.foldlM (put n) bbuf = .ok (ps.foldl (write n) bbuf) := by
  induction ps with
  | nil => exact fun _ => rfl
  | cons p ps ih =>
    intro bbuf hroom
    rw [List.length_cons] at hroom
    have hput : put n bbuf p = .ok (write n bbuf p) := by
      have hlen := strlen_le_filled bbuf
      rw [put, write, storeB]
      cases p.2 with
      | true => rfl
      | false =>
        simp only [Bool.false_eq_true, if_false]
        exact if_pos (by omega)
    have hset := @filled_set_le bbuf (if p.2 then n else strlen bbuf) p.1
    rw [List.foldlM_cons, hput, List.foldl_cons]
    refine ih ?_
    rw [write]
    omega

/-- Characters that are no octal escapes come one after the other. -/
theorem foldl_plain (ps : List (UInt8 × Bool)) (h0 : ∀ p ∈ ps, p.1 ≠ 0)
    (hplain : ∀ p ∈ ps, p.2 = false) : ∀ {text : List UInt8} {k : ℕ}, 0 ∉ text → ps.length ≤ k →
    ∀ rest, ps.foldl (write n) (text ++ (List.replicate k 0 ++ rest)) =
      text ++ ps.map Prod.fst ++ (List.replicate (k - ps.length) 0 ++ rest) := by
  induction ps with
  | nil =>
    intro text k _ _ rest
    simp
  | cons p ps ih =>
    intro text k htext hk rest
    obtain ⟨hp, hps⟩ := List.forall_mem_cons.mp h0
    obtain ⟨hpp, hpps⟩ := List.forall_mem_cons.mp hplain
    obtain ⟨k, rfl⟩ : ∃ m, k = m + 1 := ⟨k - 1, by simp at hk; omega⟩
    have hwrite : write n (text ++ (List.replicate (k + 1) 0 ++ rest)) p =
        (text ++ [p.1]) ++ (List.replicate k 0 ++ rest) := by
      rw [List.replicate_succ, List.cons_append, write, hpp, strlen_append htext]
      simp
    rw [List.foldl_cons, hwrite, ih hps hpps ?_ (by simpa using hk)]
    · simp
    · rw [List.mem_append, List.mem_singleton, not_or]
      exact ⟨htext, Ne.symm hp⟩

end

/-- The last character is not stored if it is an octal escape that nothing follows. -/
theorem stored_cases (ps : List (UInt8 × Bool)) (stop : Bool) : stored ps stop = ps ∨
    ∃ qs o, ps = qs ++ [(o, true)] ∧ stop = false ∧ stored ps stop = qs := by
  induction ps with
  | nil => exact .inl rfl
  | cons p ps ih =>
    cases ps with
    | nil =>
      rw [stored]
      split_ifs with h
      · refine .inr ⟨[], p.1, ?_, Bool.eq_false_iff.mpr h.2, rfl⟩
        rw [← h.1]
        rfl
      · exact .inl rfl
    | cons q ps =>
      rw [stored]
      rcases ih with heq | ⟨qs, o, heq, hstop, hstored⟩
      · exact .inl (congrArg _ heq)
      · exact .inr ⟨p :: qs, o, congrArg _ heq, hstop, congrArg _ hstored⟩

/-- Where `%b` interprets its argument behind `n` characters: there is no octal escape, or one, in
the middle, that is stored among what comes after it, in the place of a character like it. -/
def Placed (n : ℕ) (ps : List (UInt8 × Bool)) (stop : Bool) : Prop :=
  (∀ p ∈ ps, p.2 = false) ∨ ∃ pre o post, ps = pre ++ (o, true) :: post ∧
    (∀ p ∈ pre ++ post, p.2 = false) ∧ (post ≠ [] ∨ stop = true) ∧ pre.length ≤ n ∧
    n ≤ pre.length + post.length ∧ ∀ p ∈ post.take (n - pre.length), p.1 = o

section
variable {n : ℕ} {ps : List (UInt8 × Bool)} {stop : Bool}

/-- The text in `bbuf` after the loop. -/
def bText (n : ℕ) (ps : List (UInt8 × Bool)) : List UInt8 :=
  (ps.foldl (write n) (List.replicate BUFSIZ 0)).takeWhile (· ≠ 0)

theorem filled_replicate (k : ℕ) : filled (List.replicate k 0) = 0 := by
  simp [filled, List.countP_replicate]

theorem takeWhile_text {text : List UInt8} (h : 0 ∉ text) (k : ℕ) :
    (text ++ List.replicate k 0).takeWhile (· ≠ 0) = text := by
  have hall : ∀ c ∈ text, decide (c ≠ 0) = true := fun c hc => by
    simpa using fun h0 : c = 0 => h (h0 ▸ hc)
  rw [List.takeWhile_append_of_pos hall]
  simp

theorem not_mem_map (h0 : ∀ p ∈ ps, p.1 ≠ 0) : 0 ∉ ps.map Prod.fst := by
  rw [List.mem_map]
  rintro ⟨p, hp, hzero⟩
  exact h0 p hp hzero

theorem bText_plain (h0 : ∀ p ∈ ps, p.1 ≠ 0) (hroom : ps.length < BUFSIZ)
    (hplain : ∀ p ∈ ps, p.2 = false) : bText n ps = ps.map Prod.fst := by
  have h := @foldl_plain n ps h0 hplain [] BUFSIZ List.not_mem_nil hroom.le []
  rw [List.nil_append, List.append_nil, List.nil_append, List.append_nil] at h
  rw [bText, h]
  exact takeWhile_text (not_mem_map h0) _

/-- Two octal escapes do not both come into the text. -/
theorem length_bText_le (h0 : ∀ p ∈ ps, p.1 ≠ 0) (hn : n < BUFSIZ) :
    (bText n ps).length ≤ (ps.countP fun p => !p.2) + 1 := by
  have h := @filled_foldl_le_succ n ps h0 (List.replicate BUFSIZ 0) (by simpa using hn)
  rw [filled_replicate] at h
  refine (strlen_le_filled _).trans ?_
  omega

theorem set_replicate (a b : ℕ) (c : UInt8) : (List.replicate (a + (b + 1)) 0).set a c =
    List.replicate a 0 ++ c :: List.replicate b 0 := by
  rw [← List.replicate_append_replicate, List.replicate_succ]
  simp

/-- A character goes over to the other side of those that are like it. -/
theorem append_singleton_eq_cons {c : UInt8} (l : List UInt8) :
    l ++ [c] = c :: l ↔ ∀ d ∈ l, d = c := by
  induction l with
  | nil => simp
  | cons d l ih =>
    rw [List.cons_append, List.cons.injEq, List.forall_mem_cons]
    constructor
    · rintro ⟨rfl, h⟩
      exact ⟨rfl, ih.mp h⟩
    · rintro ⟨rfl, h⟩
      exact ⟨rfl, ih.mpr h⟩

/-- One octal escape behind `pre`. -/
theorem bText_octal {pre post : List (UInt8 × Bool)} {o : UInt8} (hpre : ∀ p ∈ pre, p.1 ≠ 0)
    (hpost : ∀ p ∈ post, p.1 ≠ 0) (ho : o ≠ 0) (hplain : ∀ p ∈ pre ++ post, p.2 = false)
    (hroom : n + (pre.length + post.length + 1) < BUFSIZ) :
    bText n (pre ++ (o, true) :: post) = (pre ++ (o, true) :: post).map Prod.fst ↔
      pre.length ≤ n ∧ n ≤ pre.length + post.length ∧
        ∀ p ∈ post.take (n - pre.length), p.1 = o := by
  obtain ⟨hplainPre, hplainPost⟩ := List.forall_mem_append.mp hplain
  have hfirst : pre.foldl (write n) (List.replicate BUFSIZ 0) =
      pre.map Prod.fst ++ List.replicate (BUFSIZ - pre.length) 0 := by
    have h := @foldl_plain n pre hpre hplainPre [] BUFSIZ List.not_mem_nil (by omega) []
    simpa using h
  have hrun : bText n (pre ++ (o, true) :: post) = (post.foldl (write n)
      ((pre.map Prod.fst ++ List.replicate (BUFSIZ - pre.length) 0).set n o)).takeWhile (· ≠ 0) := by
    rw [bText, List.foldl_append, hfirst]
    rfl
  have hlength {text : List UInt8} (h : text = (pre ++ (o, true) :: post).map Prod.fst) :
      text.length = pre.length + post.length + 1 := by
    rw [h]
    simp
    omega
  by_cases hle : pre.length ≤ n
  · obtain ⟨b, hb⟩ : ∃ b, BUFSIZ - pre.length = (n - pre.length) + (b + 1) :=
      ⟨BUFSIZ - n - 1, by omega⟩
    have hset : (pre.map Prod.fst ++ List.replicate (BUFSIZ - pre.length) 0).set n o =
        pre.map Prod.fst ++ (List.replicate (n - pre.length) 0 ++ o :: List.replicate b 0) := by
      rw [List.set_append_right _ _ (by simpa using hle), List.length_map, hb, set_replicate]
    rw [hrun, hset]
    by_cases hmany : n ≤ pre.length + post.length
    · have htake := List.take_append_drop (n - pre.length) post
      have hlen : (post.take (n - pre.length)).length = n - pre.length := by
        rw [List.length_take]
        omega
      have hdrop : (post.drop (n - pre.length)).length ≤ b := by
        rw [List.length_drop]
        omega
      generalize post.take (n - pre.length) = post₁ at htake hlen ⊢
      generalize post.drop (n - pre.length) = post₂ at htake hdrop
      subst htake
      obtain ⟨hpost₁, hpost₂⟩ := List.forall_mem_append.mp hpost
      obtain ⟨hplain₁, hplain₂⟩ := List.forall_mem_append.mp hplainPost
      have h₁ := @foldl_plain n post₁ hpost₁ hplain₁ (pre.map Prod.fst) (n - pre.length)
        (not_mem_map hpre) hlen.le (o :: List.replicate b 0)
      have htext : 0 ∉ pre.map Prod.fst ++ post₁.map Prod.fst ++ [o] := by
        simp only [List.mem_append, List.mem_singleton, not_or]
        exact ⟨⟨not_mem_map hpre, not_mem_map hpost₁⟩, Ne.symm ho⟩
      have h₂ := @foldl_plain n post₂ hpost₂ hplain₂ _ b htext hdrop []
      have hjoin : pre.map Prod.fst ++ post₁.map Prod.fst ++
          (List.replicate (n - pre.length - post₁.length) 0 ++ o :: List.replicate b 0) =
          pre.map Prod.fst ++ post₁.map Prod.fst ++ [o] ++ (List.replicate b 0 ++ []) := by
        rw [hlen, Nat.sub_self]
        simp
      have htext₂ : 0 ∉ pre.map Prod.fst ++ post₁.map Prod.fst ++ [o] ++ post₂.map Prod.fst := by
        rw [List.mem_append, not_or]
        exact ⟨htext, not_mem_map hpost₂⟩
      rw [List.foldl_append, h₁, hjoin, h₂, List.append_nil, takeWhile_text htext₂]
      have hmoved : pre.map Prod.fst ++ post₁.map Prod.fst ++ [o] ++ post₂.map Prod.fst =
          (pre ++ (o, true) :: (post₁ ++ post₂)).map Prod.fst ↔
          post₁.map Prod.fst ++ [o] = o :: post₁.map Prod.fst := by
        simp only [List.map_append, List.map_cons, List.append_assoc, List.append_cancel_left_eq]
        rw [← List.append_assoc, ← List.cons_append, List.append_cancel_right_eq]
      rw [hmoved, append_singleton_eq_cons, List.forall_mem_map]
      exact ⟨fun h => ⟨hle, hmany, h⟩, fun h => h.2.2⟩
    · refine iff_of_false (fun h => ?_) (fun h => hmany h.2.1)
      obtain ⟨k, hk⟩ : ∃ k, n - pre.length - post.length = k + 1 :=
        ⟨n - pre.length - post.length - 1, by omega⟩
      have htext : 0 ∉ pre.map Prod.fst ++ post.map Prod.fst := by
        rw [List.mem_append, not_or]
        exact ⟨not_mem_map hpre, not_mem_map hpost⟩
      have hshort : ((pre.map Prod.fst ++ post.map Prod.fst ++
          0 :: (List.replicate k 0 ++ o :: List.replicate b 0)).takeWhile (· ≠ 0)).length =
          (pre.map Prod.fst ++ post.map Prod.fst).length := strlen_append htext _
      rw [foldl_plain post hpost hplainPost (not_mem_map hpre) (by omega), hk,
        List.replicate_succ, List.cons_append] at h
      have := hlength h
      rw [hshort] at this
      simp only [List.length_append, List.length_map] at this
      omega
  · refine iff_of_false (fun h => ?_) (fun h => hle h.1)
    have hn : n < (pre.map Prod.fst).length := by
      rw [List.length_map]
      omega
    have hother := @filled_foldl_of_ne n post hpost
      ((pre.map Prod.fst ++ List.replicate (BUFSIZ - pre.length) 0).set n o)
      ⟨o, List.getElem?_set_self (by rw [List.length_append]; omega), ho⟩
    have hset : filled ((pre.map Prod.fst ++ List.replicate (BUFSIZ - pre.length) 0).set n o) ≤
        pre.length := by
      refine (filled_set_of_ne (x := (pre.map Prod.fst)[n]) ?_ ?_ o).trans ?_
      · rw [List.getElem?_append_left hn]
        exact List.getElem?_eq_getElem hn
      · exact fun hzero => not_mem_map hpre (hzero ▸ List.getElem_mem hn)
      · rw [filled, List.countP_append]
        have hzeros := filled_replicate (BUFSIZ - pre.length)
        have hle := @List.countP_le_length _ (fun c : UInt8 => decide (c ≠ 0)) (pre.map Prod.fst)
        rw [filled] at hzeros
        rw [List.length_map] at hle
        omega
    have hcount : post.countP (fun p => !p.2) ≤ post.length := List.countP_le_length
    have hlen := hlength (hrun ▸ h)
    have hshort := strlen_le_filled (post.foldl (write n)
      ((pre.map Prod.fst ++ List.replicate (BUFSIZ - pre.length) 0).set n o))
    rw [strlen] at hshort
    omega

theorem stored_last (ps : List (UInt8 × Bool)) (o : UInt8) :
    stored (ps ++ [(o, true)]) false = ps := by
  induction ps with
  | nil => simp [stored]
  | cons p ps ih =>
    rw [List.cons_append, stored_of_ne (.inl (by simp)), ih]

theorem countP_stored (ps : List (UInt8 × Bool)) (stop : Bool) :
    ((stored ps stop).countP fun p => !p.2) = ps.countP fun p => !p.2 := by
  rcases stored_cases ps stop with heq | ⟨qs, o, rfl, -, heq⟩
  · rw [heq]
  · rw [heq]
    simp [List.countP_append]

theorem placed_of_eq (h0 : ∀ p ∈ ps, p.1 ≠ 0) (hroom : n + ps.length < BUFSIZ)
    (h : bText n (stored ps stop) = ps.map Prod.fst) : Placed n ps stop := by
  by_cases hplain : ∀ p ∈ ps, p.2 = false
  · exact .inl hplain
  · push Not at hplain
    obtain ⟨⟨o, b⟩, hmem, hoct⟩ := hplain
    obtain rfl : b = true := Bool.not_eq_false _ ▸ hoct
    obtain ⟨pre, post, rfl⟩ := List.append_of_mem hmem
    have hlen := congrArg List.length h
    rw [List.length_map] at hlen
    have hall : ∀ p ∈ stored (pre ++ (o, true) :: post) stop, p.1 ≠ 0 := by
      rcases stored_cases (pre ++ (o, true) :: post) stop with heq | ⟨qs, o', heq, -, hqs⟩
      · exact heq.symm ▸ h0
      · rw [hqs]
        exact fun p hp => h0 p (heq ▸ List.mem_append_left _ hp)
    have hbound := @length_bText_le n _ hall (by omega)
    rw [hlen, countP_stored, List.countP_append, List.countP_cons_of_neg (by simp)] at hbound
    simp only [List.length_append, List.length_cons] at hbound hroom
    have hpre := @List.countP_le_length _ (fun p : UInt8 × Bool => !p.2) pre
    have hpost := @List.countP_le_length _ (fun p : UInt8 × Bool => !p.2) post
    have hplainPre := List.countP_eq_length.mp (show pre.countP (fun p => !p.2) = _ by omega)
    have hplainPost := List.countP_eq_length.mp (show post.countP (fun p => !p.2) = _ by omega)
    have hplain : ∀ p ∈ pre ++ post, p.2 = false := fun p hp => by
      rcases List.mem_append.mp hp with hp | hp
      · simpa using hplainPre p hp
      · simpa using hplainPost p hp
    have hstored : stored (pre ++ (o, true) :: post) stop = pre ++ (o, true) :: post := by
      refine (stored_cases _ stop).resolve_right ?_
      rintro ⟨qs, o', heq, -, hqs⟩
      have hfilled := @filled_foldl_le n qs (List.replicate BUFSIZ 0)
      have hshort := strlen_le_filled (qs.foldl (write n) (List.replicate BUFSIZ 0))
      rw [hqs, heq, bText, List.length_append, List.length_singleton] at hlen
      rw [strlen] at hshort
      rw [filled_replicate] at hfilled
      omega
    refine .inr ⟨pre, o, post, rfl, hplain, ?_, ?_⟩
    · by_contra hend
      obtain ⟨hnil, hstop⟩ := not_or.mp hend
      obtain rfl := not_not.mp hnil
      obtain rfl := Bool.eq_false_iff.mpr hstop
      rw [stored_last] at hstored
      simp at hstored
    · rw [hstored] at h
      obtain ⟨h0pre, h0post⟩ := List.forall_mem_append.mp h0
      obtain ⟨ho, h0post⟩ := List.forall_mem_cons.mp h0post
      exact (bText_octal h0pre h0post ho hplain (by omega)).mp h

theorem bText_of_placed (h0 : ∀ p ∈ ps, p.1 ≠ 0) (hroom : n + ps.length < BUFSIZ)
    (h : Placed n ps stop) : bText n (stored ps stop) = ps.map Prod.fst := by
  rcases h with hplain | ⟨pre, o, post, rfl, hplain, hend, hplaced⟩
  · have hstored : stored ps stop = ps := by
      refine (stored_cases ps stop).resolve_right ?_
      rintro ⟨qs, o, rfl, -, -⟩
      exact absurd (hplain (o, true) (by simp)) (by simp)
    rw [hstored]
    exact bText_plain h0 (by omega) hplain
  · have hstored : stored (pre ++ (o, true) :: post) stop = pre ++ (o, true) :: post := by
      refine (stored_cases _ stop).resolve_right ?_
      rintro ⟨qs, o', heq, hstop, -⟩
      rw [hstop] at hend
      have hne := hend.resolve_right Bool.false_ne_true
      obtain ⟨post', q, rfl⟩ := List.eq_nil_or_concat' post |>.resolve_left hne
      rw [← List.cons_append, ← List.append_assoc] at heq
      have hq := List.append_inj_right' heq rfl
      obtain rfl := (List.cons.inj hq).1
      exact absurd (hplain (o', true) (by simp)) (by simp)
    rw [hstored]
    obtain ⟨h0pre, h0post⟩ := List.forall_mem_append.mp h0
    obtain ⟨ho, h0post⟩ := List.forall_mem_cons.mp h0post
    simp only [List.length_append, List.length_cons] at hroom
    exact (bText_octal h0pre h0post ho hplain (by omega)).mpr hplaced

end

/-! The conversion. -/

/-- What `%b` is to come to: the interpreted argument behind the text so far, and with `\c` the end
of all output. -/
def bLaw (s : State) (a : List UInt8) : Except Stop State :=
  let buf := s.buf ++ interpreted a
  if (pieces a).2 then .error (.exit buf)
  else .ok { s with got := true, state := .normal, buf, fbuf := [37, 115], t := s.t + 1 }

section
variable {lib : Libc} {args : List (List UInt8)} {s : State} {a : List UInt8}

theorem step_b (ht : s.t < argc args) (ha : argv args s.t = some a) :
    step lib args s.percent 98 =
      (loopB s.buf none (List.replicate BUFSIZ 0) a >>= fun r =>
        print lib s.buf [37, 115] (.str (r.1.takeWhile (· ≠ 0))) >>= fun buf =>
          if r.2 then .error (.exit buf)
          else .ok { s with got := true, state := .normal, buf, fbuf := [37, 115], t := s.t + 1 }) := by
  have hfbuf : store [37] 98 = .ok [37, 98] := by decide
  have hm : isModifier 98 = false := by decide
  have h37 : ¬ (98 : UInt8) = 37 := by decide
  have hlast : ([37, 98] : List UInt8).dropLast ++ [115] = [37, 115] := rfl
  simp only [step, stepPercent, State.percent, hfbuf, hm, h37, hlast, bind, Except.bind, convert, ha,
    Bool.false_eq_true, ht, ht.le, if_true, if_false, Option.getD_some]
  cases loopB s.buf none (List.replicate BUFSIZ 0) a with
  | error e => rfl
  | ok r =>
    dsimp only
    cases print lib s.buf [37, 115] (.str (r.1.takeWhile (· ≠ 0))) with
    | error e => rfl
    | ok buf => rfl

theorem step_b_iff (ht : s.t < argc args) (ha : argv args s.t = some a)
    (h0 : 0 ∉ interpreted a) (hroom : s.buf.length + (interpreted a).length < BUFSIZ) :
    step lib args s.percent 98 = bLaw s a ↔ Placed s.buf.length (pieces a).1 (pieces a).2 := by
  have hpieces : ∀ p ∈ (pieces a).1, p.1 ≠ 0 := fun p hp hzero =>
    h0 (List.mem_map.mpr ⟨p, hp, hzero⟩)
  have hlen : (interpreted a).length = (pieces a).1.length := List.length_map ..
  rw [hlen] at hroom
  have hstored : (stored (pieces a).1 (pieces a).2).length ≤ (pieces a).1.length := by
    rcases stored_cases (pieces a).1 (pieces a).2 with heq | ⟨qs, o, heq, -, hqs⟩
    · rw [heq]
    · rw [hqs, heq, List.length_append]
      exact Nat.le_add_right _ _
  have hfilled := @filled_foldl_le s.buf.length (stored (pieces a).1 (pieces a).2)
    (List.replicate BUFSIZ 0)
  have hshort := strlen_le_filled ((stored (pieces a).1 (pieces a).2).foldl (write s.buf.length)
    (List.replicate BUFSIZ 0))
  rw [filled_replicate, Nat.zero_add] at hfilled
  have hput := @foldlM_put s.buf.length (stored (pieces a).1 (pieces a).2)
    (List.replicate BUFSIZ 0) (by rw [filled_replicate]; omega)
  have htext : 0 ∉ bText s.buf.length (stored (pieces a).1 (pieces a).2) := fun hmem => by
    simpa using List.mem_takeWhile_imp hmem
  have hfits : s.buf.length + (bText s.buf.length (stored (pieces a).1 (pieces a).2)).length <
      BUFSIZ := by
    rw [bText]
    rw [strlen] at hshort
    omega
  have hplaced : bText s.buf.length (stored (pieces a).1 (pieces a).2) = interpreted a ↔
      Placed s.buf.length (pieces a).1 (pieces a).2 :=
    ⟨placed_of_eq hpieces hroom, bText_of_placed hpieces hroom⟩
  have hprint := @print_str lib s.buf _ htext
  rw [if_pos hfits] at hprint
  have hb : ((stored (pieces a).1 (pieces a).2).foldl (write s.buf.length)
      (List.replicate BUFSIZ 0)).takeWhile (· ≠ 0) =
      bText s.buf.length (stored (pieces a).1 (pieces a).2) := rfl
  rw [step_b ht ha, loopB_eq _ le_rfl, hput, ← hplaced]
  simp only [bind, Except.bind]
  rw [hb, hprint, bLaw]
  dsimp only
  split_ifs
  · simp
  · simp

end

/-- `printf '%b' 'A\tB'` -/
theorem step_b_iff_tab : step plain [[65, 92, 116, 66]] start.percent 98 =
      bLaw start [65, 92, 116, 66] ↔
    Placed 0 (pieces [65, 92, 116, 66]).1 (pieces [65, 92, 116, 66]).2 := by
  have hpieces : pieces [65, 92, 116, 66] = ([(65, false), (9, false), (66, false)], false) := by
    simp [pieces, isOctal, escape]
  refine step_b_iff (by decide) rfl ?_ ?_
  · rw [interpreted, hpieces]
    decide
  · rw [interpreted, hpieces]
    decide

/-- `printf '%b' '\101'` writes nothing. -/
theorem not_step_b : ¬ ∀ (lib : Libc) (args : List (List UInt8)) (s : State) (a : List UInt8),
    s.t < argc args → argv args s.t = some a → 0 ∉ a → 0 ∉ interpreted a →
    s.buf.length + (interpreted a).length < BUFSIZ → step lib args s.percent 98 = bLaw s a := by
  intro h
  have hpieces : pieces [92, 49, 48, 49] = ([(65, true)], false) := by
    simp [pieces, isOctal, octal]
  have heq := h plain [[92, 49, 48, 49]] start [92, 49, 48, 49] (by decide) rfl (by decide)
    (by rw [interpreted, hpieces]; decide) (by rw [interpreted, hpieces]; decide)
  have hrun : step plain [[92, 49, 48, 49]] start.percent 98 =
      .ok ⟨.normal, 0, true, [], [37, 115], 3⟩ := rfl
  have hlaw : bLaw start [92, 49, 48, 49] = .ok ⟨.normal, 0, true, [65], [37, 115], 3⟩ := by
    rw [bLaw, interpreted, hpieces]
    rfl
  rw [hrun, hlaw] at heq
  exact absurd (Except.ok.inj heq) (by decide)

end Unitas.Printf
