import Unitas.Spell.Hashlook

/-! The readers go through a bucket as `spellin` has filled it. -/
namespace Unitas.Spell
open Unitas.WordBits

/-- The hash values that some differences make. -/
def sums : ℕ → List ℕ → List ℕ
  | _, [] => []
  | k, d :: ds => (k + d) :: sums (k + d) ds

theorem sums_diffs {k : ℕ} {hs : List ℕ} (hsorted : hs.Pairwise (· < ·)) (hk : ∀ h ∈ hs, k ≤ h) :
    sums k (diffs k hs) = hs := by
  induction hs generalizing k with
  | nil => rfl
  | cons h hs ih =>
    obtain ⟨hlt, hsorted⟩ := List.pairwise_cons.mp hsorted
    have := hk h List.mem_cons_self
    rw [diffs, sums, Nat.add_sub_cancel' this, ih hsorted fun x hx => Nat.le_of_lt (hlt x hx)]

theorem le_of_mem_sums {k h : ℕ} {ds : List ℕ} (hmem : h ∈ sums k ds) : k ≤ h := by
  induction ds generalizing k with
  | nil => simp [sums] at hmem
  | cons d ds ih =>
    rcases List.mem_cons.mp hmem with rfl | hmem
    · exact Nat.le_add_right k d
    · exact le_trans (Nat.le_add_right k d) (ih hmem)

section Loops
variable {x : Speller} {b h : ℕ}

theorem lookLoop_succ {turns wp bp l sum : ℕ} {a : ℤ} (h1 : 1 ≤ bp) (h32 : bp ≤ 32)
    (hlook : x.hc.look (window x.table (32 * wp + (32 - bp)) L) = (l, a)) :
    ∃ wp' bp', 1 ≤ bp' ∧ bp' ≤ 32 ∧ 32 * wp' + (32 - bp') = 32 * wp + (32 - bp) + l ∧
      x.lookLoop b h (turns + 1) wp bp sum =
        if 32 * b < 32 * wp + (32 - bp) + l then some false
        else if sum + a.toNat < h then x.lookLoop b h turns wp' bp' (sum + a.toNat)
        else some (sum + a.toNat = h) := by
  obtain ⟨ha, hb, hc⟩ := @advance_spec (l + 1) wp bp l h1 h32 (Nat.lt_succ_self l)
  refine ⟨_, _, ha, hb, hc, ?_⟩
  rw [Speller.lookLoop]
  simp only [fetch_toNat x.table h1 h32, hlook, past_iff ha hb, hc]

theorem lookLoop_padding (hg : x.hc.Good) {turns wp bp sum : ℕ} (h1 : 1 ≤ bp) (h32 : bp ≤ 32)
    (hle : 32 * wp + (32 - bp) ≤ 32 * b)
    (hzero : ∀ i, 32 * wp + (32 - bp) ≤ i → i < 32 * b → bit x.table i = false)
    (hsum : sum < h ∨ 32 * wp + (32 - bp) = 32 * b)
    (hturns : 32 * b < 32 * wp + (32 - bp) + turns) :
    x.lookLoop b h turns wp bp sum = some false := by
  induction turns generalizing wp bp sum with
  | zero => omega
  | succ turns ih =>
    cases hlook : x.hc.look (window x.table (32 * wp + (32 - bp)) L) with
    | mk l a =>
      have hl : 1 ≤ l := by
        have := one_le_look hg (window x.table (32 * wp + (32 - bp)) L)
        rwa [hlook] at this
      obtain ⟨wp', bp', h1', h32', hoff, hloop⟩ := lookLoop_succ h1 h32 hlook
      rw [hloop]
      split
      · rfl
      next hpast =>
        -- A code that fits into the padding is that of 0.
        obtain ⟨hd1, hd2⟩ := decode_padding (p := 32 * b - (32 * wp + (32 - bp))) hg (by omega)
          fun i h1 h2 => hzero i h1 (by omega)
        rw [look_eq_decode hg (by omega)] at hlook
        rw [hlook] at hd2
        have ha : a = 0 := hd2 (by dsimp only; omega)
        have hlt : sum + a.toNat < h := by
          rw [ha]
          simpa using hsum.resolve_right (by omega)
        rw [if_pos hlt]
        refine ih h1' h32' (by omega) (fun i h1 h2 => hzero i (by omega) h2) (.inl hlt) (by omega)

theorem lookLoop_codes (hg : x.hc.Good) {ds : List ℕ} {off' turns wp bp sum : ℕ} (h1 : 1 ≤ bp)
    (h32 : bp ≤ 32) (hcodes : Codes x.hc x.table (32 * wp + (32 - bp)) ds off') (hle : off' ≤ 32 * b)
    (hzero : ∀ i, off' ≤ i → i < 32 * b → bit x.table i = false)
    (hsum : ds ≠ [] ∨ sum < h ∨ 32 * wp + (32 - bp) = 32 * b)
    (hturns : 32 * b < 32 * wp + (32 - bp) + turns) :
    x.lookLoop b h turns wp bp sum = some (decide (h ∈ sums sum ds)) := by
  induction ds generalizing turns wp bp sum with
  | nil =>
    obtain rfl : 32 * wp + (32 - bp) = off' := hcodes
    rw [lookLoop_padding hg h1 h32 hle hzero (hsum.resolve_left fun h => h rfl) hturns]
    rfl
  | cons d ds ih =>
    obtain ⟨l, hat, hcodes⟩ := hcodes
    have hdecode := decode_codeAt hg hat
    have hl : 1 ≤ l := Nat.pos_of_ne_zero hat.1
    have hle' := hcodes.le
    have hlook : x.hc.look (window x.table (32 * wp + (32 - bp)) L) = (l, (d : ℤ)) := by
      rw [look_eq_decode hg (by rw [hdecode]; exact hat.1), hdecode]
    obtain ⟨turns, rfl⟩ : ∃ k, turns = k + 1 := ⟨turns - 1, by omega⟩
    obtain ⟨wp', bp', h1', h32', hoff, hloop⟩ := lookLoop_succ h1 h32 hlook
    rw [hloop, if_neg (by omega), Int.toNat_natCast, sums]
    split
    next hlt =>
      rw [ih h1' h32' (hoff ▸ hcodes) (.inr (.inl hlt)) (by omega)]
      have : h ≠ sum + d := by omega
      simp [this]
    next hge =>
      have : h ∈ sums (sum + d) ds → h = sum + d := fun hm => by
        have := le_of_mem_sums hm
        omega
      congr 1
      rw [decide_eq_decide, List.mem_cons]
      exact ⟨fun h => .inl h.symm, fun h => (h.elim id this).symm⟩

theorem checkLoop_codes (hg : x.hc.Good) {i : ℕ} {ds : List ℕ} {off' turns wp bp v : ℕ} (h1 : 1 ≤ bp)
    (h32 : bp ≤ 32) (hcodes : Codes x.hc x.table (32 * wp + (32 - bp)) ds off')
    (hle : off' ≤ 32 * x.hindex (i + 1))
    (hzero : ∀ j, off' ≤ j → j < 32 * x.hindex (i + 1) → bit x.table j = false)
    (hnil : ds = [] → x.hindex i < wp ∨ bp < 32 ∨ x.hindex i = x.hindex (i + 1))
    (hstart : x.hindex i ≤ wp) (htail : ∀ d ∈ ds.tail, 0 < d)
    (hds : (wp = x.hindex i ∧ bp = B) ∨ ∀ d ∈ ds, 0 < d)
    (hturns : 32 * x.hindex (i + 1) < 32 * wp + (32 - bp) + turns) :
    x.checkLoop i turns wp bp v = some (sums v ds) := by
  induction ds generalizing turns wp bp v with
  | nil =>
    obtain rfl : 32 * wp + (32 - bp) = off' := hcodes
    obtain ⟨turns, rfl⟩ : ∃ k, turns = k + 1 := ⟨turns - 1, by omega⟩
    rw [Speller.checkLoop]
    split
    · rfl
    next hwp =>
      rw [fillLoop_eq _ h1 h32, fetch_toNat _ h1 h32]
      cases hdec : x.hc.decode (window x.table (32 * wp + (32 - bp)) L) with
      | mk l a =>
        obtain ⟨ha, hb, hc⟩ :=
          @advance_spec (l + 1) wp bp l h1 h32 (Nat.lt_succ_self l)
        obtain ⟨hd1, hd2⟩ := decode_padding (p := 32 * x.hindex (i + 1) - (32 * wp + (32 - bp))) hg
          (by omega) fun j h1 h2 => hzero j h1 (by omega)
        rw [hdec] at hd1 hd2
        dsimp only at hd1 hd2 ⊢
        have hfirst : ¬ (wp = x.hindex i ∧ bp = B) := by
          have := hnil rfl
          unfold B
          omega
        by_cases ha0 : a = 0
        · rw [if_pos ⟨hfirst, ha0⟩]
          rfl
        · have hpast : ¬ l ≤ 32 * x.hindex (i + 1) - (32 * wp + (32 - bp)) := fun h => ha0 (hd2 h)
          rw [if_neg fun h => ha0 h.2, if_pos (by unfold B; omega)]
          rfl
  | cons d ds ih =>
    obtain ⟨l, hat, hcodes⟩ := hcodes
    have hdecode := decode_codeAt hg hat
    have hl : 1 ≤ l := Nat.pos_of_ne_zero hat.1
    have hle' := hcodes.le
    obtain ⟨turns, rfl⟩ : ∃ k, turns = k + 1 := ⟨turns - 1, by omega⟩
    obtain ⟨ha, hb, hc⟩ :=
      @advance_spec (l + 1) wp bp l h1 h32 (Nat.lt_succ_self l)
    have hzero' : ¬ (¬ (wp = x.hindex i ∧ bp = B) ∧ (d : ℤ) = 0) := by
      rintro ⟨hfirst, hd⟩
      have := hds.resolve_left hfirst d List.mem_cons_self
      omega
    have hpast : ¬ (x.hindex (i + 1) < (advance (l + 1) wp bp l).1 ∨
        ((advance (l + 1) wp bp l).1 = x.hindex (i + 1) ∧ (advance (l + 1) wp bp l).2 < B)) := by
      unfold B
      omega
    rw [Speller.checkLoop, if_neg (by omega), fillLoop_eq _ h1 h32, fetch_toNat _ h1 h32, hdecode]
    dsimp only
    rw [if_neg hzero', if_neg hpast, Int.toNat_natCast, sums,
      ih ha hb (hc ▸ hcodes) (fun _ => by omega) (by omega) (fun e he => htail e (List.mem_of_mem_tail he))
        (.inr htail) (by omega)]
    rfl

end Loops

end Unitas.Spell
