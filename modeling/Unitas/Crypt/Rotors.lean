import Mathlib.Data.Fintype.Card
import Mathlib.Data.Finset.Card
import Mathlib.Algebra.Group.Even
import Mathlib.Algebra.Ring.Parity
import Mathlib.Tactic.IntervalCases
import Unitas.Lib.CInt

/-! The rotors of `crypt` and their construction from the string `crypt(3)` returns.
`none`-like outcomes of the source are kept apart: a failed `crypt(3)`, a division by
zero and a probe that never ends. -/
namespace Unitas.Crypt
open Unitas.CInt

/-- `char t[ROTORSZ]`. -/
abbrev Table := Fin 256 → ℤ

structure Rotors where
  t1 : Table
  t2 : Table
  t3 : Table

inductive Stop
  | cryptFailed
  | divisionByZero
  | endlessProbe
  deriving DecidableEq, Repr

/-- The table index `x & MASK`. -/
def index (x : ℤ) : Fin 256 := ⟨(mask x).toNat, by
  have h0 := mask_nonneg x
  have h1 := mask_lt x
  omega⟩

@[simp] theorem index_char (x : ℤ) : index (char x) = index x := by
  simp [index]

@[simp] theorem index_val (j : Fin 256) : index (j : ℕ) = j := by
  have h : mask (j : ℕ) = (j : ℕ) := mask_of_lt (by omega) (by omega)
  simp [index, h]

@[simp] theorem index_zero : index 0 = 0 := rfl

theorem char_val_eq_zero (j : Fin 256) : char (j : ℕ) = 0 ↔ j = 0 := by
  rw [char_eq_zero_iff, mask_of_lt (by omega) (by omega), Fin.ext_iff]
  simp

/-- `while (t3[ic] != 0) ic = (ic+1) % k;` with a bound on the number of rounds. -/
def probe (t3 : Table) (k : Fin 256) (hk : 0 < (k : ℕ)) : ℕ → Fin 256 → Option (Fin 256)
  | 0, _ => none
  | fuel + 1, ic =>
    if t3 ic ≠ 0 then
      probe t3 k hk fuel ⟨(ic + 1) % k, (Nat.mod_lt _ hk).trans k.isLt⟩
    else some ic

/-- Variables the mixing loop of `setup` carries from one round to the next. -/
structure Mix where
  seed : ℤ
  t1 : Table
  t3 : Table

/-- One round of the mixing loop, for `k = ROTORSZ-1 - i`. After `k` rounds the probe has
looked at every slot below `k`, so a larger bound would not help it. -/
def mixRound (buf : Fin 13 → ℤ) (s : Mix) (k : Fin 256) : Except Stop Mix :=
  let i := 255 - (k : ℕ)
  let seed := wrap 64 (5 * s.seed + buf ⟨i % 13, Nat.mod_lt _ (by decide)⟩)
  let random := (uwrap 32 (seed.tmod 65521)).toNat
  let ic : Fin 256 := ⟨random % 256 % (k + 1), (Nat.mod_lt _ (by omega)).trans_le (by omega)⟩
  let t1 := Function.update (Function.update s.t1 k (s.t1 ic)) ic (s.t1 k)
  if s.t3 k ≠ 0 then .ok ⟨seed, t1, s.t3⟩
  else if hk : 0 < (k : ℕ) then
    let ic : Fin 256 := ⟨random / 256 % 256 % k, (Nat.mod_lt _ hk).trans k.isLt⟩
    match probe s.t3 k hk k ic with
    | none => .error .endlessProbe
    | some ic =>
      .ok ⟨seed, t1, Function.update (Function.update s.t3 k (char (ic : ℕ))) ic (char (k : ℕ))⟩
  else .error .divisionByZero

/-- The mixing loop with `n` rounds left, for `k = n-1` down to `0`. -/
def mixRounds (buf : Fin 13 → ℤ) : (n : ℕ) → n ≤ 256 → Mix → Except Stop Mix
  | 0, _, s => .ok s
  | n + 1, h, s => do
    let s ← mixRound buf s ⟨n, h⟩
    mixRounds buf n (Nat.le_of_succ_le h) s

/-- `for (i = 0; i < 13; i++) seed = seed*buf[i] + i;` from 123. -/
def initialSeed (buf : Fin 13 → ℤ) : ℤ :=
  (List.finRange 13).foldl (fun seed i => wrap 64 (seed * buf i + (i : ℕ))) 123

/-- `for (i = 0; i < ROTORSZ; i++) t2[t1[i]&MASK] = i;` -/
def inverse (t1 : Table) : Table :=
  (List.finRange 256).foldl (fun t2 i => Function.update t2 (index (t1 i)) (char (i : ℕ)))
    (fun _ => 0)

/-- `strncpy(buf, s, n)`: the string's characters, padded with NULs. -/
def strncpy (s : List ℤ) (n : ℕ) : Fin n → ℤ := fun i => s.getD i 0

/-- `setup`, for the library's `crypt` as a function of the key and the salt. -/
def setup (crypt : (Fin 8 → ℤ) → (Fin 2 → ℤ) → Option (Fin 13 → ℤ)) (pw : List ℤ) :
    Except Stop Rotors :=
  let buf := strncpy pw 8
  match crypt buf (fun i => buf (i.castLE (by decide))) with
  | none => .error .cryptFailed
  | some buf => do
    let s ← mixRounds buf 256 le_rfl ⟨initialSeed buf, fun i => char (i : ℕ), fun _ => 0⟩
    return ⟨s.t1, inverse s.t1, s.t3⟩

end Unitas.Crypt

/-! `setup` always finishes, and the rotors it builds are mutually inverse permutations
and a fixed-point-free involution, whatever the 13 characters of the key schedule are. -/
namespace Unitas.Crypt
open Unitas.CInt

section Pairing

/-- Slots below `n` that have no partner yet. -/
def free (t3 : Table) (n : ℕ) : Finset (Fin 256) := {j | (j : ℕ) < n ∧ t3 j = 0}

/-- State of `t3` once every index from `n` on has a partner. A slot below `n` is either
free or already the lower partner of a finished one. -/
structure Paired (t3 : Table) (n : ℕ) : Prop where
  finished : ∀ j : Fin 256, n ≤ j → index (t3 j) ≠ j ∧ index (t3 (index (t3 j))) = j
  lower : ∀ j : Fin 256, (j : ℕ) < n → t3 j ≠ 0 →
    n ≤ index (t3 j) ∧ index (t3 (index (t3 j))) = j
  even : Even (free t3 n).card

@[simp] theorem mem_free {t3 : Table} {n : ℕ} {j : Fin 256} :
    j ∈ free t3 n ↔ (j : ℕ) < n ∧ t3 j = 0 := by
  simp [free]

theorem paired_initial : Paired (fun _ => 0) 256 where
  finished j hj := absurd j.isLt (by omega)
  lower _ _ h := absurd rfl h
  even := by
    have h : free (fun _ => 0) 256 = Finset.univ := by ext j; simp [j.isLt]
    rw [h, Finset.card_fin]
    decide

theorem paired_of_taken {t3 : Table} {k : Fin 256} (hp : Paired t3 (k + 1)) (hk : t3 k ≠ 0) :
    Paired t3 k := by
  have hfree : free t3 k = free t3 (k + 1) := by
    ext j
    simp only [mem_free]
    constructor
    · exact fun ⟨h, hz⟩ => ⟨by omega, hz⟩
    · rintro ⟨h, hz⟩
      have : j ≠ k := by rintro rfl; exact hk hz
      exact ⟨by omega, hz⟩
  refine ⟨fun j hj => ?_, fun j hj hz => ?_, hfree ▸ hp.even⟩
  · by_cases he : j = k
    · subst he
      obtain ⟨hl, hi⟩ := hp.lower j (by omega) hk
      exact ⟨fun h => by rw [h] at hl; omega, hi⟩
    · exact hp.finished j (by omega)
  · obtain ⟨hl, hi⟩ := hp.lower j (by omega) hz
    exact ⟨by omega, hi⟩

/-- The table after `t3[k] = ic; t3[ic] = k;`. -/
def join (t3 : Table) (k ic : Fin 256) : Table :=
  Function.update (Function.update t3 k (char (ic : ℕ))) ic (char (k : ℕ))

theorem join_right (t3 : Table) (k ic : Fin 256) : join t3 k ic ic = char (k : ℕ) := by
  simp [join]

theorem join_left (t3 : Table) {k ic : Fin 256} (h : k ≠ ic) :
    join t3 k ic k = char (ic : ℕ) := by
  simp [join, h]

theorem join_other (t3 : Table) {k ic j : Fin 256} (hk : j ≠ k) (hi : j ≠ ic) :
    join t3 k ic j = t3 j := by
  simp [join, hk, hi]

/-- A partner of a finished slot is never a free one: a free slot points at 0, and 0 is
its own partner only before anything is paired. -/
private theorem partner_ne_free {t3 : Table} {i j : Fin 256} (hj : j ≠ 0)
    (hi : index (t3 (index (t3 j))) = j) (hz : t3 i = 0) : index (t3 j) ≠ i := by
  intro h
  rw [h, hz, index_zero] at hi
  exact hj hi.symm

theorem paired_join {t3 : Table} {k ic : Fin 256} (hp : Paired t3 (k + 1)) (hk : t3 k = 0)
    (hlt : ic < k) (hic : t3 ic = 0) : Paired (join t3 k ic) k := by
  have hne : k ≠ ic := hlt.ne'
  have hk0 : k ≠ 0 := fun h => by rw [h] at hlt; exact absurd hlt (Fin.not_lt_zero _)
  -- A pair made earlier touches neither `k` nor `ic`.
  have hold : ∀ j : Fin 256, j ≠ 0 → j ≠ k → j ≠ ic → index (t3 (index (t3 j))) = j →
      index (join t3 k ic (index (join t3 k ic j))) = j := by
    intro j h0 hjk hji hi
    rw [join_other t3 hjk hji,
      join_other t3 (partner_ne_free h0 hi hk) (partner_ne_free h0 hi hic), hi]
  refine ⟨fun j hj => ?_, fun j hj hz => ?_, ?_⟩
  · by_cases he : j = k
    · subst he
      rw [join_left t3 hne, index_char, index_val, join_right, index_char, index_val]
      exact ⟨hne.symm, rfl⟩
    · obtain ⟨hfix, hi⟩ := hp.finished j (by omega)
      have hji : j ≠ ic := by omega
      refine ⟨by rwa [join_other t3 he hji], hold j (by omega) he hji hi⟩
  · by_cases he : j = ic
    · subst he
      rw [join_right, index_char, index_val, join_left t3 hne, index_char, index_val]
      exact ⟨le_rfl, rfl⟩
    · have hjk : j ≠ k := by omega
      rw [join_other t3 hjk he] at hz
      obtain ⟨hl, hi⟩ := hp.lower j (by omega) hz
      by_cases h0 : j = 0
      · subst h0
        have hkp : index (t3 0) ≠ k := by omega
        have hip : index (t3 0) ≠ ic := by omega
        rw [join_other t3 hjk he, join_other t3 hkp hip]
        exact ⟨by omega, hi⟩
      · refine ⟨by rw [join_other t3 hjk he]; omega, hold j h0 hjk he hi⟩
  · have hset : free (join t3 k ic) k = ((free t3 (k + 1)).erase k).erase ic := by
      ext j
      simp only [mem_free, Finset.mem_erase]
      by_cases hji : j = ic
      · subst hji
        have hnz : join t3 k j j ≠ 0 := by
          rw [join_right, Ne, char_val_eq_zero]
          exact hk0
        simp [hnz]
      · by_cases hjk : j = k
        · simp [hjk]
        · rw [join_other t3 hjk hji]
          constructor
          · exact fun ⟨h, hz⟩ => ⟨hji, hjk, by omega, hz⟩
          · exact fun ⟨_, _, h, hz⟩ => ⟨by omega, hz⟩
    have hmk : k ∈ free t3 (k + 1) := by simp [hk]
    have hmi : ic ∈ (free t3 (k + 1)).erase k := by
      simp only [Finset.mem_erase, mem_free]
      exact ⟨hne.symm, by omega, hic⟩
    rw [hset, Finset.card_erase_of_mem hmi, Finset.card_erase_of_mem hmk]
    have he := hp.even
    have hpos := Finset.card_pos.mpr ⟨ic, hmi⟩
    rw [Finset.card_erase_of_mem hmk] at hpos
    rw [Nat.even_sub (by omega), Nat.even_sub (by omega)]
    simp [he]

/-- A free slot has a free slot below it, since the free ones are even in number. -/
theorem exists_free_below {t3 : Table} {k : Fin 256} (hp : Paired t3 (k + 1)) (hk : t3 k = 0) :
    ∃ ic : Fin 256, ic < k ∧ t3 ic = 0 := by
  have hmk : k ∈ free t3 (k + 1) := by simp [hk]
  have hpos := Finset.card_pos.mpr ⟨k, hmk⟩
  obtain ⟨m, hm⟩ := hp.even
  obtain ⟨ic, hi, hne⟩ := Finset.exists_mem_ne (by omega : 1 < (free t3 (k + 1)).card) k
  rw [mem_free] at hi
  exact ⟨ic, by omega, hi.2⟩

end Pairing

section Probe

variable {t3 : Table} {k : Fin 256} {hk : 0 < (k : ℕ)}

theorem probe_free {fuel : ℕ} {ic r : Fin 256} (hlt : ic < k)
    (h : probe t3 k hk fuel ic = some r) : r < k ∧ t3 r = 0 := by
  induction fuel generalizing ic with
  | zero => simp [probe] at h
  | succ fuel ih =>
    rw [probe] at h
    split_ifs at h with hz
    · exact ih (Fin.lt_def.mpr (Nat.mod_lt _ hk)) h
    · rw [← Option.some.inj h]
      exact ⟨hlt, not_not.mp hz⟩

theorem taken_of_probe_none {fuel : ℕ} {ic : Fin 256} (hlt : ic < k)
    (h : probe t3 k hk fuel ic = none) (m : ℕ) (hm : m < fuel) (j : Fin 256)
    (hj : (j : ℕ) = (ic + m) % k) : t3 j ≠ 0 := by
  induction fuel generalizing ic m with
  | zero => omega
  | succ fuel ih =>
    rw [probe] at h
    split_ifs at h with hz
    cases m with
    | zero =>
      have : j = ic := by
        rw [Fin.ext_iff, hj, Nat.add_zero, Nat.mod_eq_of_lt (Fin.lt_def.mp hlt)]
      rwa [this]
    | succ m =>
      refine ih (Fin.lt_def.mpr (Nat.mod_lt _ hk)) h m (by omega) ?_
      rw [hj]
      simp only [Nat.mod_add_mod]
      congr 1
      omega

/-- `k` rounds are enough: they look at every slot below `k`. -/
theorem probe_finds (hk : 0 < (k : ℕ)) (ic : Fin 256) {j : Fin 256} (hlt : ic < k) (hj : j < k) (hz : t3 j = 0) :
    ∃ r, probe t3 k hk k ic = some r ∧ r < k ∧ t3 r = 0 := by
  cases h : probe t3 k hk k ic with
  | some r => exact ⟨r, rfl, probe_free hlt h⟩
  | none =>
    rw [Fin.lt_def] at hlt hj
    refine absurd hz (taken_of_probe_none (Fin.lt_def.mpr hlt) h ((k + j - ic) % k)
      (Nat.mod_lt _ hk) j ?_)
    rw [Nat.add_mod_mod, show (ic : ℕ) + (k + j - ic) = j + k by omega, Nat.add_mod_right,
      Nat.mod_eq_of_lt hj]

end Probe

section Shuffle

/-- `t1` holds each byte exactly once. -/
def Shuffled (t1 : Table) : Prop :=
  ∃ σ : Equiv.Perm (Fin 256), ∀ i, t1 i = char (σ i : ℕ)

theorem shuffled_initial : Shuffled (fun i => char (i : ℕ)) := ⟨Equiv.refl _, fun _ => rfl⟩

theorem shuffled_swap {t1 : Table} (h : Shuffled t1) (k ic : Fin 256) :
    Shuffled (Function.update (Function.update t1 k (t1 ic)) ic (t1 k)) := by
  obtain ⟨σ, hσ⟩ := h
  refine ⟨(Equiv.swap k ic).trans σ, fun i => ?_⟩
  rw [Equiv.trans_apply, ← hσ, Equiv.swap_apply_def]
  by_cases hi : i = ic
  · by_cases hk : ic = k <;> simp [hi, hk]
  · by_cases hk : i = k
    · simp [hk, show k ≠ ic from fun h => hi (hk.trans h)]
    · simp [hi, hk]

theorem foldl_update_index (f : Fin 256 → Fin 256) (hf : Function.Injective f)
    (l : List (Fin 256)) (t : Table) (i : Fin 256) (hl : l.Nodup) :
    l.foldl (fun t2 i => Function.update t2 (f i) (char (i : ℕ))) t (f i) =
      if i ∈ l then char (i : ℕ) else t (f i) := by
  induction l generalizing t with
  | nil => simp
  | cons a l ih =>
    rw [List.nodup_cons] at hl
    rw [List.foldl_cons, ih _ hl.2]
    by_cases ha : i = a
    · subst ha
      simp [hl.1]
    · simp [ha, hf.ne ha]

theorem inverse_index {t1 : Table} (h : Function.Injective fun i => index (t1 i)) (i : Fin 256) :
    inverse t1 (index (t1 i)) = char (i : ℕ) := by
  have hl := foldl_update_index (fun i => index (t1 i)) h (List.finRange 256) (fun _ => 0) i
    (List.nodup_finRange _)
  rw [if_pos (List.mem_finRange i)] at hl
  exact hl

end Shuffle

/-- What `setup` guarantees about the rotors, as permutations of `0..255`. -/
structure Rotors.WellFormed (r : Rotors) : Prop where
  t2_t1 : ∀ i, index (r.t2 (index (r.t1 i))) = i
  t1_t2 : ∀ i, index (r.t1 (index (r.t2 i))) = i
  t3_ne : ∀ i, index (r.t3 i) ≠ i
  t3_t3 : ∀ i, index (r.t3 (index (r.t3 i))) = i

theorem wellFormed_of_mixed {t1 t3 : Table} (h1 : Shuffled t1) (h3 : Paired t3 0) :
    Rotors.WellFormed ⟨t1, inverse t1, t3⟩ := by
  obtain ⟨σ, hσ⟩ := h1
  have hidx : (fun i => index (t1 i)) = σ := by
    funext i
    rw [hσ, index_char, index_val]
  have hleft : ∀ i, index (inverse t1 (index (t1 i))) = i := by
    intro i
    rw [inverse_index (by rw [hidx]; exact σ.injective), index_char, index_val]
  have hright : ∀ i, index (t1 (index (inverse t1 i))) = i := by
    intro i
    have hi : index (t1 (σ.symm i)) = i := by
      rw [hσ, index_char, index_val, Equiv.apply_symm_apply]
    have hback := hleft (σ.symm i)
    rw [hi] at hback
    rw [hback, hi]
  generalize inverse t1 = t2 at hleft hright
  exact ⟨hleft, hright, fun i => (h3.finished i (Nat.zero_le _)).1,
    fun i => (h3.finished i (Nat.zero_le _)).2⟩

/-- One round keeps `t1` a permutation, settles slot `k` of `t3` and cannot fail. -/
theorem mixRound_ok (buf : Fin 13 → ℤ) (s : Mix) (k : Fin 256) (h1 : Shuffled s.t1)
    (h3 : Paired s.t3 (k + 1)) :
    ∃ s', mixRound buf s k = .ok s' ∧ Shuffled s'.t1 ∧ Paired s'.t3 k := by
  simp only [mixRound]
  by_cases hk : s.t3 k = 0
  · obtain ⟨j, hj, hz⟩ := exists_free_below h3 hk
    have hpos : 0 < (k : ℕ) := by rw [Fin.lt_def] at hj; omega
    rw [if_neg (not_not.mpr hk), dif_pos hpos]
    obtain ⟨r, hr, hlt, hfree⟩ := probe_finds hpos ⟨_, (Nat.mod_lt
      ((uwrap 32 ((wrap 64 (5 * s.seed + buf ⟨(255 - (k : ℕ)) % 13, Nat.mod_lt _ (by decide)⟩)).tmod
        65521)).toNat / 256 % 256) hpos).trans k.isLt⟩
      (Fin.lt_def.mpr (Nat.mod_lt _ hpos)) hj hz
    rw [hr]
    exact ⟨_, rfl, shuffled_swap h1 _ _, paired_join h3 hk hlt hfree⟩
  · rw [if_pos hk]
    exact ⟨_, rfl, shuffled_swap h1 _ _, paired_of_taken h3 hk⟩

theorem mixRounds_ok (buf : Fin 13 → ℤ) (n : ℕ) (hn : n ≤ 256) (s : Mix) (h1 : Shuffled s.t1)
    (h3 : Paired s.t3 n) :
    ∃ s', mixRounds buf n hn s = .ok s' ∧ Shuffled s'.t1 ∧ Paired s'.t3 0 := by
  induction n generalizing s with
  | zero => exact ⟨s, rfl, h1, h3⟩
  | succ n ih =>
    obtain ⟨s', hs, h1', h3'⟩ := mixRound_ok buf s ⟨n, hn⟩ h1 h3
    obtain ⟨s'', hs', h⟩ := ih (Nat.le_of_succ_le hn) s' h1' h3'
    refine ⟨s'', ?_, h⟩
    rw [mixRounds, hs]
    exact hs'

theorem setup_ok {crypt : (Fin 8 → ℤ) → (Fin 2 → ℤ) → Option (Fin 13 → ℤ)} {pw : List ℤ}
    {ret : Fin 13 → ℤ}
    (hc : crypt (strncpy pw 8) (fun i => strncpy pw 8 (i.castLE (by decide))) = some ret) :
    ∃ r, setup crypt pw = .ok r ∧ r.WellFormed := by
  simp only [setup, hc]
  generalize initialSeed ret = seed
  obtain ⟨s, hs, h1, h3⟩ := mixRounds_ok ret 256 le_rfl ⟨seed, fun i => char (i : ℕ), fun _ => 0⟩
    (by dsimp only; exact shuffled_initial) (by dsimp only; exact paired_initial)
  rw [hs]
  exact ⟨_, rfl, wellFormed_of_mixed h1 h3⟩

end Unitas.Crypt
