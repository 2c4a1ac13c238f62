import Unitas.Bnu.Erddata

/-! When `erddata` returns, on a link whose `Read` may give nothing or fail at any time. -/
namespace Unitas.Bnu.Erd

/-- The results of `Read`, one after the other: the bytes that have come, which may be none, or a
negative one, as which an alarm counts. -/
abbrev Reads := ℕ → Option (List UInt8)

/-- A long as an `int`. -/
def toInt (n : ℤ) : ℤ := n.bmod (2 ^ 32)

/-- `erdblk`, from the `n`-th `Read` on: what it has got, and how many times `Read` has been called
then. -/
def erdblk (read : Reads) (len n : ℕ) : Option (List UInt8) × ℕ :=
  if len = 0 then (some [], n)
  else
    match read n with
    | none => (none, n + 1)
    | some bytes =>
      if bytes.take len = [] then (some [], n + 1)
      else
        let (blk, n) := erdblk read (len - (bytes.take len).length) (n + 1)
        (blk.map (bytes.take len ++ ·), n)
termination_by len
decreasing_by
  rename_i hne
  have := List.length_pos_iff.mpr hne
  omega

/-- How many bytes `erdblk` stores at `blk`, also where a `Read` fails after them. -/
def stored (read : Reads) (len n : ℕ) : ℕ :=
  if len = 0 then 0
  else
    match read n with
    | none => 0
    | some bytes =>
      if bytes.take len = [] then 0
      else (bytes.take len).length + stored read (len - (bytes.take len).length) (n + 1)
termination_by len
decreasing_by
  rename_i hne
  have := List.length_pos_iff.mpr hne
  omega

/-- What `erddata` returns. -/
inductive Outcome where
  | fail
  | success
  | efbig
  | errno
  deriving DecidableEq, Repr

/-- The loop of `erddata` with `msglen` still to come; `write` tells of each block whether it can be
written to the file. Nothing is known of what is stored behind the `EBUFSIZ` bytes of `bufr`. -/
def erdBlocks (read : Reads) (write : List UInt8 → Bool) :
    ℕ → Outcome → ℤ → ℕ → Option Outcome
  | 0, _, _, _ => none
  | fuel + 1, ret, msglen, n =>
    let len := (toInt (min msglen EBUFSIZ)).toNat
    if EBUFSIZ < stored read len n then none
    else
      match erdblk read len n with
      | (none, _) => some .fail
      | (some bufr, n) =>
        let msglen := msglen - bufr.length
        if msglen < 0 then some .fail
        else
          let ret := if ret = .success ∧ ¬ write bufr then .errno else ret
          if msglen = 0 then some ret else erdBlocks read write fuel ret msglen n

/-- `cmsglen`, what is left in the stash, and the number of calls of `Read`. -/
def readLength (read : Reads) (stash : List UInt8) : Option (List UInt8 × List UInt8 × ℕ) :=
  if EMESGLEN ≤ stash.length then some (stash.take EMESGLEN, stash.drop EMESGLEN, 0)
  else
    let len := EMESGLEN - stash.length
    match erdblk read len 0 with
    | (none, _) => none
    | (some bytes, n) => if bytes.length ≠ len then none else some (stash ++ bytes, [], n)

/-- `erddata`. What `sscanf` leaves in `msglen` is the announced length. -/
def erddata (read : Reads) (sscanf : List UInt8 → ℤ) (write : List UInt8 → Bool) (Ulimit : ℤ)
    (stash : List UInt8) (fuel : ℕ) : Option Outcome :=
  match readLength read stash with
  | none => some .fail
  | some (cmsglen, rest, n) =>
    let msglen := sscanf cmsglen
    let ret := if (msglen - 1).tdiv 512 + 1 > Ulimit then Outcome.efbig else .success
    if rest ≠ [] ∧ ¬ write rest then some .fail
    else erdBlocks read write fuel ret (msglen - rest.length) n

/-- At most `k` calls of `Read`, from the `n`-th on, bring `m` bytes, or one of them fails. They go
into blocks, and there is room for `room` more bytes in the first. -/
def BringIn (read : Reads) : ℕ → ℕ → ℕ → ℕ → Prop
  | 0, _, m, _ => m = 0
  | k + 1, n, m, room =>
    m = 0 ∨
      match read n with
      | none => True
      | some bytes =>
        let got := (bytes.take (min m room)).length
        BringIn read k (n + 1) (m - got) (if got = 0 ∨ got = room then EBUFSIZ else room - got)

/-- From the `n`-th `Read` on, `m` bytes come, or a `Read` fails before. -/
def Brings (read : Reads) (n m : ℕ) : Prop := ∃ k, BringIn read k n m EBUFSIZ

variable {read : Reads}

theorem bringIn_zero (k n room : ℕ) : BringIn read k n 0 room := by
  cases k with
  | zero => exact rfl
  | succ k => exact Or.inl rfl

/-- What is left to be seen behind a block. -/
def Behind (P : ℕ → ℕ → Prop) (m : ℕ) : Option (List UInt8) × ℕ → Prop
  | (none, _) => True
  | (some bytes, n) => P n (m - bytes.length)

theorem behind_map {P : ℕ → ℕ → Prop} {m : ℕ} (chunk : List UInt8)
    (r : Option (List UInt8) × ℕ) :
    Behind P m (r.1.map (chunk ++ ·), r.2) ↔ Behind P (m - chunk.length) r := by
  obtain ⟨blk, n⟩ := r
  cases blk with
  | none => exact Iff.rfl
  | some bytes =>
    unfold Behind
    dsimp only [Option.map_some]
    rw [List.length_append, Nat.sub_sub]

theorem behind_mono {P P' : ℕ → ℕ → Prop} (h : ∀ n m, P n m → P' n m) {m : ℕ}
    {r : Option (List UInt8) × ℕ} (hr : Behind P m r) : Behind P' m r := by
  obtain ⟨blk, n⟩ := r
  cases blk with
  | none => exact True.intro
  | some bytes => exact h _ _ hr

/-- A block from a `Read` that has brought something. -/
theorem erdblk_some {len n : ℕ} {bytes : List UInt8} (hlen : len ≠ 0) (hread : read n = some bytes)
    (hne : bytes.take len ≠ []) :
    erdblk read len n =
      ((erdblk read (len - (bytes.take len).length) (n + 1)).1.map (bytes.take len ++ ·),
        (erdblk read (len - (bytes.take len).length) (n + 1)).2) := by
  rw [erdblk, if_neg hlen, hread]
  dsimp only
  rw [if_neg hne]

theorem erdblk_zero (n : ℕ) : erdblk read 0 n = (some [], n) := by
  rw [erdblk, if_pos rfl]

/-- Of the calls that bring the bytes, at least one is for the first block. -/
theorem behind_of_bringIn (k : ℕ) : ∀ n m room, 0 < m → 0 < room → BringIn read k n m room →
    Behind (fun n' m' => ∃ k', k' < k ∧ BringIn read k' n' m' EBUFSIZ) m
      (erdblk read (min m room) n) := by
  induction k with
  | zero =>
    intro n m room hm _ h
    obtain rfl : m = 0 := h
    omega
  | succ k ih =>
    intro n m room hm hroom h
    have hlen : min m room ≠ 0 := by omega
    have h := h.resolve_left (by omega)
    cases hread : read n with
    | none =>
      rw [erdblk, if_neg hlen, hread]
      exact True.intro
    | some bytes =>
      rw [hread] at h
      dsimp only at h
      by_cases hnil : bytes.take (min m room) = []
      · rw [erdblk, if_neg hlen, hread]
        dsimp only
        rw [if_pos hnil]
        rw [hnil, List.length_nil, if_pos (Or.inl rfl)] at h
        exact ⟨k, Nat.lt_succ_self k, h⟩
      · have hpos := List.length_pos_iff.mpr hnil
        have hle : (bytes.take (min m room)).length ≤ min m room := List.length_take_le _ _
        rw [erdblk_some hlen hread hnil, behind_map]
        generalize (bytes.take (min m room)).length = got at h hpos hle
        by_cases hfull : got = room ∨ got = m
        · -- the block is complete
          have hrest : min m room - got = 0 := by omega
          rw [hrest, erdblk_zero]
          refine ⟨k, Nat.lt_succ_self k, ?_⟩
          rw [List.length_nil, Nat.sub_zero]
          rcases hfull with hfull | hfull
          · rw [if_pos (Or.inr hfull)] at h
            exact h
          · rw [hfull, Nat.sub_self]
            exact bringIn_zero k _ _
        · rw [if_neg (by omega)] at h
          have hmin : min m room - got = min (m - got) (room - got) := by omega
          rw [hmin]
          refine behind_mono ?_ (ih (n + 1) (m - got) (room - got) (by omega) (by omega) h)
          rintro n' m' ⟨k', hk', h'⟩
          exact ⟨k', hk'.trans (Nat.lt_succ_self k), h'⟩

/-- When the bytes come behind the first block, they come. -/
theorem bringIn_of_behind (len : ℕ) : ∀ n m room, len = min m room → 0 < m → 0 < room →
    Behind (Brings read) m (erdblk read len n) → ∃ k, BringIn read k n m room := by
  induction len using Nat.strong_induction_on with
  | _ len ih =>
    intro n m room hlen hm hroom h
    have hne : len ≠ 0 := by omega
    cases hread : read n with
    | none =>
      refine ⟨1, Or.inr ?_⟩
      rw [hread]
      exact True.intro
    | some bytes =>
      by_cases hnil : bytes.take len = []
      · rw [erdblk, if_neg hne, hread] at h
        dsimp only at h
        rw [if_pos hnil] at h
        obtain ⟨k, hk⟩ := h
        refine ⟨k + 1, Or.inr ?_⟩
        rw [hread]
        dsimp only
        rw [← hlen, hnil, List.length_nil, if_pos (Or.inl rfl)]
        exact hk
      · have hpos := List.length_pos_iff.mpr hnil
        have hle : (bytes.take len).length ≤ len := List.length_take_le _ _
        rw [erdblk_some hne hread hnil, behind_map] at h
        suffices hk : ∃ k, BringIn read k (n + 1) (m - (bytes.take len).length)
            (if (bytes.take len).length = 0 ∨ (bytes.take len).length = room then EBUFSIZ
              else room - (bytes.take len).length) by
          obtain ⟨k, hk⟩ := hk
          refine ⟨k + 1, Or.inr ?_⟩
          rw [hread]
          dsimp only
          rw [← hlen]
          exact hk
        generalize (bytes.take len).length = got at h hpos hle ⊢
        by_cases hfull : got = len
        · rw [hfull, Nat.sub_self, erdblk_zero] at h
          obtain ⟨k, hk⟩ := h
          rw [List.length_nil, Nat.sub_zero] at hk
          rw [hfull]
          by_cases hroomlen : len = room
          · rw [if_pos (Or.inr hroomlen)]
            exact ⟨k, hk⟩
          · have hzero : m - len = 0 := by omega
            rw [hzero]
            exact ⟨0, rfl⟩
        · rw [if_neg (by omega)]
          exact ih (len - got) (by omega) (n + 1) (m - got) (room - got) (by omega) (by omega)
            (by omega) h

theorem toInt_eq {m : ℕ} (hm : m ≤ EBUFSIZ) : toInt m = m := by
  unfold EBUFSIZ at hm
  unfold toInt
  rw [Int.bmod_def]
  omega

/-- No more is stored than is asked for. -/
theorem stored_le (len : ℕ) : ∀ n, stored read len n ≤ len := by
  induction len using Nat.strong_induction_on with
  | _ len ih =>
    intro n
    rw [stored]
    split_ifs with h0
    · exact Nat.zero_le _
    · split
      · exact Nat.zero_le _
      · split_ifs with hnil
        · exact Nat.zero_le _
        · have hpos := List.length_pos_iff.mpr hnil
          have hle := List.length_take_le len ‹List UInt8›
          have := ih (len - (List.take len ‹List UInt8›).length) (by omega) (n + 1)
          omega

variable {write : List UInt8 → Bool}

/-- One turn of the loop, with something still to come. -/
theorem erdBlocks_succ (fuel : ℕ) (ret : Outcome) (m n : ℕ) :
    ((erdBlocks read write (fuel + 1) ret m n).isSome = true →
      Behind (fun n' m' => m' = 0 ∨
        ∃ ret', (erdBlocks read write fuel ret' m' n').isSome = true) m
        (erdblk read (min m EBUFSIZ) n)) ∧
    (Behind (fun n' m' => m' = 0 ∨
        ∀ ret', (erdBlocks read write fuel ret' m' n').isSome = true) m
        (erdblk read (min m EBUFSIZ) n) →
      (erdBlocks read write (fuel + 1) ret m n).isSome = true) := by
  have hlen : (toInt (min (m : ℤ) EBUFSIZ)).toNat = min m EBUFSIZ := by
    have hmin : min (m : ℤ) EBUFSIZ = (min m EBUFSIZ : ℕ) := by omega
    rw [hmin, toInt_eq (Nat.min_le_right _ _), Int.toNat_natCast]
  have hroom : ¬ EBUFSIZ < stored read (min m EBUFSIZ) n := by
    have := @stored_le read (min m EBUFSIZ) n
    omega
  rw [erdBlocks, hlen]
  dsimp only
  rw [if_neg hroom]
  generalize erdblk read (min m EBUFSIZ) n = r
  obtain ⟨blk, n'⟩ := r
  cases blk with
  | none => exact ⟨fun _ => True.intro, fun _ => rfl⟩
  | some bytes =>
    unfold Behind
    dsimp only
    by_cases hneg : (m : ℤ) - bytes.length < 0
    · rw [if_pos hneg]
      exact ⟨fun _ => Or.inl (by omega), fun _ => rfl⟩
    · rw [if_neg hneg]
      by_cases hzero : (m : ℤ) - bytes.length = 0
      · rw [if_pos hzero]
        exact ⟨fun _ => Or.inl (by omega), fun _ => rfl⟩
      · rw [if_neg hzero]
        have hcast : (m : ℤ) - bytes.length = (m - bytes.length : ℕ) := by omega
        rw [hcast]
        refine ⟨fun h => Or.inr ⟨_, h⟩, fun h => ?_⟩
        exact h.resolve_left (by omega) _

theorem brings_zero (n : ℕ) : Brings read n 0 := ⟨0, rfl⟩

theorem brings_of_blocks (fuel : ℕ) : ∀ (ret : Outcome) (m n : ℕ), 0 < m →
    (erdBlocks read write fuel ret m n).isSome = true → Brings read n m := by
  induction fuel with
  | zero => exact fun _ _ _ _ h => absurd h (by simp [erdBlocks])
  | succ fuel ih =>
    intro ret m n hm h
    have hbehind := (erdBlocks_succ fuel ret m n).1 h
    refine bringIn_of_behind _ n m EBUFSIZ rfl hm (by decide) (behind_mono ?_ hbehind)
    intro n' m' h'
    rcases Nat.eq_zero_or_pos m' with rfl | hpos
    · exact brings_zero n'
    · obtain ⟨ret', hsome⟩ := h'.resolve_left (by omega)
      exact ih ret' m' n' hpos hsome

/-- The number of calls is enough for the turns. -/
theorem blocks_of_bringIn (fuel : ℕ) : ∀ (k : ℕ) (ret : Outcome) (m n : ℕ), k ≤ fuel → 0 < m →
    BringIn read k n m EBUFSIZ → (erdBlocks read write fuel ret m n).isSome = true := by
  induction fuel with
  | zero =>
    intro k ret m n hk hm h
    obtain rfl : k = 0 := Nat.le_zero.mp hk
    obtain rfl : m = 0 := h
    omega
  | succ fuel ih =>
    intro k ret m n hk hm h
    refine (erdBlocks_succ fuel ret m n).2 ?_
    refine behind_mono ?_ (behind_of_bringIn k n m EBUFSIZ hm (by decide) h)
    rintro n' m' ⟨k', hk', h'⟩
    rcases Nat.eq_zero_or_pos m' with rfl | hpos
    · exact Or.inl rfl
    · exact Or.inr fun ret' => ih k' ret' m' n' (by omega) hpos h'

theorem blocks_iff (ret : Outcome) {m : ℕ} (hm : 0 < m) (n : ℕ) :
    (∃ fuel, (erdBlocks read write fuel ret m n).isSome = true) ↔ Brings read n m := by
  constructor
  · rintro ⟨fuel, h⟩
    exact brings_of_blocks fuel ret m n hm h
  · rintro ⟨k, h⟩
    exact ⟨k, blocks_of_bringIn k k ret m n le_rfl hm h⟩

/-- Without anything to come, one turn is the last, if its bytes have room. -/
theorem blocks_nonpos (ret : Outcome) {msglen : ℤ} (h : msglen ≤ 0) (n : ℕ) :
    (∃ fuel, (erdBlocks read write fuel ret msglen n).isSome = true) ↔
      stored read (toInt msglen).toNat n ≤ EBUFSIZ := by
  have hmin : min msglen (EBUFSIZ : ℤ) = msglen := min_eq_left (h.trans (by decide))
  constructor
  · rintro ⟨fuel, hfuel⟩
    by_contra hroom
    cases fuel with
    | zero => cases hfuel
    | succ fuel =>
      rw [erdBlocks, hmin] at hfuel
      dsimp only at hfuel
      rw [if_pos (by omega)] at hfuel
      cases hfuel
  · intro hroom
    refine ⟨1, ?_⟩
    rw [erdBlocks, hmin]
    dsimp only
    rw [if_neg (by omega)]
    split
    · rfl
    · by_cases hneg : msglen - (‹List UInt8› : List UInt8).length < 0
      · rw [if_pos hneg]
        rfl
      · rw [if_neg hneg, if_pos (by omega)]
        rfl

/-- `erddata` returns, if and only if the length does not come whole, or the stash cannot be
written, or there is nothing to come behind it and what comes all the same has room in a block, or
the `Read`s bring what is to come or fail. -/
theorem erddata_returns (read : Reads) (sscanf : List UInt8 → ℤ) (write : List UInt8 → Bool)
    (Ulimit : ℤ) (stash : List UInt8) :
    (∃ fuel, (erddata read sscanf write Ulimit stash fuel).isSome = true) ↔
      ∀ cmsglen rest n, readLength read stash = some (cmsglen, rest, n) →
        (rest ≠ [] → write rest = true) →
        if 0 < sscanf cmsglen - rest.length then
          Brings read n (sscanf cmsglen - rest.length).toNat
        else stored read (toInt (sscanf cmsglen - rest.length)).toNat n ≤ EBUFSIZ := by
  unfold erddata
  cases hlength : readLength read stash with
  | none =>
    refine iff_of_true ⟨0, rfl⟩ fun _ _ _ h => ?_
    exact absurd h (by simp)
  | some r =>
    obtain ⟨cmsglen, rest, n⟩ := r
    dsimp only
    generalize (if (sscanf cmsglen - 1).tdiv 512 + 1 > Ulimit then Outcome.efbig
      else .success) = ret
    by_cases hstash : rest ≠ [] ∧ ¬ write rest = true
    · simp only [if_pos hstash]
      refine iff_of_true ⟨0, rfl⟩ fun cmsglen' rest' n' h hwrite => ?_
      obtain ⟨rfl, rfl, rfl⟩ : cmsglen = cmsglen' ∧ rest = rest' ∧ n = n' := by simpa using h
      exact absurd (hwrite hstash.1) hstash.2
    · simp only [if_neg hstash]
      have hwrite : rest ≠ [] → write rest = true := by
        intro hne
        by_contra h
        exact hstash ⟨hne, h⟩
      have hturns : (∃ fuel, (erdBlocks read write fuel ret (sscanf cmsglen - rest.length)
            n).isSome = true) ↔
          if 0 < sscanf cmsglen - rest.length then
            Brings read n (sscanf cmsglen - rest.length).toNat
          else stored read (toInt (sscanf cmsglen - rest.length)).toNat n ≤ EBUFSIZ := by
        split_ifs with hpos
        · have hcast : sscanf cmsglen - rest.length =
              ((sscanf cmsglen - rest.length).toNat : ℤ) := by omega
          rw [hcast, blocks_iff ret (by omega) n, Int.toNat_natCast]
        · exact blocks_nonpos ret (by omega) n
      rw [hturns]
      constructor
      · intro h cmsglen' rest' n' heq _
        obtain ⟨rfl, rfl, rfl⟩ : cmsglen = cmsglen' ∧ rest = rest' ∧ n = n' := by simpa using heq
        exact h
      · exact fun h => h cmsglen rest n rfl hwrite

/-- Nothing comes. -/
theorem not_brings_nothing (k : ℕ) : ∀ n m room, 0 < m →
    ¬ BringIn (fun _ => some []) k n m room := by
  induction k with
  | zero =>
    intro n m room hm h
    obtain rfl : m = 0 := h
    omega
  | succ k ih =>
    intro n m room hm h
    rcases h with rfl | h
    · omega
    · dsimp only at h
      rw [List.take_nil, List.length_nil] at h
      exact ih _ _ _ hm h

/-- A file of one byte is announced in the stash, and the link has come to its end. -/
theorem not_erddata_returns : ¬ ∀ (read : Reads) (sscanf : List UInt8 → ℤ)
    (write : List UInt8 → Bool) (Ulimit : ℤ) (stash : List UInt8),
    (∃ N, ∀ n, N ≤ n → read n = none ∨ read n = some []) →
    ∃ fuel, (erddata read sscanf write Ulimit stash fuel).isSome = true := by
  intro h
  have hreturns := h (fun _ => some []) (fun bytes => (scanLong bytes).getD 0) (fun _ => true) 1
    (49 :: List.replicate 19 0) ⟨0, fun _ _ => Or.inr rfl⟩
  rw [erddata_returns] at hreturns
  have hbrings := hreturns (49 :: List.replicate 19 0) [] 0 rfl (fun hne => absurd rfl hne)
  rw [if_pos (by decide)] at hbrings
  obtain ⟨k, hk⟩ := hbrings
  exact not_brings_nothing k _ _ _ (by decide) hk

end Unitas.Bnu.Erd
