import Mathlib
import Unitas.Dc.Print

/-! Output bases of `dc`: the command `o`, `print` with `hexot` and `bigot` for an integer, and what
`readin` makes of the text in the same base. -/
namespace Unitas.Dc.Bases

open CInt Radix

/-- What the command `o` sets; `outdit` is `hexot` or `bigot`. -/
structure Base where
  obase : ℤ
  basptr : Blk
  hex : Bool
  fw : ℤ
  ll : ℤ

/-- The command `o` with a number of one digit. -/
def setObase : Blk → Option Base
  | [c] =>
    if c > 99 then none
    else if c ≤ 16 then some ⟨c, [c], true, 1, 70⟩
    else
      let t := add [-1] [c]
      let n : ℤ := t.length * 2 + if back t 0 > 9 then 1 else 0
      some ⟨c, [c], false, n, if n ≥ 70 then 70 else 70 / n * n⟩
  | _ => none

def hexot (strptr : List UInt8) : Blk → Option (List UInt8)
  | [] => some (strptr ++ [48])
  | c :: _ =>
    if c ≥ 16 then none
    else some (strptr ++ [UInt8.ofNat (if c < 10 then c + 48 else c - 10 + 65).toNat])

def bigotLoop (divxyz : ℕ → Blk) : ℕ → Blk → List UInt8 → Option (List UInt8)
  | 0, _, _ => none
  | fuel + 1, p, t =>
    if p = [] then some t
    else
      match div (divxyz fuel) p tenptr with
      | .error _ => none
      | .ok d => bigotLoop divxyz fuel d.q (t ++ [UInt8.ofNat (d.rem.headD 0 + 48).toNat])

/-- `bigot(p, 0)` -/
def bigot (divxyz : ℕ → Blk) (fw : ℤ) (strptr : List UInt8) (p : Blk) : Option (List UInt8) := do
  let neg : Bool := p ≠ [] ∧ back p 0 < 0
  let p := if neg then chsign p else p
  let t ← bigotLoop divxyz (7 * p.length + 1) p strptr
  let t := t ++ List.replicate (strptr.length + fw - 1 - t.length).toNat 48
  return if neg then t.dropLast ++ [45] else t

/-- The loop that puts the digits on `strptr`. `divxyz` is what is in that block at each
division. -/
def loop (divxyz : ℕ → ℕ → Blk) (b : Base) : ℕ → Blk → List UInt8 → Option (List UInt8)
  | 0, _, _ => none
  | fuel + 1, p, strptr =>
    if p = [] then some strptr
    else
      match div (divxyz fuel 0) p b.basptr with
      | .error _ => none
      | .ok d => do
        let strptr ← if b.hex then hexot strptr d.rem
          else bigot (fun j => divxyz fuel (j + 1)) b.fw strptr d.rem
        loop divxyz b fuel d.q (if b.obase > 16 then strptr ++ [32] else strptr)

/-- `print`, without the digits behind the point and the output bases below 2. -/
def print (divxyz : ℕ → ℕ → Blk) (b : Base) (n : Number) : Option (List UInt8) :=
  if (n.digits ++ [n.scale]).any (99 < ·) then
    some ((n.digits ++ [n.scale]).map (fun d => UInt8.ofNat (mask d).toNat) ++ [10])
  else if n.digits = [] then some [48, 10]
  else
    let minus : Bool := back n.digits 0 < 0
    let p := if minus then chsign n.digits else n.digits
    let o := if minus then outc b.ll ⟨[], b.ll⟩ 45 else ⟨[], b.ll⟩
    if b.obase < 2 then none
    else if b.obase = 10 then some (tenot p n.scale.toNat o)
    else if n.scale ≠ 0 then none
    else (loop divxyz b (7 * p.length + 1) p []).map fun strptr =>
      (strptr.reverse.foldl (outc b.ll) o).text ++ [10]

/-! ### The text -/

/-- A digit as one character. -/
def hexChar (d : ℕ) : UInt8 := UInt8.ofNat (if d < 10 then 48 + d else 55 + d)

/-- How a digit is written in a base. -/
def group (b d : ℕ) : List UInt8 :=
  if b ≤ 16 then [hexChar d] else [32, hexChar (d / 10), hexChar (d % 10)]

/-- The digits of a number, the most significant first, and one digit of zero. -/
def digits (b n : ℕ) : List ℕ := if n = 0 then [0] else (Nat.digits b n).reverse

/-- The sign and the digits. -/
def padded (b : ℕ) (v : ℤ) : List UInt8 :=
  (if v < 0 then [45] else []) ++ (digits b v.natAbs).flatMap (group b)

/-- A text with line breaks in it, and the same without them. -/
inductive Broken : List UInt8 → List UInt8 → Prop
  | nil : Broken [] []
  | char {c : UInt8} {text plain : List UInt8} : c ≠ 92 → Broken text plain →
      Broken (c :: text) (c :: plain)
  | line {text plain : List UInt8} : Broken text plain → Broken (92 :: 10 :: text) plain

theorem Broken.append {text plain text' plain' : List UInt8} (h : Broken text plain)
    (h' : Broken text' plain') : Broken (text ++ text') (plain ++ plain') := by
  induction h with
  | nil => exact h'
  | char hc _ ih => exact .char hc ih
  | line _ ih => exact .line ih

/-- What has been written is this text with line breaks, and does not begin with one. -/
structure Shown (plain : List UInt8) (o : Out) : Prop where
  broken : Broken o.text plain
  head : o.text.head? = plain.head?
  count : o.text = [] → o.count ≠ 2

theorem Shown.text {plain : List UInt8} {o : Out} (h : Shown plain o) {c : UInt8} (hc : c ≠ 92)
    {text : List UInt8} (htext : text = [c] ∨ text = [c, 92, 10] ∨ o.text ≠ [] ∧ text = [92, 10, c])
    (count : ℤ) : Shown (plain ++ [c]) ⟨o.text ++ text, count⟩ := by
  have hplain : o.text = [] ↔ plain = [] := by
    rw [← List.head?_eq_none_iff, h.head, List.head?_eq_none_iff]
  constructor
  · refine h.broken.append ?_
    rcases htext with rfl | rfl | ⟨-, rfl⟩
    · exact .char hc .nil
    · exact .char hc (.line .nil)
    · exact .line (.char hc .nil)
  · dsimp only
    rw [List.head?_append, List.head?_append, h.head]
    by_cases hnil : o.text = []
    · rcases htext with rfl | rfl | ⟨hne, -⟩
      · rfl
      · rfl
      · exact absurd hnil hne
    · obtain ⟨x, plain, rfl⟩ := List.exists_cons_of_ne_nil (mt hplain.mpr hnil)
      rfl
  · rcases htext with rfl | rfl | ⟨-, rfl⟩ <;> simp

theorem Shown.outc {plain : List UInt8} {o : Out} (h : Shown plain o) {c : UInt8} (hc : c ≠ 92)
    (ll : ℤ) : Shown (plain ++ [c]) (outc ll o c) := by
  rw [Dc.outc]
  split_ifs
  · exact h.text hc (.inr (.inl rfl)) ll
  · exact h.text hc (.inl rfl) _

theorem Shown.put {plain : List UInt8} {o : Out} (h : Shown plain o) {c : UInt8} (hc : c ≠ 92) :
    Shown (plain ++ [c]) (o.put [c]) := by
  rw [Out.put, checkend]
  split_ifs with hcount
  · have hne : o.text ≠ [] := fun hnil => h.count hnil hcount
    have := h.text hc (.inr (.inr ⟨hne, rfl⟩)) (ll - 1)
    rw [List.append_assoc]
    exact this
  · exact h.text hc (.inl rfl) _

theorem Shown.foldl {ll : ℤ} {chars : List UInt8} : ∀ {plain : List UInt8} {o : Out},
    92 ∉ chars → Shown plain o → Shown (plain ++ chars) (chars.foldl (Dc.outc ll) o) := by
  induction chars with
  | nil =>
    intro plain o _ h
    rw [List.append_nil]
    exact h
  | cons c chars ih =>
    intro plain o hc h
    rw [List.mem_cons, not_or] at hc
    have := ih hc.2 (h.outc (Ne.symm hc.1) ll)
    rw [List.append_assoc] at this
    exact this

theorem hexChar_ne {d : ℕ} (h : d < 16) : hexChar d ≠ 92 ∧ hexChar d ≠ 46 ∧ hexChar d ≠ 95 ∧
    hexChar d ≠ 45 := by
  interval_cases d <;> decide

theorem digitOf_hexChar {d : ℕ} (h : d < 16) : digitOf (hexChar d) = some (d : ℤ) := by
  interval_cases d <;> rfl

/-! ### The digits -/

theorem headD_eq {r : Blk} (h : Digits 100 r) (hlt : value 100 r < 100) :
    r.headD 0 = value 100 r := by
  cases r with
  | nil => rfl
  | cons d ds =>
    obtain ⟨hd, hds⟩ := List.forall_mem_cons.mp h
    have hnonneg := @Digits.value_nonneg 100 ds hds
    rw [value_cons] at hlt ⊢
    rw [List.headD_cons]
    omega

/-- Division of a number that is not negative by a divisor of one digit. -/
theorem div_digit (divxyz : Blk) {p : Blk} (hp : Digits 100 p) {n : ℕ} (hn : value 100 p = n)
    {b : ℕ} (h2 : 2 ≤ b) (h99 : b ≤ 99) : ∃ d, div divxyz p [(b : ℤ)] = .ok d ∧ Rep d.q ∧
      value 100 d.q = (n / b : ℕ) ∧ Digits 100 d.rem ∧ value 100 d.rem = (n % b : ℕ) := by
  have hb : Rep [(b : ℤ)] := rep_digit (by omega) (by omega)
  have hval : value 100 [(b : ℤ)] = b := by simp
  obtain ⟨d, hdiv, -, -, hq, hrem, -, heq, hlt, hsign⟩ :=
    div_result divxyz (.inl hp) hb.normal (by rw [hval]; omega)
  rw [hval, hn] at heq
  rw [hval, abs_of_nonneg (by omega : (0 : ℤ) ≤ b)] at hlt
  have hrem0 : 0 ≤ value 100 d.rem := by
    rcases hsign with hz | hs
    · omega
    · by_contra hneg
      rw [Int.sign_eq_neg_one_of_neg (not_le.mp hneg)] at hs
      have := Int.sign_eq_neg_one_iff_neg.mp hs.symm
      omega
  rw [abs_of_nonneg hrem0] at hlt
  have hquot : value 100 d.q = (n / b : ℕ) ∧ value 100 d.rem = (n % b : ℕ) := by
    push_cast
    constructor
    · rw [heq, Int.add_comm, Int.add_mul_ediv_right _ _ (by omega),
        Int.ediv_eq_zero_of_lt hrem0 hlt, zero_add]
    · rw [heq, Int.add_comm, Int.add_mul_emod_self_right, Int.emod_eq_of_lt hrem0 hlt]
  have hq0 : 0 ≤ value 100 d.q := by rw [hquot.1]; exact Int.natCast_nonneg _
  exact ⟨d, hdiv, hq.rep (nonneg_digits hq.1 hq0), hquot.1, nonneg_digits hrem hrem0, hquot.2⟩

theorem nil_iff {p : Blk} (hp : Rep p) {n : ℕ} (hn : value 100 p = n) : p = [] ↔ n = 0 := by
  rw [hp.nil_iff, hn]
  omega

theorem Rep.nonneg_digits {p : Blk} (hp : Rep p) {n : ℕ} (hn : value 100 p = n) : Digits 100 p :=
  Dc.nonneg_digits hp.legal (by omega)

theorem lt_two_pow {p : Blk} (hp : Digits 100 p) {n : ℕ} (hn : value 100 p = n) :
    n < 2 ^ (7 * p.length) := by
  have h100 := hp.value_lt
  rw [hn] at h100
  have : n < 100 ^ p.length := by exact_mod_cast h100
  refine this.trans_le ?_
  rw [pow_mul]
  exact Nat.pow_le_pow_left (by decide) _

/-- One turn of the loop of `bigot`. -/
theorem bigotLoop_turn (divxyz : ℕ → Blk) (fuel : ℕ) {p : Blk} {n : ℕ} (t : List UInt8)
    (hp : Digits 100 p) (hn : value 100 p = n) (hne : p ≠ []) : ∃ q, Rep q ∧
      value 100 q = (n / 10 : ℕ) ∧ bigotLoop divxyz (fuel + 1) p t =
        bigotLoop divxyz fuel q (t ++ [hexChar (n % 10)]) := by
  obtain ⟨d, hdiv, hq, hqval, hrem, hremval⟩ :=
    div_digit (divxyz fuel) hp hn (show 2 ≤ 10 by decide) (by decide)
  have hdiv : div (divxyz fuel) p tenptr = .ok d := hdiv
  have hlow : n % 10 < 10 := Nat.mod_lt _ (by decide)
  have hhead := headD_eq hrem (by omega)
  have hchar : UInt8.ofNat (d.rem.headD 0 + 48).toNat = hexChar (n % 10) := by
    rw [hhead, hremval]
    generalize n % 10 = m at hlow
    interval_cases m <;> rfl
  refine ⟨d.q, hq, hqval, ?_⟩
  rw [bigotLoop, if_neg hne, hdiv]
  dsimp only
  rw [hchar]

/-- The decimals of a number, from the last. -/
theorem bigotLoop_eq (divxyz : ℕ → Blk) (fuel : ℕ) : ∀ {p : Blk} {n : ℕ} {t : List UInt8}, Rep p →
    value 100 p = n → n < 2 ^ fuel →
    bigotLoop divxyz (fuel + 1) p t = some (t ++ (Nat.digits 10 n).map hexChar) := by
  induction fuel with
  | zero =>
    intro p n t hp hn hlt
    have h0 : n = 0 := by simpa using hlt
    rw [bigotLoop, if_pos ((nil_iff hp hn).mpr h0), h0]
    simp
  | succ fuel ih =>
    intro p n t hp hn hlt
    by_cases hnil : p = []
    · rw [bigotLoop, if_pos hnil, (nil_iff hp hn).mp hnil]
      simp
    · have hpos : 0 < n := Nat.pos_of_ne_zero (mt (nil_iff hp hn).mpr hnil)
      obtain ⟨q, hq, hqval, hturn⟩ :=
        bigotLoop_turn divxyz (fuel + 1) t (Rep.nonneg_digits hp hn) hn hnil
      rw [hturn, ih hq hqval (by rw [pow_succ] at hlt; omega), Nat.digits_def' (by decide) hpos,
        List.map_cons, List.append_assoc]
      rfl

/-- Two decimals with the last one first. -/
theorem bigot_eq (divxyz : ℕ → Blk) {p : Blk} {n : ℕ} (hp : Digits 100 p) (hn : value 100 p = n)
    (hlt : n < 100) (s : List UInt8) :
    bigot divxyz 3 s p = some (s ++ [hexChar (n % 10), hexChar (n / 10)]) := by
  have hneg : ¬ (p ≠ [] ∧ back p 0 < 0) := by
    rw [back_neg_iff (.inl hp)]
    omega
  -- the decimals that are there before they are padded
  obtain ⟨ds, hloop, hlen, hds⟩ : ∃ ds, bigotLoop divxyz (7 * p.length + 1) p s = some (s ++ ds) ∧
      ds.length ≤ 2 ∧
      ds ++ List.replicate (2 - ds.length) 48 = [hexChar (n % 10), hexChar (n / 10)] := by
    by_cases hnil : p = []
    · subst hnil
      obtain rfl : n = 0 := by simpa using hn.symm
      exact ⟨[], by rw [bigotLoop, if_pos rfl, List.append_nil], by decide, rfl⟩
    · obtain ⟨q, hq, hqval, hturn⟩ := bigotLoop_turn divxyz (7 * p.length) s hp hn hnil
      have hpos := List.length_pos_of_ne_nil hnil
      obtain ⟨fuel, hfuel⟩ : ∃ fuel, 7 * p.length = fuel + 1 := ⟨7 * p.length - 1, by omega⟩
      have hbound := lt_two_pow hp hn
      rw [hfuel, pow_succ] at hbound
      refine ⟨hexChar (n % 10) :: (Nat.digits 10 (n / 10)).map hexChar, ?_, ?_, ?_⟩
      · rw [hturn, hfuel, bigotLoop_eq divxyz fuel hq hqval (by omega), List.append_assoc]
        rfl
      · have hsmall : n / 10 < 10 := by omega
        generalize n / 10 = m at hsmall
        interval_cases m <;> simp
      · have hsmall : n / 10 < 10 := by omega
        generalize n / 10 = m at hsmall
        interval_cases m <;> simp [hexChar]
  rw [bigot, decide_eq_false hneg]
  change (bigotLoop divxyz (7 * p.length + 1) p s).bind _ = _
  rw [hloop]
  change some (s ++ ds ++ List.replicate _ 48) = _
  have hcast : ((s.length : ℤ) + 3 - 1 - ((s ++ ds).length : ℤ)).toNat = 2 - ds.length := by
    rw [List.length_append]
    omega
  rw [hcast, List.append_assoc, hds]

theorem hexot_eq {p : Blk} {n : ℕ} (hp : Digits 100 p) (hn : value 100 p = n) (hlt : n < 16)
    (s : List UInt8) : hexot s p = some (s ++ [hexChar n]) := by
  have hhead := headD_eq hp (by omega)
  cases p with
  | nil =>
    obtain rfl : n = 0 := by simpa using hn.symm
    rfl
  | cons c ds =>
    rw [List.headD_cons, hn] at hhead
    subst hhead
    rw [hexot, if_neg (by omega)]
    interval_cases n <;> rfl

/-- What `o` sets for a base from 2 to 99. -/
def ofBase (b : ℕ) : Base :=
  if b ≤ 16 then ⟨b, [(b : ℤ)], true, 1, 70⟩ else ⟨b, [(b : ℤ)], false, 3, 69⟩

theorem setObase_eq {b : ℕ} (h2 : 2 ≤ b) (h99 : b ≤ 99) : setObase [(b : ℤ)] = some (ofBase b) := by
  interval_cases b <;> rfl

/-- One turn of the loop puts a digit on `strptr`. -/
theorem loop_turn (divxyz : ℕ → ℕ → Blk) {b : ℕ} (h2 : 2 ≤ b) (h99 : b ≤ 99) (fuel : ℕ) {p : Blk}
    {n : ℕ} (s : List UInt8) (hp : Digits 100 p) (hn : value 100 p = n) (hne : p ≠ []) : ∃ q,
      Rep q ∧ value 100 q = (n / b : ℕ) ∧ loop divxyz (ofBase b) (fuel + 1) p s =
        loop divxyz (ofBase b) fuel q (s ++ (group b (n % b)).reverse) := by
  obtain ⟨d, hdiv, hq, hqval, hrem, hremval⟩ := div_digit (divxyz fuel 0) hp hn h2 h99
  have hmod : n % b < b := Nat.mod_lt _ (by omega)
  have hdiv : div (divxyz fuel 0) p (ofBase b).basptr = .ok d := by
    rw [ofBase]
    split_ifs <;> exact hdiv
  refine ⟨d.q, hq, hqval, ?_⟩
  rw [loop, if_neg hne, hdiv]
  dsimp only
  by_cases h16 : b ≤ 16
  · have hhex := hexot_eq hrem hremval (by omega) s
    have hgroup : (group b (n % b)).reverse = [hexChar (n % b)] := by
      rw [group, if_pos h16]
      rfl
    rw [hgroup, ofBase, if_pos h16, if_pos rfl, hhex]
    change loop _ _ _ _ (if (b : ℤ) > 16 then _ else _) = _
    rw [if_neg (by omega)]
  · have hbig := bigot_eq (fun j => divxyz fuel (j + 1)) hrem hremval (by omega) s
    have hgroup : (group b (n % b)).reverse =
        [hexChar (n % b % 10), hexChar (n % b / 10), 32] := by
      rw [group, if_neg h16]
      rfl
    rw [hgroup, ofBase, if_neg h16, if_neg Bool.false_ne_true, hbig]
    change loop _ _ _ _ (if (b : ℤ) > 16 then _ else _) = _
    rw [if_pos (by omega), List.append_assoc]
    rfl

theorem loop_eq (divxyz : ℕ → ℕ → Blk) {b : ℕ} (h2 : 2 ≤ b) (h99 : b ≤ 99) (fuel : ℕ) :
    ∀ {p : Blk} {n : ℕ} {s : List UInt8}, Rep p → value 100 p = n → n < 2 ^ fuel →
    loop divxyz (ofBase b) (fuel + 1) p s =
      some (s ++ (Nat.digits b n).flatMap fun d => (group b d).reverse) := by
  induction fuel with
  | zero =>
    intro p n s hp hn hlt
    have h0 : n = 0 := by simpa using hlt
    rw [loop, if_pos ((nil_iff hp hn).mpr h0), h0]
    simp
  | succ fuel ih =>
    intro p n s hp hn hlt
    by_cases hnil : p = []
    · rw [loop, if_pos hnil, (nil_iff hp hn).mp hnil]
      simp
    · have hpos : 0 < n := Nat.pos_of_ne_zero (mt (nil_iff hp hn).mpr hnil)
      obtain ⟨q, hq, hqval, hturn⟩ :=
        loop_turn divxyz h2 h99 (fuel + 1) s (Rep.nonneg_digits hp hn) hn hnil
      have hless : n / b < 2 ^ fuel := by
        rw [pow_succ] at hlt
        exact (Nat.div_le_div_left h2 (by decide)).trans_lt (by omega)
      rw [hturn, ih hq hqval hless, Nat.digits_def' (by omega) hpos, List.flatMap_cons,
        List.append_assoc]

/-- The digits are put on `strptr` from the last one on, and one where the number is zero. -/
theorem loop_digits (divxyz : ℕ → ℕ → Blk) {b : ℕ} (h2 : 2 ≤ b) (h99 : b ≤ 99) {p : Blk} {n : ℕ}
    (hp : Digits 100 p) (hn : value 100 p = n) (hne : p ≠ []) :
    loop divxyz (ofBase b) (7 * p.length + 1) p [] =
      some ((digits b n).flatMap (group b)).reverse := by
  obtain ⟨q, hq, hqval, hturn⟩ := loop_turn divxyz h2 h99 (7 * p.length) [] hp hn hne
  have hpos := List.length_pos_of_ne_nil hne
  obtain ⟨fuel, hfuel⟩ : ∃ fuel, 7 * p.length = fuel + 1 := ⟨7 * p.length - 1, by omega⟩
  have hbound := lt_two_pow hp hn
  rw [hfuel, pow_succ] at hbound
  have hless : n / b < 2 ^ fuel := (Nat.div_le_div_left h2 (by decide)).trans_lt (by omega)
  rw [hturn, hfuel, loop_eq divxyz h2 h99 fuel hq hqval hless, List.reverse_flatMap]
  have hdigits : (digits b n).reverse = n % b :: Nat.digits b (n / b) := by
    rw [digits]
    split_ifs with h0
    · rw [h0, Nat.zero_mod, Nat.zero_div, Nat.digits_zero]
      rfl
    · rw [List.reverse_reverse, Nat.digits_def' (by omega) (Nat.pos_of_ne_zero h0)]
  rw [hdigits, List.flatMap_cons]
  rfl

/-! ### Base ten -/

/-- The number with these digits, the most significant first. -/
def number (b : ℕ) (v : ℤ) (ds : List ℕ) : ℤ :=
  ds.foldl (fun (v : ℤ) (d : ℕ) => (b : ℤ) * v + (d : ℤ)) v

theorem number_concat (b : ℕ) (v : ℤ) (ds : List ℕ) (d : ℕ) :
    number b v (ds ++ [d]) = b * number b v ds + d := by
  rw [number, List.foldl_append]
  rfl

theorem number_eq (b : ℕ) (ds : List ℕ) :
    number b 0 ds = (Nat.ofDigits b ds.reverse : ℕ) := by
  induction ds using List.reverseRecOn with
  | nil => simp [number]
  | append_singleton ds d ih =>
    rw [number_concat, ih, List.reverse_append, List.reverse_singleton, List.singleton_append,
      Nat.ofDigits_cons]
    push_cast
    ring

/-- Digits without a leading zero are those of their number. -/
theorem digits_unique {b : ℕ} (h2 : 2 ≤ b) {ds : List ℕ} (hlt : ∀ d ∈ ds, d < b)
    (hhead : ∀ d ∈ ds.head?, d ≠ 0) {n : ℕ} (hn : number b 0 ds = n) :
    ds = (Nat.digits b n).reverse := by
  rw [number_eq] at hn
  have hn : Nat.ofDigits b ds.reverse = n := by exact_mod_cast hn
  rw [← hn, Nat.digits_ofDigits b (by omega) _ fun d hd => hlt d (List.mem_reverse.mp hd),
    List.reverse_reverse]
  intro hne
  refine hhead _ ?_
  rw [List.getLast_reverse]
  exact List.head_mem_head? _

theorem percentD_hexChar {d : ℕ} (h : d < 10) : percentD d = [hexChar d] := by
  rw [percentD_digit h, hexChar, if_pos h]

theorem Shown.putPair {plain : List UInt8} {o : Out} (h : Shown plain o) {c : ℕ} (hc : c < 100) :
    Shown (plain ++ [hexChar (c / 10), hexChar (c % 10)]) (o.putPair c) := by
  have hne : ∀ {d}, d < 10 → hexChar d ≠ 92 := fun hd => (hexChar_ne (hd.trans (by decide))).1
  have hput : ∀ {x y : ℕ}, x < 10 → y < 10 →
      Shown (plain ++ [hexChar x, hexChar y]) ((o.put [hexChar x]).put [hexChar y]) :=
    fun hx hy => by
      have := (h.put (hne hx)).put (hne hy)
      rw [List.append_assoc] at this
      exact this
  rw [Out.putPair]
  split_ifs with hlow
  · have hlow : c < 10 := by omega
    rw [percentD_hexChar hlow, Nat.div_eq_of_lt hlow, Nat.mod_eq_of_lt hlow]
    exact hput (by decide) hlow
  · rw [Int.tdiv_eq_ediv_of_nonneg (by omega), Int.tmod_eq_emod_of_nonneg (by omega)]
    have hx : c / 10 < 10 := by omega
    have hy : c % 10 < 10 := by omega
    have hdiv : (c : ℤ) / 10 = (c / 10 : ℕ) := by push_cast; rfl
    have hmod : (c : ℤ) % 10 = (c % 10 : ℕ) := by push_cast; rfl
    rw [hdiv, hmod, percentD_hexChar hx, percentD_hexChar hy]
    exact hput hx hy

/-- The bytes from the top one on, which is not zero. -/
theorem tenotWhole_eq {p : Blk} (hp : Digits 100 p) {sign : List UInt8} (rd : ℕ) :
    ∀ {f : Bool} {o : Out} {ds : List ℕ}, rd ≤ p.length → Shown (sign ++ ds.map hexChar) o →
    (∀ d ∈ ds, d < 10) → (∀ d ∈ ds.head?, d ≠ 0) → (f = true → ds ≠ []) → (f = false → ds = []) →
    (f = false → rd ≠ 0 → sbackc p rd ≠ 0) → value 100 (p.drop rd) = number 10 0 ds →
    ∃ o' ds', tenotWhole p 0 rd f o = (0, o') ∧ Shown (sign ++ ds'.map hexChar) o' ∧
      (∀ d ∈ ds', d < 10) ∧ (∀ d ∈ ds'.head?, d ≠ 0) ∧ value 100 p = number 10 0 ds' := by
  induction rd with
  | zero =>
    intro f o ds _ h hlt hhead _ _ _ hval
    exact ⟨o, ds, rfl, h, hlt, hhead, hval⟩
  | succ rd ih =>
    intro f o ds hle h hlt hhead htrue hfalse htop hval
    obtain ⟨h0, h100⟩ := @sbackc_digit _ hp rd (by omega)
    have hdrop := @value_drop p rd (by omega)
    have htop := fun hf => htop hf (Nat.succ_ne_zero rd)
    rw [tenotWhole, if_pos (Nat.zero_le _)]
    dsimp only
    generalize sbackc p (rd + 1) = c at h0 h100 hdrop htop
    obtain ⟨c, rfl⟩ := Int.eq_ofNat_of_zero_le h0
    rw [hval] at hdrop
    by_cases hfirst : (c : ℤ) < 10 ∧ ¬ f = true
    · -- the first byte has one decimal
      have hf : f = false := by simpa using hfirst.2
      obtain rfl := hfalse hf
      have hc : c < 10 := by omega
      have hne : c ≠ 0 := fun hc0 => htop hf (by rw [hc0]; rfl)
      rw [if_pos hfirst, percentD_hexChar hc]
      refine @ih true _ [c] (by omega) ?_ (by simpa using hc) (by simpa using hne) (by simp)
        (by simp) (by simp) ?_
      · rw [List.map_nil, List.append_nil] at h
        exact h.put (hexChar_ne (hc.trans (by decide))).1
      · rw [hdrop]
        simp [number]
    · rw [if_neg hfirst]
      have hdigits : ∀ d ∈ ds ++ [c / 10, c % 10], d < 10 := fun d hd => by
        rcases List.mem_append.mp hd with hd | hd
        · exact hlt d hd
        · simp only [List.mem_cons, List.not_mem_nil, or_false] at hd
          omega
      refine @ih true _ (ds ++ [c / 10, c % 10]) (by omega) ?_ hdigits ?_ (by simp) (by simp)
        (by simp) ?_
      · have := h.putPair (c := c) (by omega)
        rw [List.append_assoc] at this
        rw [List.map_append]
        exact this
      · cases hds : ds with
        | nil =>
          have hf : ¬ f = true := fun hf => htrue hf hds
          have hten : ¬ c < 10 := fun hc => hfirst ⟨by omega, hf⟩
          simp only [List.nil_append, List.head?_cons, Option.mem_def, Option.some.injEq]
          rintro d rfl
          omega
        | cons x xs =>
          rw [hds] at hhead
          exact hhead
      · have hpair : ds ++ [c / 10, c % 10] = ds ++ [c / 10] ++ [c % 10] := by simp
        rw [hdrop, hpair, number_concat, number_concat]
        push_cast
        omega

theorem tenot_eq {p : Blk} (hp : Digits 100 p) (htop : (∀ ds, p ≠ ds ++ [0]) ∨ p = [0])
    (hne : p ≠ []) {n : ℕ} (hn : value 100 p = n) {sign : List UInt8} {o : Out}
    (h : Shown sign o) : ∃ o', tenot p 0 o = o'.text ++ [10] ∧
      Shown (sign ++ (digits 10 n).map hexChar) o' := by
  rcases htop with htop | rfl
  · have hlast : p.length ≠ 0 → sbackc p p.length ≠ 0 := by
      intro hlen
      obtain ⟨ds, d, rfl⟩ := (List.eq_nil_or_concat' p).resolve_left hne
      rw [List.length_append, List.length_singleton, sbackc]
      have hd : (ds ++ [d]).getD ds.length 0 = d := by simp
      rw [hd]
      rintro rfl
      exact htop ds rfl
    obtain ⟨o', ds, hwhole, hshown, hlt, hhead, hval⟩ := @tenotWhole_eq p hp sign p.length false o
      [] le_rfl (by simpa using h) (by simp) (by simp) (by simp) (by simp) (fun _ => hlast)
      (by rw [List.drop_length, value_nil]; rfl)
    have hpos : n ≠ 0 := fun h0 => hne ((nil_iff (rep_of_digits hp htop) hn).mpr h0)
    refine ⟨o', ?_, ?_⟩
    · rw [tenot, hwhole]
      rfl
    · rw [digits, if_neg hpos, ← digits_unique (by decide) hlt hhead (hval.symm.trans hn)]
      exact hshown
  · obtain rfl : n = 0 := by simpa using hn.symm
    exact ⟨o.put [48], rfl, h.put (by decide)⟩

/-! ### Reading back -/

variable {b : ℕ}

theorem readinFrom_hexChar (h2 : 2 ≤ b) (h16 : b ≤ 16) {p : Blk} (hp : Rep p) {d : ℕ}
    (hd : d < 16) : ∃ p', Rep p' ∧ value 100 p' = b * value 100 p + d ∧ ∀ rest,
      readinFrom [(b : ℤ)] false 0 p (hexChar d :: rest) =
        readinFrom [(b : ℤ)] false 0 p' rest :=
  readinFrom_value (rep_digit (by omega) (by omega)) hp (by omega) (digitOf_hexChar hd)
    fun h => absurd h Bool.false_ne_true

/-- A text with line breaks is read as its digits. -/
theorem Broken.reads (h2 : 2 ≤ b) (h16 : b ≤ 16) {text plain : List UInt8} (h : Broken text plain) :
    ∀ {ds : List ℕ} {p : Blk}, plain = ds.map hexChar → (∀ d ∈ ds, d < 16) → Rep p →
    ∃ p', Rep p' ∧ value 100 p' = number b (value 100 p) ds ∧ ∀ rest,
      readinFrom [(b : ℤ)] false 0 p (text ++ rest) = readinFrom [(b : ℤ)] false 0 p' rest := by
  induction h with
  | nil =>
    intro ds p hds _ hp
    obtain rfl : ds = [] := List.map_eq_nil_iff.mp hds.symm
    exact ⟨p, hp, rfl, fun rest => rfl⟩
  | @char c text plain hc _ ih =>
    intro ds p hds hlt hp
    cases ds with
    | nil => cases hds
    | cons d ds =>
      obtain ⟨hchar, htail⟩ := List.cons.inj hds
      subst hchar
      obtain ⟨p₁, hp₁, hval₁, hread₁⟩ := readinFrom_hexChar h2 h16 hp (hlt d List.mem_cons_self)
      obtain ⟨p₂, hp₂, hval₂, hread₂⟩ :=
        ih htail (fun d hd => hlt d (List.mem_cons_of_mem _ hd)) hp₁
      refine ⟨p₂, hp₂, ?_, fun rest => (hread₁ _).trans (hread₂ rest)⟩
      rw [hval₂, hval₁]
      rfl
  | line _ ih =>
    intro ds p hds hlt hp
    obtain ⟨p', hp', hval, hread⟩ := ih hds hlt hp
    refine ⟨p', hp', hval, fun rest => ?_⟩
    rw [← hread rest, List.cons_append, List.cons_append, readinFrom]

theorem digits_lt (h2 : 2 ≤ b) {n d : ℕ} (hd : d ∈ digits b n) : d < b := by
  rw [digits] at hd
  split_ifs at hd
  · rw [List.mem_singleton.mp hd]
    omega
  · exact Nat.digits_lt_base (by omega) (List.mem_reverse.mp hd)

theorem digits_ne_nil (n : ℕ) : digits b n ≠ [] := by
  rw [digits]
  split_ifs with h0
  · simp
  · rwa [Ne, List.reverse_eq_nil_iff, Nat.digits_eq_nil_iff_eq_zero]

theorem number_digits (n : ℕ) : number b 0 (digits b n) = n := by
  rw [digits, number_eq]
  split_ifs with h0
  · rw [h0]
    simp
  · rw [List.reverse_reverse, Nat.ofDigits_digits]

theorem readin_eq (h2 : 2 ≤ b) (h16 : b ≤ 16) (divxyz : ℕ → Blk) (k : ℕ) {text : List UInt8} {n : ℕ}
    (h : Broken text ((digits b n).map hexChar)) (rest : List UInt8) :
    ∃ q, readin divxyz [(b : ℤ)] k (text ++ 10 :: rest) = some (.ok ⟨q, 0⟩, 10 :: rest) ∧ Rep q ∧
      value 100 q = n := by
  obtain ⟨q, hq, hval, hread⟩ :=
    h.reads h2 h16 rfl (fun d hd => (digits_lt h2 hd).trans_le h16) rep_nil
  refine ⟨q, ?_, hq, ?_⟩
  · rw [readin, hread, readinFrom_newline]
  · rw [hval, value_nil, number_digits]

/-- A text that does not begin with a line break begins with its first character. -/
theorem Shown.exists_text {c : UInt8} {plain : List UInt8} {o : Out} (h : Shown (c :: plain) o)
    (hc : c ≠ 92) : ∃ text, o.text = c :: text ∧ Broken text plain := by
  obtain ⟨hbroken, hhead, -⟩ := h
  generalize o.text = text at hbroken hhead
  cases hbroken with
  | @char _ text _ _ h => exact ⟨text, rfl, h⟩
  | line _ => exact absurd (Option.some.inj hhead).symm hc

/-- The text of a number is read as that number. -/
theorem readNumber_eq (h2 : 2 ≤ b) (h16 : b ≤ 16) (divxyz : ℕ → Blk) (k : ℕ) {v : ℤ} {o : Out}
    (h : Shown ((if v < 0 then [45] else []) ++ (digits b v.natAbs).map hexChar) o)
    (rest : List UInt8) : ∃ m : Number,
    readNumber divxyz [(b : ℤ)] k (underscored (o.text ++ 10 :: rest)) =
      some (.ok m, 10 :: rest) ∧ m.scale = 0 ∧ value 100 m.digits = v := by
  by_cases hneg : v < 0
  · rw [if_pos hneg] at h
    have h : Shown (45 :: (digits b v.natAbs).map hexChar) o := h
    obtain ⟨text, htext, hbroken⟩ := h.exists_text (by decide)
    obtain ⟨q, hq, hrep, hval⟩ := readin_eq h2 h16 divxyz k hbroken rest
    refine ⟨⟨chsign q, 0⟩, ?_, rfl, ?_⟩
    · rw [htext]
      change readNumber divxyz [(b : ℤ)] k (95 :: (text ++ 10 :: rest)) = _
      rw [readNumber, if_pos rfl, hq]
      rfl
    · rw [(chsign_rep hrep).2, hval]
      omega
  · rw [if_neg hneg, List.nil_append] at h
    obtain ⟨q, hq, hrep, hval⟩ := readin_eq h2 h16 divxyz k h.broken rest
    have hlt : ∀ d ∈ digits b v.natAbs, d < 16 := fun d hd => (digits_lt h2 hd).trans_le h16
    have hne : digits b v.natAbs ≠ [] := digits_ne_nil v.natAbs
    generalize digits b v.natAbs = ds at h hlt hne
    obtain ⟨d, ds, rfl⟩ := List.exists_cons_of_ne_nil hne
    have hd := hlt d List.mem_cons_self
    obtain ⟨h92, -, h95, h45⟩ := hexChar_ne hd
    obtain ⟨text, htext, -⟩ := Shown.exists_text h h92
    refine ⟨⟨q, 0⟩, ?_, rfl, by rw [hval]; omega⟩
    rw [htext] at hq ⊢
    have hplain : underscored (hexChar d :: text ++ 10 :: rest) =
        hexChar d :: (text ++ 10 :: rest) := by
      rw [List.cons_append, underscored.eq_def]
      split
      · rename_i heq
        exact absurd (List.cons.inj heq).1 h45
      · rfl
    rw [hplain, readNumber, if_neg h95, if_pos (.inl (by rw [digitOf_hexChar hd]; rfl))]
    exact hq

/-! ### `print` -/

theorem not_mem_group (h99 : b ≤ 99) {d : ℕ} (hd : d < b) : 92 ∉ group b d := by
  rw [group]
  split_ifs with h16
  · simpa using Ne.symm (hexChar_ne (hd.trans_le h16)).1
  · have h1 := (hexChar_ne (show d / 10 < 16 by omega)).1
    have h2 := (hexChar_ne (show d % 10 < 16 by omega)).1
    simp [Ne.symm h1, Ne.symm h2]

theorem group_eq (h16 : b ≤ 16) (ds : List ℕ) : ds.flatMap (group b) = ds.map hexChar := by
  rw [List.map_eq_flatMap]
  refine List.flatMap_congr fun d _ => ?_
  rw [group, if_pos h16]

/-- What `print` writes after the sign. -/
theorem body_eq (divxyz : ℕ → ℕ → Blk) (h2 : 2 ≤ b) (h99 : b ≤ 99) {p : Blk} (hp : Digits 100 p)
    (hne : p ≠ []) (h10 : b = 10 → (∀ ds, p ≠ ds ++ [0]) ∨ p = [0]) {n : ℕ} (hn : value 100 p = n)
    {sign : List UInt8} {o : Out} (h : Shown sign o) : ∃ o',
    (if (b : ℤ) = 10 then some (tenot p 0 o)
      else (loop divxyz (ofBase b) (7 * p.length + 1) p []).map fun strptr =>
        (strptr.reverse.foldl (outc (ofBase b).ll) o).text ++ [10]) = some (o'.text ++ [10]) ∧
      Shown (sign ++ (digits b n).flatMap (group b)) o' := by
  split_ifs with hten
  · obtain rfl : b = 10 := by exact_mod_cast hten
    obtain ⟨o', htenot, hshown⟩ := tenot_eq hp (h10 rfl) hne hn h
    refine ⟨o', by rw [htenot], ?_⟩
    rw [group_eq (by decide)]
    exact hshown
  · rw [loop_digits divxyz h2 h99 hp hn hne]
    refine ⟨_, rfl, ?_⟩
    rw [List.reverse_reverse]
    refine Shown.foldl ?_ h
    rw [List.mem_flatMap]
    rintro ⟨d, hd, h92⟩
    exact not_mem_group h99 (digits_lt h2 hd) h92

theorem any_eq {p : Blk} (hp : Legal p) : (p ++ [(0 : ℤ)]).any (99 < ·) = false := by
  rw [List.any_eq_false]
  intro d hd
  rw [decide_eq_true_iff]
  rcases List.mem_append.mp hd with hd | hd
  · have := hp.mem hd
    omega
  · rw [List.mem_singleton.mp hd]
    decide

/-- In the base that `o` has set `print` writes this text, with line breaks, and up to base 16 it is
read as the same integer. -/
def Writes (b : ℕ) (p : Blk) (plain : List UInt8) : Prop :=
  ∀ divxyz, ∃ base text, setObase [(b : ℤ)] = some base ∧
    print divxyz base ⟨p, 0⟩ = some (text ++ [10]) ∧ Broken text plain ∧
    (b ≤ 16 → ∀ (left : ℕ → Blk) (k : ℕ) (rest : List UInt8), ∃ m : Number,
      readNumber left [(b : ℤ)] k (underscored (text ++ 10 :: rest)) = some (.ok m, 10 :: rest) ∧
        m.scale = 0 ∧ value 100 m.digits = value 100 p)

end Unitas.Dc.Bases
