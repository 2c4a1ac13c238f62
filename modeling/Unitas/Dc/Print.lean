import Unitas.Dc.Exact
import Unitas.Dc.Remainder
import Unitas.Lib.Decimal

/-! Numbers in decimal: what `print` writes of them with output base 10, and what `readin` makes
of it. -/
namespace Unitas.Dc

open CInt Radix Decimal

/-- What has been written, and the places that are left on the line. -/
structure Out where
  text : List UInt8
  count : ℤ

def ll : ℤ := 70

/-- `CHECKEND`: a backslash and a newline. -/
def checkend (o : Out) : Out := if o.count = 2 then ⟨o.text ++ [92, 10], ll⟩ else o

/-- `CHECKEND`, a `printf` and `count--`. -/
def Out.put (o : Out) (s : List UInt8) : Out :=
  ⟨(checkend o).text ++ s, (checkend o).count - 1⟩

def outc (ll : ℤ) (o : Out) (c : UInt8) : Out :=
  if o.count - 1 = 0 then ⟨o.text ++ [c, 92, 10], ll⟩ else ⟨o.text ++ [c], o.count - 1⟩

/-- `%d` -/
def percentD (n : ℤ) : List UInt8 := if n < 0 then 45 :: decimal n.natAbs else decimal n.toNat

/-- `sbackc(p)` with `rd` bytes before it. -/
def sbackc (p : Blk) : ℕ → ℤ
  | 0 => -1
  | rd + 1 => p.getD rd 0

/-- Both decimals of a byte. -/
def Out.putPair (o : Out) (c : ℤ) : Out :=
  if c < 10 then (o.put [48]).put (percentD c)
  else (o.put (percentD (c.tdiv 10))).put (percentD (c.tmod 10))

/-- The first loop of `tenot`, with `rd` bytes before `rd`. Only the first byte of all has no
zero put before it. -/
def tenotWhole (p : Blk) (sc : ℕ) : ℕ → Bool → Out → ℕ × Out
  | 0, _, o => (0, o)
  | rd + 1, f, o =>
    if sc ≤ rd * 2 then
      let c := sbackc p (rd + 1)
      tenotWhole p sc rd true (if c < 10 ∧ ¬ f then o.put (percentD c) else o.putPair c)
    else (rd + 1, o)

def tenotZeros : ℕ → Out → Out
  | 0, o => o
  | n + 1, o => tenotZeros n (o.put [48])

/-- `while (sc > 1)` -/
def tenotScaled (p : Blk) : ℕ → ℕ → Out → ℕ × ℕ × Out
  | sc + 2, rd, o => tenotScaled p sc (rd - 1) (o.putPair (sbackc p rd))
  | sc, rd, o => (sc, rd, o)

/-- The decimal point, in the middle of a byte where the scale is odd. -/
def tenotPoint (p : Blk) (sc rd : ℕ) (o : Out) : ℕ × ℕ × Out :=
  if sc < rd * 2 then
    let c := sbackc p rd
    (sc - 1, rd - 1, ((o.put (percentD (c.tdiv 10))).put [46]).put (percentD (c.tmod 10)))
  else (sc, rd, o.put [46])

def tenot (p : Blk) (sc : ℕ) (o : Out) : List UInt8 :=
  let (rd, o) := tenotWhole p sc p.length false o
  if sc = 0 then o.text ++ [10]
  else
    let (sc, rd, o) := tenotPoint p sc rd o
    let o := tenotZeros (sc - rd * 2) o
    let (sc, rd, o) := tenotScaled p (min sc (rd * 2)) rd o
    if sc = 1 then (checkend o).text ++ percentD ((sbackc p rd).tdiv 10) ++ [10]
    else o.text ++ [10]

/-- `print` with output base 10. A block with a byte over 99 is a string. -/
def print (n : Number) : List UInt8 :=
  if (n.digits ++ [n.scale]).any (99 < ·) then
    (n.digits ++ [n.scale]).map (fun d => UInt8.ofNat (mask d).toNat) ++ [10]
  else if n.digits = [] then [48, 10]
  else if back n.digits 0 < 0 then tenot (chsign n.digits) n.scale.toNat (outc ll ⟨[], ll⟩ 45)
  else tenot n.digits n.scale.toNat ⟨[], ll⟩

/-- The digits that `readin` and `commnds` know. -/
def digitOf (c : UInt8) : Option ℤ :=
  if 65 ≤ c ∧ c ≤ 70 then some (c.toNat - 65 + 10)
  else if 48 ≤ c ∧ c ≤ 57 then some (c.toNat - 48)
  else none

/-- The loop of `readin`: whether there was a point, the digits after it, the number without its
point, and the rest of the input. The program ends with its input. -/
def readinFrom (inbas : Blk) : Bool → ℕ → Blk → List UInt8 →
    Option (Bool × ℕ × Blk × List UInt8)
  | dp, dpct, p, 92 :: _ :: input => readinFrom inbas dp dpct p input
  | dp, dpct, p, c :: input =>
    if c = 46 then
      if dp then some (dp, dpct, p, c :: input) else readinFrom inbas true dpct p input
    else if c = 92 then none
    else
      match digitOf c with
      | none => some (dp, dpct, p, c :: input)
      | some d =>
        if dp = true ∧ 99 ≤ dpct then readinFrom inbas dp dpct p input
        else readinFrom inbas dp (if dp then dpct + 1 else dpct)
          (add (if d ≠ 0 then [d] else []) (mult p inbas)) input
  | _, _, _, [] => none

/-- `scale`. The exponent is one byte. -/
def scale (divxyz : ℕ → Blk) (inbas p : Blk) (n : ℕ) : Except Fault Number :=
  match exp divxyz 7 inbas [n] with
  | .error f => .error f
  | .ok s =>
    match div (divxyz 7) (add0 p n) s with
    | .error f => .error (.failure f)
    | .ok d => .ok ⟨d.q, n⟩

/-- Digits after the point are filled up to the scale, unless the base is 10. -/
def readin (divxyz : ℕ → Blk) (inbas : Blk) (k : ℕ) (input : List UInt8) :
    Option (Except Fault Number × List UInt8) :=
  match readinFrom inbas false 0 [] input with
  | none => none
  | some (false, _, p, input) => some (.ok ⟨p, 0⟩, input)
  | some (true, dpct, p, input) =>
    if inbas.headD 0 ≠ 10 then
      some (scale divxyz inbas ((fun p => add [] (mult p inbas))^[k - dpct] p) (max dpct k), input)
    else some (scale divxyz inbas p dpct, input)

/-- A number as a command, with its sign or without one. -/
def readNumber (divxyz : ℕ → Blk) (inbas : Blk) (k : ℕ) :
    List UInt8 → Option (Except Fault Number × List UInt8)
  | [] => none
  | c :: input =>
    if c = 95 then
      (readin divxyz inbas k input).map fun r =>
        (r.1.map fun n => ⟨chsign n.digits, n.scale⟩, r.2)
    else if (digitOf c).isSome ∨ c = 46 then readin divxyz inbas k (c :: input)
    else none

/-- A leading minus as an underscore. -/
def underscored : List UInt8 → List UInt8
  | 45 :: text => 95 :: text
  | text => text

/-! ### Reading back -/

/-- A text that is read up to its end as the beginning of a number. -/
def Reads (text : List UInt8) (dp : Bool) (dpct : ℕ) (v : ℤ) : Prop :=
  ∃ p, Rep p ∧ value 100 p = v ∧ ∀ rest,
    readinFrom [10] false 0 [] (text ++ rest) = readinFrom [10] dp dpct p rest

theorem rep_nil : Rep [] := by
  constructor
  · exact Or.inl Digits.nil
  · intro ds he
    simp at he
  · intro ds he
    simp at he

theorem rep_digit {d : ℤ} (h0 : 0 < d) (h : d < 100) : Rep [d] := by
  apply rep_of_digits (Digits.singleton h0.le h)
  intro ds he
  have := (List.append_inj' (show [] ++ [d] = ds ++ [0] from he) rfl).2
  simp only [List.cons.injEq, and_true] at this
  omega

theorem ten_rep : Rep [10] := rep_digit (by decide) (by decide)

theorem Reads.nil : Reads [] false 0 0 := ⟨[], rep_nil, rfl, fun _ => rfl⟩

theorem digitOf_digit {d : ℕ} (h : d < 10) : digitOf (UInt8.ofNat (48 + d)) = some (d : ℤ) := by
  interval_cases d <;> rfl

/-- The digits after the point when `n` more digits have come. -/
def places (dp : Bool) (dpct n : ℕ) : ℕ := if dp then dpct + n else dpct

@[simp] theorem places_true (dpct n : ℕ) : places true dpct n = dpct + n := rfl

@[simp] theorem places_false (dpct n : ℕ) : places false dpct n = dpct := rfl

theorem places_places (dp : Bool) (dpct m n : ℕ) :
    places dp (places dp dpct m) n = places dp dpct (m + n) := by
  cases dp with
  | true => exact Nat.add_assoc dpct m n
  | false => rfl

/-- One more digit in any base. -/
theorem readinFrom_value {b : ℤ} (hb : Rep [b]) {dp : Bool} {dpct : ℕ} {p : Blk} (hp : Rep p)
    {c : UInt8} {d : ℕ} (hd : d < 100) (hdigit : digitOf c = some (d : ℤ))
    (hroom : dp = true → dpct < 99) :
    ∃ p', Rep p' ∧ value 100 p' = b * value 100 p + d ∧ ∀ rest,
      readinFrom [b] dp dpct p (c :: rest) = readinFrom [b] dp (places dp dpct 1) p' rest := by
  have hc : Rep (if (d : ℤ) ≠ 0 then [(d : ℤ)] else []) ∧
      value 100 (if (d : ℤ) ≠ 0 then [(d : ℤ)] else []) = d := by
    split_ifs with h0
    · exact ⟨rep_digit (by omega) (by omega), by simp⟩
    · refine ⟨rep_nil, ?_⟩
      rw [value_nil]
      omega
  obtain ⟨hmul, hmulval⟩ := mult_rep hp hb
  obtain ⟨hadd, haddval⟩ := add_rep hc.1 hmul
  refine ⟨_, hadd, ?_, fun rest => ?_⟩
  · rw [haddval, hc.2, hmulval, value_cons, value_nil]
    ring
  · have h46 : c ≠ 46 := by
      rintro rfl
      simp [digitOf] at hdigit
    have h92 : c ≠ 92 := by
      rintro rfl
      simp [digitOf] at hdigit
    rw [readinFrom.eq_def]
    split
    · rename_i heq
      exact absurd (List.cons.inj heq).1 h92
    · rename_i c input _ heq
      obtain ⟨rfl, rfl⟩ := List.cons.inj heq
      rw [if_neg h46, if_neg h92, hdigit]
      dsimp only
      rw [if_neg (fun h => absurd (hroom h.1) (not_lt.mpr h.2))]
      rfl
    · contradiction

theorem readinFrom_digit {dp : Bool} {dpct : ℕ} {p : Blk} (hp : Rep p) {d : ℕ} (hd : d < 10)
    (hroom : dp = true → dpct < 99) :
    ∃ p', Rep p' ∧ value 100 p' = 10 * value 100 p + d ∧ ∀ rest,
      readinFrom [10] dp dpct p (UInt8.ofNat (48 + d) :: rest) =
        readinFrom [10] dp (places dp dpct 1) p' rest :=
  readinFrom_value ten_rep hp (by omega) (digitOf_digit hd) hroom

theorem readinFrom_point {dpct : ℕ} {p : Blk} (rest : List UInt8) :
    readinFrom [10] false dpct p (46 :: rest) = readinFrom [10] true dpct p rest := by
  rw [readinFrom.eq_def]
  simp

theorem readinFrom_break {dp : Bool} {dpct : ℕ} {p : Blk} (rest : List UInt8) :
    readinFrom [10] dp dpct p (92 :: 10 :: rest) = readinFrom [10] dp dpct p rest := by
  rw [readinFrom]

/-- The character can stand at the beginning of a number. -/
def Begins (c : UInt8) : Prop := (digitOf c).isSome ∨ c = 46

/-- What has been written after the sign is the beginning of a number. -/
structure Shown (sign : List UInt8) (dp : Bool) (dpct : ℕ) (v : ℤ) (o : Out) : Prop where
  exists_text : ∃ text, o.text = sign ++ text ∧ Reads text dp dpct v ∧
    (text = [] → o.count ≠ 2) ∧ ∀ c ∈ text.head?, Begins c

theorem shown_start (sign : List UInt8) {count : ℤ} (h : count ≠ 2) :
    Shown sign false 0 0 ⟨sign, count⟩ := by
  refine ⟨[], ?_, Reads.nil, fun _ => h, by simp⟩
  rw [List.append_nil]

/-- One more character, after a break of the line if need be. -/
theorem Shown.put {sign : List UInt8} {dp dp' : Bool} {dpct dpct' : ℕ} {v v' : ℤ} {o : Out}
    (h : Shown sign dp dpct v o) {c : UInt8} (hc : Begins c)
    (hstep : ∀ p, Rep p → value 100 p = v → ∃ p', Rep p' ∧ value 100 p' = v' ∧ ∀ rest,
      readinFrom [10] dp dpct p (c :: rest) = readinFrom [10] dp' dpct' p' rest) :
    Shown sign dp' dpct' v' (o.put [c]) := by
  obtain ⟨text, htext, ⟨p, hp, hval, hreads⟩, hcount, hhead⟩ := h.exists_text
  obtain ⟨p', hp', hval', hstep⟩ := hstep p hp hval
  unfold Out.put checkend
  by_cases hbreak : o.count = 2
  · rw [if_pos hbreak]
    have hne : text ≠ [] := fun hnil => hcount hnil hbreak
    refine ⟨text ++ [92, 10, c], ?_, ⟨p', hp', hval', fun rest => ?_⟩, ?_, ?_⟩
    · dsimp only
      rw [htext]
      simp
    · rw [List.append_assoc, hreads]
      exact (readinFrom_break _).trans (hstep rest)
    · simp
    · rw [List.head?_append_of_ne_nil _ hne]
      exact hhead
  · rw [if_neg hbreak]
    refine ⟨text ++ [c], ?_, ⟨p', hp', hval', fun rest => ?_⟩, ?_, ?_⟩
    · dsimp only
      rw [htext]
      simp
    · rw [List.append_assoc, hreads]
      exact hstep rest
    · simp
    · cases text with
      | nil =>
        intro b hb
        have hb : c = b := by simpa using hb
        rw [← hb]
        exact hc
      | cons a text =>
        rw [List.head?_append_of_ne_nil _ (by simp)]
        exact hhead

theorem percentD_digit {d : ℕ} (h : d < 10) : percentD d = [UInt8.ofNat (48 + d)] := by
  interval_cases d <;> rfl

theorem Shown.digit {sign : List UInt8} {dp : Bool} {dpct : ℕ} {v d : ℤ} {o : Out}
    (h : Shown sign dp dpct v o) (h0 : 0 ≤ d) (hd : d < 10) (hroom : dp = true → dpct < 99) :
    Shown sign dp (places dp dpct 1) (10 * v + d) (o.put (percentD d)) := by
  obtain ⟨n, rfl⟩ := Int.eq_ofNat_of_zero_le h0
  have hn : n < 10 := by omega
  rw [percentD_digit hn]
  apply h.put
  · left
    rw [digitOf_digit hn]
    rfl
  · intro p hp hval
    rw [← hval]
    exact readinFrom_digit hp hn hroom

theorem Shown.point {sign : List UInt8} {v : ℤ} {o : Out} (h : Shown sign false 0 v o) :
    Shown sign true 0 v (o.put [46]) := by
  apply h.put
  · exact Or.inr rfl
  · exact fun p hp hval => ⟨p, hp, hval, readinFrom_point⟩

theorem Shown.zero {sign : List UInt8} {dp : Bool} {dpct : ℕ} {v : ℤ} {o : Out}
    (h : Shown sign dp dpct v o) (hroom : dp = true → dpct < 99) :
    Shown sign dp (places dp dpct 1) (10 * v) (o.put [48]) := by
  have hzero := h.digit (d := 0) le_rfl (by decide) hroom
  rw [add_zero] at hzero
  exact hzero

/-- Both decimals of a byte before the point, or after it. -/
theorem Shown.pair {sign : List UInt8} {dp : Bool} {dpct : ℕ} {v c : ℤ} {o : Out}
    (h : Shown sign dp dpct v o) (h0 : 0 ≤ c) (hc : c < 100) (hroom : dp = true → dpct < 98) :
    Shown sign dp (places dp dpct 2) (100 * v + c) (o.putPair c) := by
  have hroom' : dp = true → places dp dpct 1 < 99 := by
    rintro rfl
    have := hroom rfl
    rw [places_true]
    omega
  unfold Out.putPair
  split_ifs with hlow
  · have hpair := (h.zero fun hdp => by have := hroom hdp; omega).digit h0 hlow hroom'
    rw [places_places] at hpair
    rw [show 100 * v + c = 10 * (10 * v) + c by ring]
    exact hpair
  · rw [Int.tdiv_eq_ediv_of_nonneg h0, Int.tmod_eq_emod_of_nonneg h0]
    have hpair := (h.digit (d := c / 10) (by omega) (by omega)
      fun hdp => by have := hroom hdp; omega).digit (d := c % 10) (by omega) (by omega) hroom'
    rw [places_places] at hpair
    rw [show 100 * v + c = 10 * (10 * v + c / 10) + c % 10 by omega]
    exact hpair

/-- The byte before `rd` and those after it. -/
theorem value_drop {p : Blk} {rd : ℕ} (hrd : rd < p.length) :
    value 100 (p.drop rd) = sbackc p (rd + 1) + 100 * value 100 (p.drop (rd + 1)) := by
  rw [List.drop_eq_getElem_cons hrd, value_cons, sbackc, List.getD_eq_getElem?_getD,
    List.getElem?_eq_getElem hrd, Option.getD_some]

theorem sbackc_digit {p : Blk} (hp : Digits 100 p) {rd : ℕ} (hrd : rd < p.length) :
    0 ≤ sbackc p (rd + 1) ∧ sbackc p (rd + 1) < 100 := by
  rw [sbackc, List.getD_eq_getElem?_getD, List.getElem?_eq_getElem hrd, Option.getD_some]
  exact hp _ (List.getElem_mem hrd)

/-- The bytes before the point. Where some have been written, the rest has less than twice as
many decimals as there are bytes. -/
theorem tenotWhole_spec {p : Blk} (hp : Digits 100 p) (sc : ℕ) {sign : List UInt8} (rd : ℕ) :
    ∀ (f : Bool) (o : Out), rd ≤ p.length → Shown sign false 0 (value 100 (p.drop rd)) o →
    (f = false → value 100 (p.drop rd) = 0) → (f = true → sc ≤ 2 * rd) →
    ∃ rd' o', tenotWhole p sc rd f o = (rd', o') ∧ rd' ≤ p.length ∧
      Shown sign false 0 (value 100 (p.drop rd')) o' ∧ (rd' = 0 ∨ 2 * rd' < sc + 2) ∧
      (value 100 (p.drop rd') = 0 ∨ sc ≤ 2 * rd') := by
  induction rd with
  | zero =>
    intro f o hle h hf hsc
    refine ⟨0, o, rfl, hle, h, Or.inl rfl, ?_⟩
    cases f with
    | false => exact Or.inl (hf rfl)
    | true => exact Or.inr (hsc rfl)
  | succ rd ih =>
    intro f o hle h hf hsc
    rw [tenotWhole]
    by_cases hin : sc ≤ rd * 2
    · rw [if_pos hin]
      obtain ⟨h0, h100⟩ := @sbackc_digit _ hp rd (by omega)
      have hval := @value_drop p rd (by omega)
      dsimp only
      apply ih true _ (by omega) ?_ (by simp) (fun _ => by omega)
      rw [hval]
      split_ifs with hfirst
      · have hzero := hf (by simpa using hfirst.2)
        have hdigit := h.digit h0 hfirst.1 (by simp)
        rw [hzero] at hdigit ⊢
        rw [mul_zero, zero_add, places_false] at hdigit
        rw [mul_zero, add_zero]
        exact hdigit
      · rw [add_comm]
        exact h.pair h0 h100 (by simp)
    · rw [if_neg hin]
      refine ⟨rd + 1, o, rfl, hle, h, Or.inr (by omega), ?_⟩
      cases f with
      | false => exact Or.inl (hf rfl)
      | true => exact Or.inr (hsc rfl)

theorem tenotZeros_spec {sign : List UInt8} (n : ℕ) : ∀ (dpct : ℕ) (o : Out),
    Shown sign true dpct 0 o → dpct + n ≤ 99 →
    Shown sign true (dpct + n) 0 (tenotZeros n o) := by
  induction n with
  | zero => exact fun _ _ h _ => h
  | succ n ih =>
    intro dpct o h hle
    have hzero := h.zero (fun _ => by omega)
    rw [mul_zero] at hzero
    have hrest := ih (dpct + 1) _ hzero (by omega)
    rw [show dpct + (n + 1) = dpct + 1 + n by omega]
    exact hrest

/-- The bytes after the point. -/
theorem tenotScaled_spec {p : Blk} (hp : Digits 100 p) {sign : List UInt8} (rd : ℕ) :
    ∀ (dpct : ℕ) (o : Out), rd ≤ p.length → Shown sign true dpct (value 100 (p.drop rd)) o →
    dpct + 2 * rd ≤ 99 →
    ∃ o', tenotScaled p (2 * rd) rd o = (0, 0, o') ∧
      Shown sign true (dpct + 2 * rd) (value 100 p) o' := by
  induction rd with
  | zero =>
    intro dpct o _ h _
    refine ⟨o, rfl, ?_⟩
    rw [List.drop_zero] at h
    exact h
  | succ rd ih =>
    intro dpct o hle h hroom
    obtain ⟨h0, h100⟩ := @sbackc_digit _ hp rd (by omega)
    have hval := @value_drop p rd (by omega)
    have hpair := h.pair h0 h100 (fun _ => by omega)
    rw [places_true, add_comm (100 * _), ← hval] at hpair
    obtain ⟨o', ho', hshown⟩ := ih (dpct + 2) _ (by omega) hpair (by omega)
    refine ⟨o', ?_, ?_⟩
    · rw [show 2 * (rd + 1) = 2 * rd + 2 by ring, tenotScaled]
      exact ho'
    · rw [show dpct + 2 * (rd + 1) = dpct + 2 + 2 * rd by ring]
      exact hshown

theorem percentD_ne (n : ℤ) : percentD n ≠ [] := by
  unfold percentD
  split_ifs
  · simp
  · exact decimal_ne_nil _

theorem put_ne {o : Out} {s : List UInt8} (h : s ≠ []) : (o.put s).text ≠ [] := by
  unfold Out.put
  simp [h]

theorem putPair_ne (o : Out) (c : ℤ) : (o.putPair c).text ≠ [] := by
  unfold Out.putPair
  split_ifs
  · exact put_ne (percentD_ne _)
  · exact put_ne (percentD_ne _)

/-- Without a scale every byte is written. -/
theorem tenotWhole_ne (p : Blk) (rd : ℕ) : ∀ (f : Bool) (o : Out), (rd ≠ 0 ∨ o.text ≠ []) →
    (tenotWhole p 0 rd f o).2.text ≠ [] := by
  induction rd with
  | zero => exact fun f o h => h.resolve_left (by simp)
  | succ rd ih =>
    intro f o _
    rw [tenotWhole, if_pos (Nat.zero_le _)]
    apply ih
    right
    split_ifs
    · exact put_ne (percentD_ne _)
    · exact putPair_ne _ _

/-- A text with a point has a character. -/
theorem Reads.ne_nil {text : List UInt8} {dpct : ℕ} {v : ℤ} (h : Reads text true dpct v) :
    text ≠ [] := by
  rintro rfl
  obtain ⟨p, _, _, hreads⟩ := h
  have hpoint := hreads [46, 10]
  rw [List.nil_append, readinFrom_point] at hpoint
  simp [readinFrom, digitOf] at hpoint

theorem tenot_spec {p : Blk} (hp : Digits 100 p) {sc : ℕ} (hsc : sc ≤ 99) {sign : List UInt8}
    {o : Out} (h : Shown sign false 0 0 o) :
    ∃ o', tenot p sc o = o'.text ++ [10] ∧ Shown sign (decide (sc ≠ 0)) sc (value 100 p) o' ∧
      (p ≠ [] → o'.text ≠ []) := by
  have hstart : Shown sign false 0 (value 100 (p.drop p.length)) o := by
    rw [List.drop_length, value_nil]
    exact h
  obtain ⟨rd, o₁, hwhole, hle, h₁, hrd, hval⟩ := tenotWhole_spec hp sc p.length false o le_rfl
    hstart (fun _ => by rw [List.drop_length, value_nil]) (by simp)
  unfold tenot
  rw [hwhole]
  dsimp only
  by_cases h0 : sc = 0
  · have hrd0 : rd = 0 := by omega
    rw [if_pos h0]
    rw [hrd0, List.drop_zero] at h₁
    refine ⟨o₁, rfl, ?_, fun hne => ?_⟩
    · rw [h0]
      exact h₁
    · have htext := tenotWhole_ne p p.length false o (Or.inl (by simpa using hne))
      rw [← h0, hwhole] at htext
      exact htext
  · rw [if_neg h0, decide_eq_true h0]
    obtain ⟨sc', rd', dpct, o₂, hpoint, hsum, hle', hrd', h₂, hval'⟩ : ∃ sc' rd' dpct o₂,
        tenotPoint p sc rd o₁ = (sc', rd', o₂) ∧ sc' + dpct = sc ∧ rd' ≤ p.length ∧
        2 * rd' ≤ sc' ∧ Shown sign true dpct (value 100 (p.drop rd')) o₂ ∧
        (value 100 (p.drop rd') = 0 ∨ sc' = 2 * rd') := by
      unfold tenotPoint
      by_cases hmid : sc < rd * 2
      · rw [if_pos hmid]
        obtain ⟨r, rfl⟩ : ∃ r, rd = r + 1 := ⟨rd - 1, by omega⟩
        obtain ⟨hc0, hc⟩ := @sbackc_digit _ hp r (by omega)
        have hdrop := @value_drop p r (by omega)
        have hhigh := (h₁.digit (d := sbackc p (r + 1) / 10) (by omega) (by omega) (by simp)).point
        have hlow := hhigh.digit (d := sbackc p (r + 1) % 10) (by omega) (by omega) (by simp)
        refine ⟨sc - 1, r, 1, _, rfl, by omega, by omega, by omega, ?_, Or.inr (by omega)⟩
        rw [Int.tdiv_eq_ediv_of_nonneg hc0, Int.tmod_eq_emod_of_nonneg hc0, hdrop]
        rw [show 10 * (10 * value 100 (p.drop (r + 1)) + sbackc p (r + 1) / 10) +
          sbackc p (r + 1) % 10 = sbackc p (r + 1) + 100 * value 100 (p.drop (r + 1)) by omega]
          at hlow
        exact hlow
      · rw [if_neg hmid]
        refine ⟨sc, rd, 0, _, rfl, by omega, hle, by omega, h₁.point, ?_⟩
        exact hval.imp_right fun h => by omega
    rw [hpoint]
    dsimp only
    have hzeros : Shown sign true (dpct + (sc' - rd' * 2)) (value 100 (p.drop rd'))
        (tenotZeros (sc' - rd' * 2) o₂) := by
      obtain hzero | heq := hval'
      · rw [hzero] at h₂ ⊢
        exact tenotZeros_spec _ _ _ h₂ (by omega)
      · rw [show sc' - rd' * 2 = 0 by omega]
        exact h₂
    obtain ⟨o₃, hscaled, h₃⟩ := tenotScaled_spec hp rd' _ _ hle' hzeros (by omega)
    rw [Nat.min_eq_right (by omega), Nat.mul_comm rd' 2]
    rw [Nat.mul_comm rd' 2] at hscaled h₃
    rw [hscaled]
    dsimp only
    rw [if_neg (by decide)]
    rw [show dpct + (sc' - 2 * rd') + 2 * rd' = sc by omega] at h₃
    refine ⟨o₃, rfl, h₃, fun _ => ?_⟩
    obtain ⟨text, htext, hreads, _⟩ := h₃.exists_text
    rw [htext]
    simp [hreads.ne_nil]

/-- Where the text ends, the number is what has been shown, without its point. -/
theorem readinFrom_newline {inbas : Blk} {dp : Bool} {dpct : ℕ} {p : Blk} (rest : List UInt8) :
    readinFrom inbas dp dpct p (10 :: rest) = some (dp, dpct, p, 10 :: rest) := by
  rw [readinFrom.eq_def]
  simp [digitOf]

/-- The division by the power of ten that `add0` has put to the number leaves it as it was. -/
theorem scale_spec (divxyz : ℕ → Blk) {p : Blk} (hp : Rep p) {n : ℕ} (h0 : 0 < n) (h : n ≤ 99) :
    ∃ q, scale divxyz [10] p n = .ok ⟨q, n⟩ ∧ Legal q ∧ value 100 q = value 100 p := by
  have hn : Rep [(n : ℤ)] := rep_digit (by omega) (by omega)
  obtain ⟨s, hs, hsrep, hsval⟩ := exp_rep divxyz ten_rep hn
    (by rw [value_cons, value_nil]; omega) (show 7 * [(n : ℤ)].length ≤ 7 by simp)
  obtain ⟨hlegal, hval⟩ := add0_spec hp.legal n
  have hten : value 100 s = 10 ^ n := by
    rw [hsval, value_cons, value_nil, value_cons, value_nil]
    norm_num
  have hpos : (0 : ℤ) < 10 ^ n := by positivity
  obtain ⟨r, hdiv, -, -, hq, -, -, hmul, hlt, hsign⟩ := div_result (divxyz 7) hlegal hsrep.normal
    (by rw [hten]; exact hpos.ne')
  refine ⟨r.q, ?_, hq.1, ?_⟩
  · unfold scale
    rw [hs]
    dsimp only
    rw [hdiv]
  · have hexact : value 100 (add0 p n) = value 100 p * value 100 s + 0 := by
      rw [hval, hten]
      ring
    exact (quotient_unique hexact (by rw [hten, abs_zero, abs_of_pos hpos]; exact hpos)
      (Or.inl rfl) hmul hlt hsign).symm

/-- What has been shown is read as a number with the digits and the scale of the one printed. -/
theorem readin_shown (divxyz : ℕ → Blk) (k : ℕ) {sc : ℕ} (hsc : sc ≤ 99) {v : ℤ}
    {text : List UInt8} (h : Reads text (decide (sc ≠ 0)) sc v) (rest : List UInt8) :
    ∃ q, readin divxyz [10] k (text ++ 10 :: rest) = some (.ok ⟨q, sc⟩, 10 :: rest) ∧
      Legal q ∧ value 100 q = v := by
  obtain ⟨p, hp, hval, hreads⟩ := h
  have hread := (hreads (10 :: rest)).trans (readinFrom_newline rest)
  unfold readin
  rw [hread]
  by_cases h0 : sc = 0
  · refine ⟨p, ?_, hp.legal, hval⟩
    rw [h0]
    rfl
  · obtain ⟨q, hq, hlegal, hqval⟩ := scale_spec divxyz hp (Nat.pos_of_ne_zero h0) hsc
    refine ⟨q, ?_, hlegal, hqval.trans hval⟩
    rw [decide_eq_true h0]
    dsimp only
    rw [if_neg (by decide), hq]

theorem begins_ne {c : UInt8} (h : Begins c) : c ≠ 95 ∧ c ≠ 45 := by
  constructor
  · rintro rfl
    simp [Begins, digitOf] at h
  · rintro rfl
    simp [Begins, digitOf] at h

theorem readNumber_shown (divxyz : ℕ → Blk) (k : ℕ) {sc : ℕ} (hsc : sc ≤ 99) {v : ℤ} {o : Out}
    (h : Shown [] (decide (sc ≠ 0)) sc v o) (hne : o.text ≠ []) (rest : List UInt8) :
    ∃ q, readNumber divxyz [10] k (underscored (o.text ++ 10 :: rest)) =
        some (.ok ⟨q, sc⟩, 10 :: rest) ∧ Legal q ∧ value 100 q = v := by
  obtain ⟨text, htext, hreads, _, hhead⟩ := h.exists_text
  rw [List.nil_append] at htext
  rw [htext] at hne ⊢
  obtain ⟨q, hq, hlegal, hval⟩ := readin_shown divxyz k hsc hreads rest
  refine ⟨q, ?_, hlegal, hval⟩
  cases text with
  | nil => exact absurd rfl hne
  | cons c text =>
    have hbegins : Begins c := hhead c rfl
    obtain ⟨h95, h45⟩ := begins_ne hbegins
    have hplain : underscored (c :: text ++ 10 :: rest) = c :: (text ++ 10 :: rest) := by
      unfold underscored
      split
      · rename_i heq
        exact absurd (List.cons.inj heq).1 h45
      · rfl
    have hcommand : (digitOf c).isSome = true ∨ c = 46 := hbegins
    rw [hplain, readNumber, if_neg h95, if_pos hcommand]
    exact hq

theorem readNumber_signed (divxyz : ℕ → Blk) (k : ℕ) {sc : ℕ} (hsc : sc ≤ 99) {v : ℤ} {o : Out}
    (h : Shown [45] (decide (sc ≠ 0)) sc v o) (rest : List UInt8) :
    ∃ q, readNumber divxyz [10] k (underscored (o.text ++ 10 :: rest)) =
        some (.ok ⟨q, sc⟩, 10 :: rest) ∧ value 100 q = -v := by
  obtain ⟨text, htext, hreads, _, _⟩ := h.exists_text
  obtain ⟨q, hq, hlegal, hval⟩ := readin_shown divxyz k hsc hreads rest
  obtain ⟨_, hneg⟩ := chsign_spec fun d => hlegal.mem
  refine ⟨chsign q, ?_, by rw [hneg, hval]⟩
  rw [htext]
  have hsigned : underscored ([45] ++ text ++ 10 :: rest) = 95 :: (text ++ 10 :: rest) := rfl
  rw [hsigned, readNumber, if_pos rfl, hq]
  rfl

/-- A number with its scale, as `print` has it. -/
structure Number.Decimal (n : Number) : Prop where
  legal : Legal n.digits
  scale_nonneg : 0 ≤ n.scale
  scale_le : n.scale ≤ 99

/-- What `print` writes of a number in decimal is read as that number. -/
theorem print_readin (divxyz : ℕ → Blk) (k : ℕ) (n : Number) (h : n.Decimal) (rest : List UInt8) :
    ∃ m, readNumber divxyz [10] k (underscored (print n ++ rest)) = some (.ok m, 10 :: rest) ∧
      m.val = n.val ∧ (n.val ≠ 0 → m.scale = n.scale) := by
  obtain ⟨p, sc⟩ := n
  obtain ⟨hlegal, hsc0, hsc⟩ := h
  dsimp only at hlegal hsc0 hsc
  obtain ⟨sc, rfl⟩ := Int.eq_ofNat_of_zero_le hsc0
  have hsc99 : sc ≤ 99 := by omega
  have hstring : ¬ (p ++ [(sc : ℤ)]).any (99 < ·) = true := by
    rw [List.any_eq_true]
    rintro ⟨d, hd, hlt⟩
    have hlt : 99 < d := by simpa using hlt
    obtain hd | hd := List.mem_append.mp hd
    · have := hlegal.mem hd
      omega
    · rw [List.mem_singleton.mp hd] at hlt
      omega
  unfold print
  dsimp only
  rw [if_neg hstring]
  by_cases hnil : p = []
  · rw [if_pos hnil, hnil]
    have hshown : Shown [] false 0 0 (Out.put ⟨[], ll⟩ [48]) :=
      (shown_start [] (by decide)).zero (by simp)
    obtain ⟨q, hq, _, hval⟩ := readNumber_shown divxyz k (show 0 ≤ 99 by decide) hshown
      (put_ne (by simp)) rest
    have hzero : value 100 ([] : Blk) / (10 : ℚ) ^ (sc : ℤ) = 0 := by simp
    refine ⟨⟨q, 0⟩, hq, ?_, fun h0 => absurd hzero h0⟩
    unfold Number.val
    rw [hval]
    simp
  · rw [if_neg hnil]
    by_cases hneg : back p 0 < 0
    · rw [if_pos hneg]
      have hone : back p 0 = -1 := by
        have := (hlegal.mem (back_mem hnil)).1
        omega
      obtain ⟨hclegal, hcval⟩ := chsign_spec fun d => hlegal.mem
      have hdigits : Digits 100 (chsign p) := by
        apply nonneg_digits hclegal
        rw [hcval]
        obtain ⟨ds, hds, rfl⟩ := hlegal.neg_iff.mp hone
        have := value_neg hds
        omega
      have hminus : outc ll ⟨[], ll⟩ 45 = ⟨[45], 69⟩ := rfl
      obtain ⟨o, ho, hshown, _⟩ := tenot_spec hdigits hsc99
        (shown_start [45] (show (69 : ℤ) ≠ 2 by decide))
      obtain ⟨q, hq, hval⟩ := readNumber_signed divxyz k hsc99 hshown rest
      rw [hcval, neg_neg] at hval
      refine ⟨⟨q, sc⟩, ?_, ?_, fun _ => rfl⟩
      · rw [Int.toNat_natCast, hminus, ho, List.append_assoc]
        exact hq
      · unfold Number.val
        rw [hval]
    · rw [if_neg hneg]
      have hdigits : Digits 100 p := hlegal.digits (by omega)
      obtain ⟨o, ho, hshown, hne⟩ := tenot_spec hdigits hsc99
        (shown_start [] (show ll ≠ 2 by decide))
      obtain ⟨q, hq, _, hval⟩ := readNumber_shown divxyz k hsc99 hshown (hne hnil) rest
      refine ⟨⟨q, sc⟩, ?_, ?_, fun _ => rfl⟩
      · rw [Int.toNat_natCast, ho, List.append_assoc]
        exact hq
      · unfold Number.val
        rw [hval]

/-- 12.345 -/
theorem print_readin_point : ∃ m, readNumber (fun _ => []) [10] 0
      (underscored (print ⟨[45, 23, 1], 3⟩ ++ [])) = some (.ok m, [10]) ∧
    m.val = Number.val ⟨[45, 23, 1], 3⟩ ∧
    (Number.val ⟨[45, 23, 1], 3⟩ ≠ 0 → m.scale = 3) :=
  print_readin (fun _ => []) 0 ⟨[45, 23, 1], 3⟩
    ⟨Or.inl (by simp [Digits]), by decide, by decide⟩ []

end Unitas.Dc
