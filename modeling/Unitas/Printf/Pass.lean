import Unitas.Printf.Format

/-! A pass of the machine over a format. -/
namespace Unitas.Printf
open Unitas.Decimal

/-- `Item.percent` and the conversions set `got`. -/
def Item.gets : Item → Bool
  | .percent | .str | .num => true
  | _ => false

/-- The state is left at the end of a format as its last item says. -/
def Mode.After (s : State) (items : List Item) : Prop :=
  match items.getLast? with
  | some (.oct o) => s.state = .octal ∧ s.o = o
  | _ => s.state = .normal

section Pass
variable (lib : Libc) (args : List (List UInt8))

/-- What a pass that takes its arguments from `cur` makes of a state. -/
structure After (items : List Item) (cur : List (List UInt8)) (s s' : State) : Prop where
  buf : s'.buf = s.buf ++ texts items cur
  cur : args.drop (s'.t - 2) = cur.drop (takes items)
  le : 2 ≤ s'.t
  got : s'.got = (s.got || items.any Item.gets)
  mode : Mode.After s' items

/-- The numbers are those of an `int`, and the buffer holds the text. -/
def Fits (items : List Item) (cur : List (List UInt8)) (s : State) : Prop :=
  (∀ a ∈ nums items cur, IsInt (value a)) ∧ s.buf.length + (texts items cur).length < BUFSIZ

/-- What an item does. -/
structure ItemDone (item : Item) (cur : List (List UInt8)) (s s' : State) : Prop where
  buf : s'.buf = s.buf ++ item.text cur.head?
  cur : args.drop (s'.t - 2) = cur.drop item.takes
  le : 2 ≤ s'.t
  got : s'.got = (s.got || item.gets)

def ItemFits (item : Item) (cur : List (List UInt8)) (s : State) : Prop :=
  (item = .num → ∀ a ∈ cur.head?, IsInt (value a)) ∧
    s.buf.length + (item.text cur.head?).length < BUFSIZ

variable {lib args}

theorem store_eq (buf : List UInt8) {c : UInt8} (hc : c ≠ 0) :
    store buf c = if buf.length + 1 < BUFSIZ then .ok (buf ++ [c]) else .error .overrun := by
  simp [store, hc]

theorem takeWhile_ne_zero {a : List UInt8} (h0 : 0 ∉ a) : a.takeWhile (· ≠ 0) = a := by
  refine List.takeWhile_eq_self_iff.mpr fun c hc => ?_
  rw [decide_eq_true_iff]
  rintro rfl
  exact h0 hc

theorem print_str (buf a : List UInt8) (h0 : 0 ∉ a) :
    print lib buf [37, 115] (.str a) =
      if buf.length + a.length < BUFSIZ then .ok (buf ++ a) else .error .overrun := by
  have : a.takeWhile (· ≠ 0) = a :=
    takeWhile_ne_zero h0
  simp only [print, lib.sprintf_str, this]

theorem zero_notMem_decimalInt (z : ℤ) : 0 ∉ decimalInt z := by
  have hdigits (n : ℕ) : 0 ∉ decimal n := fun h => absurd (decimal_isDigit n 0 h) (by decide)
  unfold decimalInt
  split_ifs
  · simpa using hdigits z.natAbs
  · exact hdigits z.natAbs

theorem print_num (buf : List UInt8) (z : ℤ) :
    print lib buf [37, 100] (.num z) =
      if IsInt z then
        if buf.length + (decimalInt z).length < BUFSIZ then .ok (buf ++ decimalInt z)
        else .error .overrun
      else .error .undefined := by
  have : (decimalInt z).takeWhile (· ≠ 0) = decimalInt z :=
    takeWhile_ne_zero (zero_notMem_decimalInt z)
  simp only [print, lib.sprintf_num]
  split_ifs <;> simp_all

theorem shift_or {o : ℕ} {c : UInt8} (hc : isOctal c = true) :
    o <<< 3 ||| (c.toNat - 48) = 8 * o + (c.toNat - 48) := by
  simp only [isOctal, Bool.and_eq_true, decide_eq_true_eq, UInt8.le_iff_toNat_le] at hc
  have h7 : c.toNat ≤ 55 := hc.2
  rw [← Nat.shiftLeft_add_eq_or_of_lt (by omega), Nat.shiftLeft_eq]
  omega

/-- An octal escape is stored once something else comes, or the format ends. -/
theorem pass_octal (s : State) (o : ℕ) (i : List UInt8) :
    pass lib args { s with state := .octal, o } i =
      (store s.buf (UInt8.ofNat (octal o i).1)).bind fun buf =>
        if (octal o i).2 = [] then .ok { s with buf, state := .octal, o := (octal o i).1 }
        else pass lib args { s with buf, state := .normal, o := (octal o i).1 } (octal o i).2 := by
  fun_induction octal o i with
  | case1 => rfl
  | case2 o c i h ih =>
    rw [← ih]
    have hstep : stepOctal { s with state := .octal, o } c =
        Except.ok { s with state := .octal, o := 8 * o + (c.toNat - 48) } := by
      simp [stepOctal, h.1, shift_or h.1, h.2]
    simp only [pass, loop, step, hstep]
    rfl
  | case3 o c i h =>
    have hstep : stepOctal { s with state := .octal, o } c =
        (store s.buf (UInt8.ofNat o)).bind fun buf =>
          stepNormal { s with buf, state := .normal, o } c := by
      have : ¬ (isOctal c = true ∧ o <<< 3 ||| (c.toNat - 48) ≤ 255) := by
        rintro ⟨h1, h2⟩
        exact h ⟨h1, shift_or h1 ▸ h2⟩
      simp only [stepOctal, this, if_false]
      rfl
    simp only [pass, loop, step, hstep, reduceCtorEq, if_false]
    cases store s.buf (UInt8.ofNat o) <;> rfl

/-- There is a result as `Q` says under the condition, and otherwise there is none. -/
def Runs (r : Except Stop State) (C : Prop) (Q : State → Prop) : Prop :=
  (C → ∃ s', Q s' ∧ r = .ok s') ∧ (¬ C → ∃ e, r = .error e)

theorem mode_cons {item : Item} {items : List Item} {s : State} (h : Mode.After s items)
    (hitem : items ≠ [] ∨ ∀ o, item ≠ .oct o) : Mode.After s (item :: items) := by
  cases items with
  | nil =>
    have := hitem.resolve_left (fun h => h rfl)
    cases item <;> first | exact h | exact absurd rfl (this _)
  | cons item' items => exact h

theorem fits_cons {item : Item} {items : List Item} {cur : List (List UInt8)} {s s₁ : State}
    (h : ItemDone args item cur s s₁) :
    Fits (item :: items) cur s ↔ ItemFits item cur s ∧ Fits items (cur.drop item.takes) s₁ := by
  simp only [Fits, ItemFits, texts, nums, h.buf, List.length_append, List.mem_append]
  constructor
  · rintro ⟨hn, hl⟩
    refine ⟨⟨fun hi a ha => hn a (.inl ?_), by omega⟩, fun a ha => hn a (.inr ha), by omega⟩
    rw [if_pos hi]
    exact Option.mem_toList.mpr ha
  · rintro ⟨⟨hi, -⟩, hn, hl⟩
    refine ⟨fun a ha => ?_, by omega⟩
    rcases ha with ha | ha
    · split_ifs at ha with hitem
      · exact hi hitem a (Option.mem_toList.mp ha)
      · simp at ha
    · exact hn a ha

/-- An item, and then the rest. -/
theorem pass_item {item : Item} {items : List Item} {cur : List (List UInt8)} {s : State} (s₁ : State)
    {format rest : List UInt8} {r : Except Stop State}
    (hpass : pass lib args s format = r.bind fun s => pass lib args s rest)
    (hdone : ItemDone args item cur s s₁)
    (hok : ItemFits item cur s → r = .ok s₁) (herr : ¬ ItemFits item cur s → ∃ e, r = .error e)
    (hitem : items ≠ [] ∨ ∀ o, item ≠ .oct o)
    (ih : s₁.buf.length < BUFSIZ → Runs (pass lib args s₁ rest) (Fits items (cur.drop item.takes) s₁)
      (After args items (cur.drop item.takes) s₁)) :
    Runs (pass lib args s format) (Fits (item :: items) cur s) (After args (item :: items) cur s) := by
  have hlen (h : ItemFits item cur s) : s₁.buf.length < BUFSIZ := by
    rw [hdone.buf, List.length_append]
    exact h.2
  refine ⟨fun hC => ?_, fun hC => ?_⟩
  · obtain ⟨h1, h2⟩ := (fits_cons hdone).mp hC
    obtain ⟨s', hafter, hs'⟩ := (ih (hlen h1)).1 h2
    refine ⟨s', ⟨?_, ?_, hafter.le, ?_, mode_cons hafter.mode hitem⟩, ?_⟩
    · rw [hafter.buf, hdone.buf, texts, List.append_assoc]
    · rw [hafter.cur, List.drop_drop]
      simp [takes]
    · rw [hafter.got, hdone.got, List.any_cons, Bool.or_assoc]
    · rw [hpass, hok h1]
      exact hs'
  · rw [hpass]
    by_cases h1 : ItemFits item cur s
    · rw [hok h1]
      exact (ih (hlen h1)).2 fun h2 => hC ((fits_cons hdone).mpr ⟨h1, h2⟩)
    · obtain ⟨e, he⟩ := herr h1
      rw [he]
      exact ⟨e, rfl⟩

theorem pass_cons (s : State) (c : UInt8) (i : List UInt8) :
    pass lib args s (c :: i) = (step lib args s c).bind fun s => pass lib args s i := by
  simp only [pass, loop]
  cases step lib args s c <;> rfl

/-- A character that is stored, and then the rest. -/
theorem pass_store {item : Item} {items : List Item} {cur : List (List UInt8)} {s : State}
    {format rest : List UInt8} {c : UInt8} (f : List UInt8 → State) (hc : c ≠ 0)
    (hpass : pass lib args s format =
      ((store s.buf c).bind fun buf => .ok (f buf)).bind fun s => pass lib args s rest)
    (htext : item.text cur.head? = [c]) (hdone : ItemDone args item cur s (f (s.buf ++ [c])))
    (hnum : item ≠ .num) (hitem : items ≠ [] ∨ ∀ o, item ≠ .oct o)
    (ih : (f (s.buf ++ [c])).buf.length < BUFSIZ →
      Runs (pass lib args (f (s.buf ++ [c])) rest) (Fits items (cur.drop item.takes) (f (s.buf ++ [c])))
        (After args items (cur.drop item.takes) (f (s.buf ++ [c])))) :
    Runs (pass lib args s format) (Fits (item :: items) cur s) (After args (item :: items) cur s) := by
  refine pass_item _ hpass hdone (fun h => ?_) (fun h => ?_) hitem ih
  · have := h.2
    rw [htext, List.length_singleton] at this
    rw [store_eq s.buf hc, if_pos this]
    rfl
  · rw [store_eq s.buf hc, if_neg fun h' => h ⟨fun h => absurd h hnum, by
      rwa [htext, List.length_singleton]⟩]
    exact ⟨_, rfl⟩

/-- In front of a conversion. -/
def State.percent (s : State) : State := { s with got := true, state := .percent, fbuf := [37] }

theorem step_percent (s : State) (hs : s.state = .normal) :
    step lib args s 37 = .ok s.percent := by
  simp [step, hs, stepNormal, State.percent]

theorem stepPercent_percent (s : State) :
    step lib args s.percent 37 = (store s.buf 37).bind fun buf =>
      .ok { s with got := true, state := .normal, buf, fbuf := [37, 37] } := by
  have hfbuf : store [37] 37 = .ok [37, 37] := by decide
  simp only [step, stepPercent, State.percent, if_true, hfbuf]
  cases store s.buf 37 <;> rfl

theorem stepPercent_str (s : State) :
    step lib args s.percent 115 =
      (print lib s.buf [37, 115] (.str ((argv args s.t).getD []))).bind fun buf =>
        .ok { s with got := true, state := .normal, buf, fbuf := [37, 115],
                     t := if s.t < argc args then s.t + 1 else s.t } := by
  have hfbuf : store [37] 115 = .ok [37, 115] := by decide
  have hm : isModifier 115 = false := by decide
  simp only [step, stepPercent, State.percent, hfbuf, hm, bind, Except.bind, convert]
  simp
  rfl

theorem stepPercent_num (s : State) :
    step lib args s.percent 100 =
      (print lib s.buf [37, 100] (.num ((argv args s.t).elim 0 strtol))).bind fun buf =>
        .ok { s with got := true, state := .normal, buf, fbuf := [37, 100], t := s.t + 1 } := by
  have hfbuf : store [37] 100 = .ok [37, 100] := by decide
  have hm : isModifier 100 = false := by decide
  simp only [step, stepPercent, State.percent, hfbuf, hm, bind, Except.bind, convert]
  cases argv args s.t <;> simp

theorem argv_eq {cur : List (List UInt8)} {s : State} (hcur : args.drop (s.t - 2) = cur) :
    argv args s.t = cur.head? := by
  rw [argv, ← hcur, List.head?_drop]

theorem drop_succ {cur : List (List UInt8)} {t : ℕ} (hcur : args.drop (t - 2) = cur) (ht : 2 ≤ t) :
    args.drop (t + 1 - 2) = cur.drop 1 := by
  rw [← hcur, List.drop_drop]
  congr 1
  omega

theorem lt_argc {cur : List (List UInt8)} {t : ℕ} (hcur : args.drop (t - 2) = cur) (ht : 2 ≤ t) :
    t < argc args ↔ cur ≠ [] := by
  rw [← hcur, Ne, List.drop_eq_nil_iff, argc]
  omega

theorem pass_nil {s : State} {cur : List (List UInt8)} (hs : s.state = .normal)
    (hbuf : s.buf.length < BUFSIZ) (hcur : args.drop (s.t - 2) = cur) (ht : 2 ≤ s.t) :
    Runs (pass lib args s []) (Fits [] cur s) (After args [] cur s) := by
  refine ⟨fun _ => ⟨s, ⟨by simp [texts], by simpa [takes] using hcur, ht, by simp, hs⟩, ?_⟩,
    fun h => absurd ⟨by simp [nums], by simpa [texts] using hbuf⟩ h⟩
  simp only [pass, loop, passEnd, bind, Except.bind, hs]

theorem step_char {s : State} (hs : s.state = .normal) {c : UInt8} (hc : ¬ (c = 37 ∨ c = 92)) :
    step lib args s c = (store s.buf c).bind fun buf => .ok { s with buf } := by
  rw [not_or] at hc
  simp only [step, hs, stepNormal, hc.1, hc.2, if_false]
  rfl

/-- The number for `%d`, which is 0 without an argument. -/
theorem num_arg {cur : List (List UInt8)} (hdec : ∀ a ∈ cur.head?, IsDecimal a) :
    (IsInt (cur.head?.elim 0 strtol) ↔ ∀ a ∈ cur.head?, IsInt (value a)) ∧
      ((∀ a ∈ cur.head?, IsInt (value a)) →
        cur.head?.elim 0 strtol = (cur.head?.map value).getD 0) := by
  cases h : cur.head? with
  | none =>
    have : IsInt 0 := by decide
    simp [this]
  | some a =>
    have ha := hdec a h
    simp only [Option.elim_some, Option.mem_def, Option.some.injEq, forall_eq', Option.map_some,
      Option.getD_some]
    exact ⟨isInt_strtol ha, strtol_eq_value ha⟩

theorem zero_notMem_rest {item : Item} {items : List Item} {cur : List (List UInt8)}
    (h0 : 0 ∉ texts (item :: items) cur) :
    0 ∉ item.text cur.head? ∧ 0 ∉ texts items (cur.drop item.takes) := by
  simpa [texts] using h0

theorem isDecimal_rest {item : Item} {items : List Item} {cur : List (List UInt8)}
    (hdec : ∀ a ∈ nums (item :: items) cur, IsDecimal a) :
    (item = .num → ∀ a ∈ cur.head?, IsDecimal a) ∧
      ∀ a ∈ nums items (cur.drop item.takes), IsDecimal a := by
  refine ⟨fun h a ha => hdec a ?_, fun a ha => hdec a ?_⟩
  · rw [nums, if_pos h]
    exact List.mem_append_left _ (Option.mem_toList.mpr ha)
  · exact List.mem_append_right _ ha

theorem parse_ne_nil {format : List UInt8} {items : List Item} (h : parse format = some items)
    (hne : format ≠ []) : items ≠ [] := by
  rintro rfl
  fun_cases parse format <;> simp_all [parse]

theorem step_backslash {s : State} (hs : s.state = .normal) :
    step lib args s 92 = .ok { s with state := .backslash } := by
  simp [step, hs, stepNormal]

/-- From the normal state a pass writes the items' text, if it fits. -/
theorem pass_normal (format : List UInt8) (items : List Item) (hparse : parse format = some items)
    (s : State) (cur : List (List UInt8)) (hs : s.state = .normal) (hbuf : s.buf.length < BUFSIZ)
    (hcur : args.drop (s.t - 2) = cur) (ht : 2 ≤ s.t) (h0 : 0 ∉ texts items cur)
    (hdec : ∀ a ∈ nums items cur, IsDecimal a) :
    Runs (pass lib args s format) (Fits items cur s) (After args items cur s) := by
  fun_induction parse format generalizing items s cur with
  | case1 =>
    obtain rfl := Option.some.inj hparse
    exact pass_nil hs hbuf hcur ht
  | case2 => simp at hparse
  | case3 c hc =>
    obtain rfl := Option.some.inj hparse
    have hc0 : c ≠ 0 := by rintro rfl; simp [texts, Item.text] at h0
    refine pass_store (fun buf => { s with buf }) hc0 ?_ rfl ⟨rfl, hcur, ht, by simp [Item.gets]⟩ (by simp)
      (by simp) fun hlen => pass_nil hs hlen hcur ht
    rw [pass_cons, step_char hs hc]
  | case4 i ih =>
    obtain ⟨items, hi, rfl⟩ := Option.map_eq_some_iff.mp hparse
    refine pass_store (fun buf => { s with got := true, state := .normal, buf, fbuf := [37, 37] }) (c := 37)
      (by decide) ?_ rfl ⟨rfl, hcur, ht, by simp [Item.gets]⟩ (by simp) (by simp)
      fun hlen => ih items hi _ cur rfl hlen hcur ht (zero_notMem_rest h0).2 (isDecimal_rest hdec).2
    rw [pass_cons, step_percent s hs]
    simp only [Except.bind]
    rw [pass_cons, stepPercent_percent]
    rfl
  | case5 i _ ih =>
    obtain ⟨items, hi, rfl⟩ := Option.map_eq_some_iff.mp hparse
    obtain ⟨h0a, h0r⟩ := zero_notMem_rest h0
    have harg : 0 ∉ (argv args s.t).getD [] := by
      rw [argv_eq hcur]
      exact h0a
    have hpr := @print_str lib s.buf _ harg
    have htake : args.drop ((if s.t < argc args then s.t + 1 else s.t) - 2) = cur.drop 1 := by
      split_ifs with h
      · exact drop_succ hcur ht
      · rw [lt_argc hcur ht, not_not] at h
        rw [hcur, h]
        rfl
    refine pass_item (r := step lib args s.percent 115)
      { s with got := true, state := .normal, fbuf := [37, 115],
                      buf := s.buf ++ (argv args s.t).getD [],
                      t := if s.t < argc args then s.t + 1 else s.t }
      ?_ ⟨by rw [argv_eq hcur]; rfl, htake, by simp only; split_ifs <;> omega, by simp [Item.gets]⟩
      (fun h => ?_) (fun h => ?_) (by simp)
      fun hlen => ih items hi _ _ rfl hlen htake (by simp only; split_ifs <;> omega) h0r
        (isDecimal_rest hdec).2
    · rw [pass_cons, step_percent s hs]
      simp only [Except.bind]
      rw [pass_cons]
      rfl
    · have hlen := h.2
      rw [stepPercent_str, hpr, if_pos (by rw [argv_eq hcur]; exact hlen)]
      rfl
    · rw [stepPercent_str, hpr, if_neg fun h' => h ⟨by simp, by rw [argv_eq hcur] at h'; exact h'⟩]
      exact ⟨_, rfl⟩
  | case6 i _ _ ih =>
    obtain ⟨items, hi, rfl⟩ := Option.map_eq_some_iff.mp hparse
    obtain ⟨h0a, h0r⟩ := zero_notMem_rest h0
    have hdec1 := (isDecimal_rest hdec).1 rfl
    have htake := drop_succ hcur ht
    refine pass_item (r := step lib args s.percent 100)
      { s with got := true, state := .normal, fbuf := [37, 100],
                      buf := s.buf ++ Item.num.text cur.head?, t := s.t + 1 }
      ?_ ⟨rfl, htake, by simp only; omega, by simp [Item.gets]⟩
      (fun h => ?_) (fun h => ?_) (by simp)
      fun hlen => ih items hi _ _ rfl hlen htake (by simp only; omega) h0r (isDecimal_rest hdec).2
    · rw [pass_cons, step_percent s hs]
      simp only [Except.bind]
      rw [pass_cons]
      rfl
    · obtain ⟨hint, hval⟩ := num_arg hdec1
      have hz := h.1 rfl
      have hlen : s.buf.length + (decimalInt ((cur.head?.map value).getD 0)).length < BUFSIZ := h.2
      rw [stepPercent_num, argv_eq hcur, print_num, if_pos (hint.mpr hz), hval hz, if_pos hlen]
      rfl
    · obtain ⟨hint, hval⟩ := num_arg hdec1
      rw [stepPercent_num, argv_eq hcur, print_num]
      by_cases hz : ∀ a ∈ cur.head?, IsInt (value a)
      · have hlen : ¬ s.buf.length + (decimalInt ((cur.head?.map value).getD 0)).length < BUFSIZ :=
          fun h' => h ⟨fun _ => hz, h'⟩
        rw [if_pos (hint.mpr hz), hval hz, if_neg hlen]
        exact ⟨_, rfl⟩
      · rw [if_neg fun h' => hz (hint.mp h')]
        exact ⟨_, rfl⟩
  | case7 d i h1 h2 h3 => simp at hparse
  | case8 d i hd _ ih =>
    obtain ⟨items, hi, rfl⟩ := Option.map_eq_some_iff.mp hparse
    set o := (octal (d.toNat - 48) i).1 with ho
    set r := (octal (d.toNat - 48) i).2 with hr
    have ho0 : UInt8.ofNat o ≠ 0 := by
      intro h
      simp [texts, Item.text, h] at h0
    have hpass : pass lib args s (92 :: d :: i) = (store s.buf (UInt8.ofNat o)).bind fun buf =>
        if r = [] then .ok { s with buf, state := .octal, o }
        else pass lib args { s with buf, state := .normal, o } r := by
      rw [pass_cons, step_backslash hs]
      simp only [Except.bind]
      rw [pass_cons]
      simp only [step, stepBackslash, hd, if_true, Except.bind]
      exact pass_octal s (d.toNat - 48) i
    have hcur' : List.drop 0 cur = cur := rfl
    by_cases hnil : r = []
    · rw [hnil] at hi
      obtain rfl : [] = items := by simpa [parse] using hi
      have hone : s.buf.length + (texts [Item.oct o] cur).length = s.buf.length + 1 := by
        simp [texts, Item.text]
      simp only [hnil, if_true] at hpass
      rw [store_eq s.buf ho0] at hpass
      refine ⟨fun hC => ⟨{ s with buf := s.buf ++ [UInt8.ofNat o], state := .octal, o }, ⟨by
        simp [texts, Item.text], by simpa [takes, Item.takes] using hcur, ht, by simp [Item.gets],
        rfl, rfl⟩, ?_⟩, fun hC => ?_⟩
      · rw [hpass, if_pos (hone ▸ hC.2)]
        rfl
      · have hlen : ¬ s.buf.length + 1 < BUFSIZ := fun h => hC ⟨by simp [nums], by rwa [hone]⟩
        rw [hpass, if_neg hlen]
        exact ⟨_, rfl⟩
    · simp only [hnil, if_false] at hpass
      refine pass_store (fun buf => { s with buf, state := .normal, o }) ho0 ?_ rfl
        ⟨rfl, hcur, ht, by simp [Item.gets]⟩ (by simp) (.inl (parse_ne_nil hi hnil))
        fun hlen => ih items hi _ cur rfl hlen hcur ht (zero_notMem_rest h0).2 (isDecimal_rest hdec).2
      rw [hpass]
      cases store s.buf (UInt8.ofNat o) <;> rfl
  | case9 d i hd e he _ ih =>
    obtain ⟨items, hi, rfl⟩ := Option.map_eq_some_iff.mp hparse
    have he0 : e ≠ 0 := by rintro rfl; simp [texts, Item.text] at h0
    refine pass_store (fun buf => { s with buf, state := .normal }) he0 ?_ rfl
      ⟨rfl, hcur, ht, by simp [Item.gets]⟩ (by simp) (by simp)
      fun hlen => ih items hi _ cur rfl hlen hcur ht (zero_notMem_rest h0).2 (isDecimal_rest hdec).2
    rw [pass_cons, step_backslash hs]
    simp only [Except.bind]
    rw [pass_cons]
    simp only [step, stepBackslash, hd, Bool.false_eq_true, if_false, he]
    cases store s.buf e <;> rfl
  | case10 d i h1 h2 he => simp at hparse
  | case11 c d i h1 h2 ih =>
    obtain ⟨items, hi, rfl⟩ := Option.map_eq_some_iff.mp hparse
    have hc0 : c ≠ 0 := by rintro rfl; simp [texts, Item.text] at h0
    refine pass_store (fun buf => { s with buf }) hc0 ?_ rfl ⟨rfl, hcur, ht, by simp [Item.gets]⟩ (by simp)
      (by simp) fun hlen => ih items hi _ cur hs hlen hcur ht (zero_notMem_rest h0).2 (isDecimal_rest hdec).2
    rw [pass_cons, step_char hs (not_or.mpr ⟨h1, h2⟩)]

end Pass

end Unitas.Printf
