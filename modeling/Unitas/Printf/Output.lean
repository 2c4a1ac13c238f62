import Mathlib.Tactic.Cases
import Unitas.Printf.Law

/-! The output of `printf` over all its passes. -/
namespace Unitas.Printf
open Unitas.Decimal

theorem parse_oct {format : List UInt8} {items : List Item} (hparse : parse format = some items)
    {o : ℕ} (ho : .oct o ∈ items) : o ≤ 255 := by
  fun_induction parse format generalizing items with
  | case1 | case3 =>
    obtain rfl := Option.some.inj hparse
    simp at ho
  | case2 | case7 | case10 => simp at hparse
  | case8 d i hd _ ih =>
    obtain ⟨items, hi, rfl⟩ := Option.map_eq_some_iff.mp hparse
    rcases List.mem_cons.mp ho with h | h
    · obtain ⟨h1, h2⟩ := octal_toNat hd
      rw [Item.oct.inj h]
      exact octal_le (by omega) i
    · exact ih hi h
  | case4 | case5 | case6 | case9 | case11 =>
    rename_i ih
    obtain ⟨items, hi, rfl⟩ := Option.map_eq_some_iff.mp hparse
    rcases List.mem_cons.mp ho with h | h
    · simp at h
    · exact ih hi h

theorem mem_texts_oct {items : List Item} {o : ℕ} (ho : .oct o ∈ items)
    (cur : List (List UInt8)) : UInt8.ofNat o ∈ texts items cur := by
  induction items generalizing cur with
  | nil => simp at ho
  | cons item items ih =>
    rw [texts, List.mem_append]
    rcases List.mem_cons.mp ho with rfl | h
    · exact .inl List.mem_cons_self
    · exact .inr (ih h _)

theorem starts_of_lt {n : ℕ} {cur : List (List UInt8)} (hn : 0 < n) (hlt : n < cur.length) :
    starts n cur = cur :: starts n (cur.drop n) := by
  rw [starts, dif_pos ⟨hn, hlt⟩]

theorem starts_of_not {n : ℕ} {cur : List (List UInt8)} (h : ¬ (0 < n ∧ n < cur.length)) :
    starts n cur = [cur] := by
  rw [starts, dif_neg h]

theorem mem_starts_self (n : ℕ) (cur : List (List UInt8)) : cur ∈ starts n cur := by
  rw [starts]
  exact List.mem_cons_self

/-- The passes that follow are among all passes. -/
theorem mem_starts_drop {n : ℕ} {cur x : List (List UInt8)} (hcur : cur.drop n ≠ [])
    (hx : x ∈ starts n (cur.drop n)) : x ∈ starts n cur := by
  rw [Ne, List.drop_eq_nil_iff, not_le] at hcur
  by_cases hn : 0 < n
  · rw [starts_of_lt hn hcur]
    exact List.mem_cons_of_mem _ hx
  · obtain rfl : n = 0 := by omega
    exact hx

theorem gets_of_takes {items : List Item} (h : 0 < takes items) :
    items.any Item.gets = true := by
  induction items with
  | nil => simp [takes] at h
  | cons item items ih =>
    rw [List.any_cons, Bool.or_eq_true]
    rw [takes, List.map_cons, List.sum_cons] at h
    cases item with
    | char | oct | percent => exact .inr (ih (by simpa [takes, Item.takes] using h))
    | str | num => exact .inl rfl

theorem gets_iff_percent {items : List Item} (h : takes items = 0) :
    items.any Item.gets = true ↔ .percent ∈ items := by
  induction items with
  | nil => simp
  | cons item items ih =>
    rw [takes, List.map_cons, List.sum_cons, Nat.add_eq_zero_iff] at h
    rw [List.any_cons, Bool.or_eq_true, List.mem_cons, ih h.2]
    cases item <;> simp_all [Item.gets, Item.takes]

section Output
variable {lib : Libc} {args : List (List UInt8)} {format : List UInt8} {items : List Item}

/-- The passes after the first one, where they come to an end. -/
theorem passes_ok (hparse : parse format = some items)
    (hoct : ∀ o, items.getLast? = some (.oct o) → 0 < o ∧ o ≤ 255) (fuel : ℕ) {s : State}
    {cur : List (List UInt8)} {out : List UInt8}
    (hmode : Mode.After s items) (hbuf : s.buf.length < BUFSIZ) (hcur : args.drop (s.t - 2) = cur)
    (ht : 2 ≤ s.t) (hgot : s.got = true) (h0 : ∀ x ∈ starts (takes items) cur, 0 ∉ texts items x)
    (hdec : ∀ x ∈ starts (takes items) cur, ∀ a ∈ nums items x, IsDecimal a)
    (hok : passes lib format args fuel s = .ok out) :
    out = s.buf ++ (starts (takes items) cur).flatMap (later format items) ∧
      (∀ x ∈ starts (takes items) cur, ∀ a ∈ nums items x, IsInt (value a)) ∧
      (cur ≠ [] → 0 < takes items) := by
  induction fuel generalizing s cur with
  | zero => simp [passes] at hok
  | succ fuel ih =>
    rw [passes] at hok
    cases hpass : pass lib args s format with
    | error e =>
      rw [hpass] at hok
      simp [bind, Except.bind] at hok
    | ok s' =>
      have hself := mem_starts_self (takes items) cur
      obtain ⟨hbuf', hcur', ht', hgot', hmode', hlen', hint⟩ :=
        pass_later hparse hmode hbuf hcur ht (h0 cur hself) hoct (hdec cur hself) hpass
      have hgot' : s'.got = true := by rw [hgot', hgot, Bool.true_or]
      rw [hpass] at hok
      simp only [bind, Except.bind, hgot', and_true, lt_argc hcur' ht'] at hok
      by_cases hnext : cur.drop (takes items) ≠ []
      · rw [if_pos hnext] at hok
        obtain ⟨hout, hints, hpos⟩ := ih hmode' hlen' hcur' ht' hgot'
          (fun x hx => h0 x (mem_starts_drop hnext hx))
          (fun x hx => hdec x (mem_starts_drop hnext hx)) hok
        have hn := hpos hnext
        have hlt : takes items < cur.length := by
          rwa [Ne, List.drop_eq_nil_iff, not_le] at hnext
        rw [starts_of_lt hn hlt]
        refine ⟨?_, ?_, fun _ => hn⟩
        · rw [hout, hbuf', List.flatMap_cons, List.append_assoc]
        · intro x hx
          rcases List.mem_cons.mp hx with rfl | hx
          · exact hint
          · exact hints x hx
      · rw [if_neg hnext] at hok
        rw [not_not, List.drop_eq_nil_iff] at hnext
        rw [starts_of_not (by omega)]
        refine ⟨?_, by simpa using hint, fun hne => ?_⟩
        · rw [← Except.ok.inj hok, hbuf']
          simp
        · have := List.length_pos_of_ne_nil hne
          omega

/-- An escape of value 6 at the end, carried over to a digit, stands for this digit. -/
theorem pass_again (hparse : parse format = some items) {s : State} {cur : List (List UInt8)}
    (hmode : Mode.After s items) (hbuf : s.buf.length < BUFSIZ)
    (hcur : args.drop (s.t - 2) = cur) (ht : 2 ≤ s.t) (h0 : 0 ∉ texts items cur)
    (hsix : ∀ o, items.getLast? = some (.oct o) → o = 6 ∧ ∃ d ∈ format.head?, isOctal d = true)
    (hdec : ∀ a ∈ nums items cur, IsDecimal a) :
    Runs (pass lib args s format) (Fits items cur s) (After args items cur s) := by
  by_cases hlast : ∃ o, items.getLast? = some (.oct o)
  · obtain ⟨o, hlast⟩ := hlast
    obtain ⟨rfl, d, hhead, hd⟩ := hsix o hlast
    obtain ⟨hstate, ho⟩ : s.state = .octal ∧ s.o = 6 := by
      simpa only [Mode.After, hlast] using hmode
    obtain ⟨i, rfl⟩ := List.head?_eq_some_iff.mp hhead
    obtain ⟨items', hi, rfl⟩ := parse_digit hd hparse
    have hne : items' ≠ [] := by
      rintro rfl
      simp at hlast
    have hi0 : i ≠ [] := by
      rintro rfl
      exact hne (by simpa [parse] using hi.symm)
    obtain ⟨h0d, h0r⟩ := zero_notMem_rest h0
    have hd0 : d ≠ 0 := by
      rintro rfl
      simp [Item.text] at h0d
    have hs : s = { s with state := .octal, o := 6 } := by rw [← hstate, ← ho]
    refine pass_store (fun buf => { s with buf, state := .normal, o := d.toNat }) (c := d) hd0 ?_ rfl
      ⟨rfl, hcur, ht, by simp [Item.gets]⟩ (by simp) (by simp)
      fun hlen => pass_normal i items' hi _ cur rfl hlen hcur ht h0r (isDecimal_rest hdec).2
    rw [hs, pass_octal, octal_six hd]
    simp only [hi0, if_false, UInt8.ofNat_toNat]
    cases store s.buf d <;> rfl
  · have hnormal : s.state = .normal := by
      unfold Mode.After at hmode
      split at hmode
      next o h => exact absurd ⟨o, h⟩ hlast
      next => exact hmode
    exact pass_normal format items hparse s cur hnormal hbuf hcur ht h0 hdec

theorem passes_again (hparse : parse format = some items)
    (hsix : ∀ o, items.getLast? = some (.oct o) → o = 6 ∧ ∃ d ∈ format.head?, isOctal d = true)
    {s : State} {cur : List (List UInt8)} (hmode : Mode.After s items)
    (hcur : args.drop (s.t - 2) = cur) (ht : 2 ≤ s.t) (hgot : s.got = true)
    (hn : 0 < takes items) (h0 : ∀ x ∈ starts (takes items) cur, 0 ∉ texts items x)
    (hdec : ∀ x ∈ starts (takes items) cur, ∀ a ∈ nums items x, IsDecimal a)
    (hint : ∀ x ∈ starts (takes items) cur, ∀ a ∈ nums items x, IsInt (value a))
    (hlen : s.buf.length + ((starts (takes items) cur).flatMap (texts items)).length < BUFSIZ) :
    ∃ fuel, passes lib format args fuel s =
      .ok (s.buf ++ (starts (takes items) cur).flatMap (texts items)) := by
  induction hl : cur.length using Nat.strong_induction_on generalizing s cur with
  | _ l ih =>
    have hself := mem_starts_self (takes items) cur
    have hfits : Fits items cur s := by
      refine ⟨hint cur hself, ?_⟩
      rw [starts, List.flatMap_cons, List.length_append] at hlen
      omega
    obtain ⟨s', hafter, hpass⟩ := (@pass_again lib args format items hparse s cur hmode (by omega) hcur ht
      (h0 cur hself) hsix (hdec cur hself)).1 hfits
    have hgot' : s'.got = true := by rw [hafter.got, hgot, Bool.true_or]
    by_cases hlt : takes items < cur.length
    · have hnext : cur.drop (takes items) ≠ [] := by
        rw [Ne, List.drop_eq_nil_iff]
        omega
      rw [starts_of_lt hn hlt] at hlen ⊢
      rw [List.flatMap_cons, List.length_append] at hlen
      obtain ⟨fuel, hfuel⟩ := ih (cur.drop (takes items)).length
        (by rw [List.length_drop]; omega) hafter.mode hafter.cur hafter.le hgot'
        (fun x hx => h0 x (mem_starts_drop hnext hx))
        (fun x hx => hdec x (mem_starts_drop hnext hx))
        (fun x hx => hint x (mem_starts_drop hnext hx))
        (by rw [hafter.buf, List.length_append]; omega) rfl
      refine ⟨fuel + 1, ?_⟩
      rw [passes, hpass]
      simp only [bind, Except.bind, hgot', and_true, lt_argc hafter.cur hafter.le]
      rw [if_pos hnext, hfuel, hafter.buf, List.flatMap_cons, List.append_assoc]
    · refine ⟨1, ?_⟩
      rw [passes, hpass]
      have hnext : cur.drop (takes items) = [] := List.drop_eq_nil_iff.mpr (by omega)
      simp only [bind, Except.bind, hgot', and_true, lt_argc hafter.cur hafter.le]
      rw [if_neg (not_not.mpr hnext), hafter.buf, starts_of_not (by omega)]
      simp

variable (lib format args items)

/-- The passes come to an end, an escape that one pass leaves open is harmless to the next, and an
`int` holds the numbers. -/
def Prints : Prop :=
  (takes items = 0 → .percent ∈ items → args = []) ∧
    (0 < takes items → takes items < args.length →
      ∀ o, items.getLast? = some (.oct o) → o = 6 ∧ ∃ d ∈ format.head?, isOctal d = true) ∧
    ∀ x ∈ starts (takes items) args, ∀ a ∈ nums items x, IsInt (value a)

variable {lib format args items}

/-- The first pass, and whether another follows. -/
theorem first_pass {s : State} (hafter : After args items args start s) :
    s.t < argc args ∧ s.got = true ↔
      takes items < args.length ∧ items.any Item.gets = true := by
  have hgot : s.got = items.any Item.gets := by rw [hafter.got]; rfl
  rw [hgot, lt_argc hafter.cur hafter.le, Ne, List.drop_eq_nil_iff, not_le]

theorem length_flatMap_append {α : Type} (l : List α) (f g : α → List UInt8) :
    (l.flatMap fun x => f x ++ g x).length = (l.flatMap f).length + (l.flatMap g).length := by
  induction l with
  | nil => rfl
  | cons x l ih =>
    simp only [List.flatMap_cons, List.length_append, ih]
    omega

theorem length_flatMap_const {α : Type} (l : List α) (s : List UInt8) :
    (l.flatMap fun _ => s).length = l.length * s.length := by
  simp

/-- The later passes write what the format says only if the escape carried over is harmless. -/
theorem six_of_later (hparse : parse format = some items) {o : ℕ} (ho : o ≤ 255)
    (hlast : items.getLast? = some (.oct o)) {l : List (List (List UInt8))} (hl : l ≠ [])
    (h : l.flatMap (later format items) = l.flatMap (texts items)) :
    o = 6 ∧ ∃ d ∈ format.head?, isOctal d = true := by
  obtain ⟨items', hr, hitems⟩ := parse_absorbed (o := o) hparse
  have hlater (x) : later format items x = [UInt8.ofNat (octal o format).1] ++ texts items' x := by
    rw [later, hlast]
    simp [hr]
  have htexts (x) : texts items x = absorbed o format ++ texts items' x := by
    rw [hitems, texts_chars]
  have hlen := congrArg List.length h
  rw [funext hlater, funext htexts, length_flatMap_append, length_flatMap_append,
    length_flatMap_const, length_flatMap_const] at hlen
  have hone : (absorbed o format).length = 1 := by
    have : l.length * 1 = l.length * (absorbed o format).length := by
      simp only [List.length_singleton] at hlen
      omega
    exact (Nat.eq_of_mul_eq_mul_left (List.length_pos_of_ne_nil hl) this).symm
  obtain ⟨d, hd⟩ := List.length_eq_one_iff.mp hone
  obtain ⟨hoctal, hhead, hval⟩ := octal_eq_of_absorbed_eq hd
  refine ⟨?_, d, hhead, hoctal⟩
  obtain ⟨x, l, rfl⟩ := List.exists_cons_of_ne_nil hl
  rw [List.flatMap_cons, List.flatMap_cons, hlater, htexts, hd] at h
  have hc : UInt8.ofNat (octal o format).1 = d := (List.cons.inj h).1
  have hle := octal_le ho format
  have := congrArg UInt8.toNat hc
  rw [UInt8.toNat_ofNat', hval] at this
  obtain ⟨h1, h2⟩ := octal_toNat hoctal
  omega

variable (lib format args items)

/-- `printf` writes its format, for each format and arguments in its domain, exactly if `Prints`. -/
theorem printf_iff (hparse : parse format = some items) (h0 : 0 ∉ output items args)
    (hlen : (output items args).length < BUFSIZ)
    (hdec : ∀ x ∈ starts (takes items) args, ∀ a ∈ nums items x, IsDecimal a) :
    (∃ fuel, main lib fuel format args = .ok (output items args)) ↔ Prints args format items := by
  have h0 : ∀ x ∈ starts (takes items) args, 0 ∉ texts items x :=
    fun x hx h => h0 (List.mem_flatMap_of_mem hx h)
  have hself := mem_starts_self (takes items) args
  have hoct (o) (h : items.getLast? = some (.oct o)) : 0 < o ∧ o ≤ 255 := by
    have ho := List.mem_of_getLast? h
    have h255 := parse_oct hparse ho
    refine ⟨Nat.pos_of_ne_zero ?_, h255⟩
    rintro rfl
    exact h0 args hself (mem_texts_oct ho args)
  have hfirst := @pass_normal lib args format items hparse start args rfl
    (by decide) rfl (by decide) (h0 args hself) (hdec args hself)
  constructor
  · rintro ⟨_ | fuel, hok⟩
    · simp [main, passes] at hok
    · rw [main, passes] at hok
      cases hpass : pass lib args start format with
      | error e =>
        rw [hpass] at hok
        simp [bind, Except.bind] at hok
      | ok s =>
        obtain ⟨hfits, hafter⟩ := runs_ok hfirst hpass
        rw [hpass] at hok
        simp only [bind, Except.bind, first_pass hafter] at hok
        have hgot : s.got = items.any Item.gets := by rw [hafter.got]; rfl
        by_cases hnext : takes items < args.length ∧ items.any Item.gets = true
        · have hne : args.drop (takes items) ≠ [] := by
            rw [Ne, List.drop_eq_nil_iff]
            omega
          rw [if_pos hnext] at hok
          obtain ⟨hout, hint, hpos⟩ := passes_ok hparse hoct fuel hafter.mode
            (by rw [hafter.buf, List.length_append]; exact hfits.2) hafter.cur hafter.le (hgot.trans hnext.2)
            (fun x hx => h0 x (mem_starts_drop hne hx))
            (fun x hx => hdec x (mem_starts_drop hne hx)) hok
          have hn := hpos hne
          rw [hafter.buf, output, starts_of_lt hn hnext.1, List.flatMap_cons] at hout
          have hrest := List.append_cancel_left hout
          refine ⟨fun h => by omega, fun _ _ o ho => ?_, ?_⟩
          · refine six_of_later hparse (hoct o ho).2 ho ?_ hrest.symm
            exact List.ne_nil_of_mem (mem_starts_self _ _)
          · rw [starts_of_lt hn hnext.1]
            intro x hx
            rcases List.mem_cons.mp hx with rfl | hx
            · exact hfits.1
            · exact hint x hx
        · have hstop : ¬ (0 < takes items ∧ takes items < args.length) :=
            fun h => hnext ⟨h.2, gets_of_takes h.1⟩
          refine ⟨fun h hp => ?_, fun h1 h2 => absurd ⟨h1, h2⟩ hstop, ?_⟩
          · by_contra hne
            have := List.length_pos_of_ne_nil hne
            exact hnext ⟨by omega, (gets_iff_percent h).mpr hp⟩
          · rw [starts_of_not hstop]
            simpa using hfits.1
  · rintro ⟨hends, hsix, hint⟩
    have hfits : Fits items args start := by
      refine ⟨hint args hself, ?_⟩
      rw [output, starts, List.flatMap_cons, List.length_append] at hlen
      show 0 + _ < _
      omega
    obtain ⟨s, hafter, hpass⟩ := hfirst.1 hfits
    by_cases hnext : takes items < args.length ∧ items.any Item.gets = true
    · have hne : args.drop (takes items) ≠ [] := by
        rw [Ne, List.drop_eq_nil_iff]
        omega
      have hn : 0 < takes items := by
        by_contra hz
        have hz : takes items = 0 := by omega
        rw [hends hz ((gets_iff_percent hz).mp hnext.2)] at hnext
        exact absurd hnext.1 (by simp)
      have hgot : s.got = true := by rw [hafter.got, hnext.2, Bool.or_true]
      rw [output, starts_of_lt hn hnext.1, List.flatMap_cons, List.length_append] at hlen
      obtain ⟨fuel, hfuel⟩ := @passes_again lib args format items hparse (hsix hn hnext.1) _ _ hafter.mode
        hafter.cur hafter.le hgot hn (fun x hx => h0 x (mem_starts_drop hne hx))
        (fun x hx => hdec x (mem_starts_drop hne hx)) (fun x hx => hint x (mem_starts_drop hne hx))
        (by rw [hafter.buf, List.length_append]; show 0 + _ + _ < _; omega)
      refine ⟨fuel + 1, ?_⟩
      rw [main, passes, hpass]
      simp only [bind, Except.bind, first_pass hafter, if_pos hnext]
      rw [hfuel, hafter.buf, output, starts_of_lt hn hnext.1, List.flatMap_cons]
      rfl
    · have hstop : ¬ (0 < takes items ∧ takes items < args.length) :=
        fun h => hnext ⟨h.2, gets_of_takes h.1⟩
      refine ⟨1, ?_⟩
      rw [main, passes, hpass]
      simp only [bind, Except.bind, first_pass hafter, if_neg hnext]
      rw [hafter.buf, output, starts_of_not hstop, List.flatMap_singleton]
      rfl

end Output

/-- A library that knows the two conversions. -/
def plain : Libc where
  sprintf
    | [37, 115], .str s => some s
    | [37, 100], .num z => if IsInt z then some (decimalInt z) else none
    | _, _ => none
  sprintf_str _ := rfl
  sprintf_num _ := rfl

/-- `printf '%s:%d ' a 7 b` -/
theorem printf_iff_two :
    (∃ fuel, main plain fuel [37, 115, 58, 37, 100, 32] [[97], [55], [98]] =
      .ok (output [.str, .char 58, .num, .char 32] [[97], [55], [98]])) ↔
    Prints [[97], [55], [98]] [37, 115, 58, 37, 100, 32] [.str, .char 58, .num, .char 32] := by
  have hstarts : starts (takes [.str, .char 58, .num, .char 32]) [[97], [55], [98]] =
      [[[97], [55], [98]], [[98]]] := by
    rw [starts_of_lt (by decide) (by decide), starts_of_not (by decide)]
    rfl
  have hvalue : value [55] = 7 := by decide
  have hdecimal : decimal 7 = [55] := by simp [decimal]
  have houtput : output [.str, .char 58, .num, .char 32] [[97], [55], [98]] =
      [97, 58, 55, 32, 98, 58, 48, 32] := by
    simp [output, hstarts, texts, Item.text, Item.takes, decimalInt, hvalue, decimal]
  refine printf_iff plain _ _ _ (by simp [parse]) ?_ ?_ ?_
  · rw [houtput]
    decide
  · rw [houtput]
    decide
  · rw [hstarts]
    intro x hx a ha
    have : a = [55] := by
      rcases List.mem_cons.mp hx with rfl | hx
      · simpa [nums, Item.takes] using ha
      · obtain rfl := List.mem_singleton.mp hx
        simp [nums, Item.takes] at ha
    exact ⟨7, .inl (by rw [this, hdecimal])⟩

/-- `printf '%s\101' a b` writes `aAAbA`. -/
theorem printf_fails :
    parse [37, 115, 92, 49, 48, 49] = some [.str, .oct 65] ∧
      output [.str, .oct 65] [[97], [98]] = [97, 65, 98, 65] ∧
      ¬ ∃ fuel, main plain fuel [37, 115, 92, 49, 48, 49] [[97], [98]] = .ok [97, 65, 98, 65] := by
  refine ⟨?_, ?_, ?_⟩
  · simp [parse, octal, isOctal]
  · rw [output, starts_of_lt (by decide) (by decide), starts_of_not (by decide)]
    rfl
  · rintro ⟨_ | _ | fuel, h⟩
    · simp [main, passes] at h
    · have : main plain 1 [37, 115, 92, 49, 48, 49] [[97], [98]] = .error .unfinished := rfl
      simp [this] at h
    · have : main plain (fuel + 2) [37, 115, 92, 49, 48, 49] [[97], [98]] =
          .ok [97, 65, 65, 98, 65] := rfl
      simp [this] at h

end Unitas.Printf
