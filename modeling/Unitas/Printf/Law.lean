import Mathlib.Tactic.Set
import Unitas.Printf.Pass

/-! `printf` writes what its format says, and where it does not: a pass that ends in an octal
escape leaves its state to the next one, and `%%` counts as a conversion. -/
namespace Unitas.Printf
open Unitas.Decimal

/-- The digits at the start of a format that an open escape of value `o` takes in. -/
def absorbed : ℕ → List UInt8 → List UInt8
  | _, [] => []
  | o, c :: i =>
    if isOctal c ∧ 8 * o + (c.toNat - 48) ≤ 255 then c :: absorbed (8 * o + (c.toNat - 48)) i
    else []

theorem le_octal (o : ℕ) (i : List UInt8) : o ≤ (octal o i).1 := by
  fun_induction octal o i <;> omega

theorem octal_le {o : ℕ} (h : o ≤ 255) (i : List UInt8) : (octal o i).1 ≤ 255 := by
  fun_induction octal o i <;> simp_all

theorem octal_eq_of_absorbed_eq {o : ℕ} {d : UInt8} {i : List UInt8} (h : absorbed o i = [d]) :
    isOctal d = true ∧ i.head? = some d ∧ (octal o i).1 = 8 * o + (d.toNat - 48) := by
  cases i with
  | nil => simp [absorbed] at h
  | cons c i =>
    rw [absorbed] at h
    split_ifs at h with hc
    obtain ⟨rfl, hi⟩ := List.cons.inj h
    refine ⟨hc.1, rfl, ?_⟩
    rw [octal, if_pos hc]
    cases i with
    | nil => rfl
    | cons e i =>
      rw [absorbed] at hi
      split_ifs at hi with he
      rw [octal, if_neg he]

theorem octal_toNat {d : UInt8} (h : isOctal d = true) : 48 ≤ d.toNat ∧ d.toNat ≤ 55 := by
  simpa [isOctal, UInt8.le_iff_toNat_le] using h

/-- An escape of value 6 takes in one digit, and then stands for this digit. -/
theorem octal_six {d : UInt8} {i : List UInt8} (hd : isOctal d = true) :
    octal 6 (d :: i) = (d.toNat, i) := by
  obtain ⟨h1, h2⟩ := octal_toNat hd
  rw [octal, if_pos ⟨hd, by omega⟩, show 8 * 6 + (d.toNat - 48) = d.toNat by omega]
  cases i with
  | nil => rfl
  | cons e i => rw [octal, if_neg (by omega)]

theorem parse_digit {c : UInt8} {i : List UInt8} {items : List Item} (hc : isOctal c = true)
    (h : parse (c :: i) = some items) :
    ∃ items', parse i = some items' ∧ items = .char c :: items' := by
  obtain ⟨h1, h2⟩ := octal_toNat hc
  have h37 : c ≠ 37 := by rintro rfl; exact absurd h1 (by decide)
  have h92 : c ≠ 92 := by rintro rfl; exact absurd h2 (by decide)
  cases i with
  | nil =>
    rw [parse, if_neg (not_or.mpr ⟨h37, h92⟩)] at h
    exact ⟨[], by simp [parse], (Option.some.inj h).symm⟩
  | cons d i =>
    rw [parse, if_neg h37, if_neg h92] at h
    obtain ⟨items', hi, rfl⟩ := Option.map_eq_some_iff.mp h
    exact ⟨items', hi, rfl⟩

/-- What an open escape takes in are the first items. -/
theorem parse_absorbed {o : ℕ} {i : List UInt8} {items : List Item} (h : parse i = some items) :
    ∃ items', parse (octal o i).2 = some items' ∧ items = (absorbed o i).map .char ++ items' := by
  fun_induction octal o i generalizing items with
  | case1 => exact ⟨items, h, rfl⟩
  | case2 o c i hc ih =>
    obtain ⟨items₁, h₁, rfl⟩ := parse_digit hc.1 h
    obtain ⟨items', h', rfl⟩ := ih h₁
    exact ⟨items', h', by rw [absorbed, if_pos hc]; rfl⟩
  | case3 o c i hc => exact ⟨items, h, by rw [absorbed, if_neg hc]; rfl⟩

theorem texts_chars (ds : List UInt8) (items : List Item) (cur : List (List UInt8)) :
    texts (ds.map .char ++ items) cur = ds ++ texts items cur := by
  induction ds with
  | nil => rfl
  | cons d ds ih =>
    have hcur : cur.drop (Item.char d).takes = cur := rfl
    rw [List.map_cons, List.cons_append, texts, hcur, ih]
    rfl

theorem takes_chars (ds : List UInt8) (items : List Item) :
    takes (ds.map .char ++ items) = takes items := by
  induction ds with
  | nil => rfl
  | cons d ds ih => simpa [takes, Item.takes] using ih

theorem nums_chars (ds : List UInt8) (items : List Item) (cur : List (List UInt8)) :
    nums (ds.map .char ++ items) cur = nums items cur := by
  induction ds with
  | nil => rfl
  | cons d ds ih =>
    have hcur : cur.drop (Item.char d).takes = cur := rfl
    simp [nums, hcur, ih]

theorem any_chars (ds : List UInt8) (items : List Item) :
    (ds.map Item.char ++ items).any Item.gets = items.any Item.gets := by
  simp [Function.comp_def, Item.gets]

section Law
variable (lib : Libc) (args : List (List UInt8)) (format : List UInt8) (items : List Item)

/-- What a pass after the first one writes. -/
def later (cur : List (List UInt8)) : List UInt8 :=
  match items.getLast? with
  | some (.oct o) =>
    UInt8.ofNat (octal o format).1 :: texts ((parse (octal o format).2).getD []) cur
  | _ => texts items cur

variable {lib args format items}

theorem runs_ok {r : Except Stop State} {C : Prop} {Q : State → Prop} {s' : State}
    (h : Runs r C Q) (hok : r = .ok s') : C ∧ Q s' := by
  by_cases hC : C
  · obtain ⟨s₁, hQ, hs₁⟩ := h.1 hC
    rw [hok] at hs₁
    exact ⟨hC, Except.ok.inj hs₁ ▸ hQ⟩
  · obtain ⟨e, he⟩ := h.2 hC
    rw [hok] at he
    simp at he

theorem mode_append {ds : List UInt8} {items : List Item} {s : State} (h : Mode.After s items)
    (hne : items ≠ []) : Mode.After s (ds.map .char ++ items) := by
  unfold Mode.After at h ⊢
  rwa [List.getLast?_append_of_ne_nil _ hne]

/-- A pass that goes on where the last one has left. -/
theorem pass_later (hparse : parse format = some items) {s s' : State} {cur : List (List UInt8)}
    (hmode : Mode.After s items) (hbuf : s.buf.length < BUFSIZ)
    (hcur : args.drop (s.t - 2) = cur) (ht : 2 ≤ s.t) (h0 : 0 ∉ texts items cur)
    (hoct : ∀ o, items.getLast? = some (.oct o) → 0 < o ∧ o ≤ 255)
    (hdec : ∀ a ∈ nums items cur, IsDecimal a) (hok : pass lib args s format = .ok s') :
    s'.buf = s.buf ++ later format items cur ∧ args.drop (s'.t - 2) = cur.drop (takes items) ∧
      2 ≤ s'.t ∧ s'.got = (s.got || items.any Item.gets) ∧ Mode.After s' items ∧
      s'.buf.length < BUFSIZ ∧ ∀ a ∈ nums items cur, IsInt (value a) := by
  by_cases hlast : ∃ o, items.getLast? = some (.oct o)
  · obtain ⟨o, hlast⟩ := hlast
    obtain ⟨hstate, ho⟩ : s.state = .octal ∧ s.o = o := by
      simpa only [Mode.After, hlast] using hmode
    obtain ⟨items', hr, hitems⟩ := parse_absorbed (o := o) hparse
    have hne : items' ≠ [] := by
      rintro rfl
      rw [hitems, List.append_nil, List.getLast?_map] at hlast
      cases h : (absorbed o format).getLast? <;> simp [h] at hlast
    have hr0 : (octal o format).2 ≠ [] := by
      intro h
      rw [h, parse] at hr
      exact hne (Option.some.inj hr).symm
    obtain ⟨hpos, hle⟩ := hoct o hlast
    have hc : UInt8.ofNat (octal o format).1 ≠ 0 := by
      have h1 := le_octal o format
      have h2 := octal_le hle format
      intro h
      have := congrArg UInt8.toNat h
      rw [UInt8.toNat_ofNat'] at this
      simp only [UInt8.toNat_zero] at this
      omega
    have hs : s = { s with state := .octal, o := o } := by rw [← hstate, ← ho]
    rw [hs, pass_octal, store_eq _ hc] at hok
    simp only [hr0, if_false] at hok
    split_ifs at hok with hlen
    · simp only [Except.bind] at hok
      rw [hitems, texts_chars] at h0
      rw [hitems, nums_chars] at hdec
      have hrun := @pass_normal lib args _ items' hr
        { s with buf := s.buf ++ [UInt8.ofNat (octal o format).1], state := .normal, o := (octal o format).1 }
        cur rfl (by simpa using hlen) hcur ht (fun h => h0 (List.mem_append_right _ h)) hdec
      obtain ⟨hfits, hafter⟩ := runs_ok hrun hok
      have hbuf' := hafter.buf
      refine ⟨?_, ?_, hafter.le, ?_, ?_, ?_, ?_⟩
      · rw [hbuf', later, hlast]
        simp [hr]
      · rw [hafter.cur, hitems, takes_chars]
      · rw [hafter.got, hitems, any_chars]
      · rw [hitems]
        exact mode_append hafter.mode hne
      · rw [hbuf', List.length_append]
        exact hfits.2
      · rw [hitems, nums_chars]
        exact hfits.1
    · simp [Except.bind] at hok
  · have hnormal : s.state = .normal := by
      unfold Mode.After at hmode
      split at hmode
      next o h => exact absurd ⟨o, h⟩ hlast
      next => exact hmode
    obtain ⟨hfits, hafter⟩ := runs_ok
      (pass_normal format items hparse s cur hnormal hbuf hcur ht h0 hdec) hok
    refine ⟨?_, hafter.cur, hafter.le, hafter.got, hafter.mode, ?_, hfits.1⟩
    · rw [hafter.buf, later]
      split
      next o h => exact absurd ⟨o, h⟩ hlast
      next => rfl
    · rw [hafter.buf, List.length_append]
      exact hfits.2

end Law

end Unitas.Printf
