import Unitas.Sccs.Dodelt

/-! The deltas that `setup` applies: a recursion over the table from the highest serial down, and
how far the lists keep to it. -/
namespace Unitas.Sccs

/-! ### The recursion -/

/-- A list of a delta: its letter, its count, and its serials. -/
abbrev Ixg := UInt8 × ℤ × List ℕ

/-- What a list says of its serials. -/
def listCode (type : UInt8) : ℕ := if type = INCLUDE then APPLY else NOAPPLY

/-- The marks that the lists of a delta set, in order. -/
def listMarks (ixg : List Ixg) : List (ℕ × ℕ) :=
  ixg.flatMap fun l => l.2.2.map (·, listCode l.1)

/-- The mark of a serial: the one that it has, or else the first of the list. -/
def mark (codes : ℕ → ℕ) (marks : List (ℕ × ℕ)) (n : ℕ) : ℕ :=
  if codes n ≠ SX_EMPTY then codes n else ((marks.find? (·.1 = n)).map (·.2)).getD SX_EMPTY

/-- The predecessors of a serial, itself first. -/
def chainFrom (idel : ℕ → Idel) : ℕ → ℕ → List ℕ
  | 0, _ => []
  | fuel + 1, n => if n = 0 then [] else n :: chainFrom idel fuel (idel n).i_pred

def chain (idel : ℕ → Idel) (serial : ℕ) : List ℕ := chainFrom idel serial serial

/-- What is asked of the table: a serial, a date, and the marks of the user. -/
structure Request where
  serial : ℕ
  cutoff : ℤ
  user : ℕ → ℕ

/-- Whether a serial is applied when those in `above` are. A mark of the user or of a list of theirs
wins, the highest first. -/
def isApplied (idel : ℕ → Idel) (q : Request) (above : List ℕ) (n : ℕ) : Bool :=
  let code := mark q.user (above.flatMap fun m => listMarks (idel m).i_ixg) n
  code = APPLY ||
    code = SX_EMPTY && decide (n ∈ chain idel q.serial) && decide ((idel n).i_datetime ≤ q.cutoff)

/-- From serial `n` down, when those in `above` have been found to be applied. -/
def appliedFrom (idel : ℕ → Idel) (q : Request) : ℕ → List ℕ → List ℕ
  | 0, above => above
  | n + 1, above =>
    appliedFrom idel q n (if isApplied idel q above (n + 1) then above ++ [n + 1] else above)

def appliedSet (idel : ℕ → Idel) (q : Request) (maxser : ℕ) : List ℕ := appliedFrom idel q maxser []

/-! ### What `setup` reads of a table -/

/-- Predecessors are smaller, and the lists are as `doixg` makes them. -/
structure WellFormed (idel : ℕ → Idel) (maxser : ℕ) (q : Request) : Prop where
  serial_pos : 1 ≤ q.serial
  serial_le : q.serial ≤ maxser
  pred_lt : ∀ n, 1 ≤ n → n ≤ maxser → (idel n).i_pred < n
  count : ∀ n, ∀ l ∈ (idel n).i_ixg, l.2.1 = toChar l.2.2.length

/-- A list as far as its count goes. -/
def cutList (l : Ixg) : Ixg := (l.1, l.2.1, l.2.2.take (l.2.2.length % 256))

def cut (idel : ℕ → Idel) (n : ℕ) : Idel := { idel n with i_ixg := (idel n).i_ixg.map cutList }

/-- The count of a list is not negative. -/
def Ixg.Counted (l : Ixg) : Prop := l.2.2.length % 256 < 128

/-- `setup` does not stop at a serial: it has a predecessor, if it needs one, and none of its lists
has a negative count, if it is applied. -/
structure Passes (idel : ℕ → Idel) (q : Request) (applied : List ℕ) (n : ℕ) : Prop where
  pred_pos : n ∈ chain idel q.serial → n ≠ 1 → (idel n).i_pred ≠ 0
  counted : n ∈ applied → ∀ l ∈ (idel n).i_ixg, Ixg.Counted l

/-- `setup` stops nowhere, and what the counts of the lists leave out decides nothing: each serial
is decided by the lists of those above it, as far as their counts go, as it is by all of them. -/
structure Spared (idel : ℕ → Idel) (q : Request) (maxser : ℕ) : Prop where
  passes : ∀ n, 1 ≤ n → n ≤ maxser → Passes idel q (appliedSet idel q maxser) n
  left_out : ∀ n, 1 ≤ n → n ≤ maxser →
    isApplied (cut idel) q ((appliedSet idel q maxser).filter (n < ·)) n =
      isApplied idel q ((appliedSet idel q maxser).filter (n < ·)) n

/-- The lists have had room in `xtmp`, where `doixg` puts the serials of a list first. -/
def Stored (idel : ℕ → Idel) : Prop := ∀ n, ∀ l ∈ (idel n).i_ixg, l.2.2.length ≤ MAXLINE

/-! ### Marks -/

theorem listCode_ne (type : UInt8) : listCode type ≠ SX_EMPTY := by
  unfold listCode
  split_ifs <;> decide

theorem listMarks_ne {ixg : List Ixg} {p : ℕ × ℕ} (h : p ∈ listMarks ixg) : p.2 ≠ SX_EMPTY := by
  obtain ⟨l, -, hp⟩ := List.mem_flatMap.mp h
  obtain ⟨n, -, rfl⟩ := List.mem_map.mp hp
  exact listCode_ne l.1

theorem mark_nil (codes : ℕ → ℕ) (n : ℕ) : mark codes [] n = codes n := by
  unfold mark
  split_ifs with h
  · rfl
  · exact (not_not.mp h).symm

theorem mark_of_ne {codes : ℕ → ℕ} {n : ℕ} (h : codes n ≠ SX_EMPTY) (marks : List (ℕ × ℕ)) :
    mark codes marks n = codes n := if_pos h

/-- Marks that are set one after the other. -/
theorem mark_mark {codes : ℕ → ℕ} {l1 : List (ℕ × ℕ)} (h1 : ∀ p ∈ l1, p.2 ≠ SX_EMPTY)
    (l2 : List (ℕ × ℕ)) (n : ℕ) : mark (mark codes l1) l2 n = mark codes (l1 ++ l2) n := by
  unfold mark
  by_cases hcode : codes n ≠ SX_EMPTY
  · rw [if_pos hcode, if_pos hcode, if_pos hcode]
  · rw [if_neg hcode, if_neg hcode, List.find?_append]
    cases hfind : l1.find? (·.1 = n) with
    | none => rfl
    | some p =>
      have hp : p.2 ≠ SX_EMPTY := h1 p (List.mem_of_find?_eq_some hfind)
      exact if_pos hp

/-- The codes of a table of marks. -/
def codes (ap : ℕ → Apply) (n : ℕ) : ℕ := (ap n).a_code

theorem condset_code (code reason : ℕ) (hcode : code ≠ SX_EMPTY) (ap : Apply) :
    (condset code reason ap).a_code = (if ap.a_code ≠ SX_EMPTY then ap.a_code else code) ∧
      (condset code reason ap).a_inline = ap.a_inline := by
  unfold condset
  rw [if_neg hcode]
  split_ifs with h h'
  · exact absurd h h'
  · exact ⟨rfl, rfl⟩
  · exact ⟨rfl, rfl⟩

/-- One list sets the marks of its serials. -/
theorem foldl_condset {code : ℕ} (reason : ℕ) (hcode : code ≠ SX_EMPTY) (sers : List ℕ) :
    ∀ ap : ℕ → Apply,
    let ap' := sers.foldl (fun ap n => Function.update ap n (condset code reason (ap n))) ap
    (∀ n, (ap' n).a_inline = (ap n).a_inline) ∧
      ∀ n, codes ap' n = mark (codes ap) (sers.map (·, code)) n := by
  induction sers with
  | nil =>
    intro ap
    exact ⟨fun _ => rfl, fun n => (mark_nil _ n).symm⟩
  | cons ser sers ih =>
    intro ap
    obtain ⟨hin, hcodes⟩ := ih (Function.update ap ser (condset code reason (ap ser)))
    obtain ⟨hset, hkeep⟩ := condset_code code reason hcode (ap ser)
    refine ⟨fun n => (hin n).trans ?_, fun n => (hcodes n).trans ?_⟩
    · by_cases hn : n = ser
      · rw [hn, Function.update_self, hkeep]
      · rw [Function.update_of_ne hn]
    · have hone : codes (Function.update ap ser (condset code reason (ap ser))) =
          mark (codes ap) [(ser, code)] := by
        funext m
        unfold codes mark
        by_cases hm : m = ser
        · rw [hm, Function.update_self, hset]
          simp
        · rw [Function.update_of_ne hm]
          have hne : decide (ser = m) = false := by simpa using Ne.symm hm
          simp only [List.find?_cons, hne, List.find?_nil, Option.map_none, Option.getD_none]
          split_ifs with h
          · rfl
          · exact not_not.mp h
      rw [hone, mark_mark (by simpa using hcode)]
      rfl

theorem toChar_eq (n : ℕ) :
    toChar n = if n % 256 < 128 then ((n % 256 : ℕ) : ℤ) else ((n % 256 : ℕ) : ℤ) - 256 := by
  unfold toChar
  rw [Int.bmod_def]
  split_ifs <;> omega

/-- The lists of a delta set their marks, each as far as its count goes, unless one is negative. -/
theorem ixgsetup_eq (ixg : List Ixg) : ∀ ap : ℕ → Apply,
    (∀ l ∈ ixg, l.2.1 = toChar l.2.2.length) →
    ((∀ l ∈ ixg, Ixg.Counted l) → ∃ ap', ixgsetup ap ixg = some ap' ∧
      (∀ n, (ap' n).a_inline = (ap n).a_inline) ∧
      ∀ n, codes ap' n = mark (codes ap) (listMarks (ixg.map cutList)) n) ∧
    ((∃ l ∈ ixg, ¬ Ixg.Counted l) → ixgsetup ap ixg = none) := by
  induction ixg with
  | nil =>
    intro ap _
    refine ⟨fun _ => ⟨ap, rfl, fun _ => rfl, fun n => (mark_nil _ n).symm⟩, fun h => ?_⟩
    obtain ⟨l, hl, -⟩ := h
    exact absurd hl List.not_mem_nil
  | cons l ixg ih =>
    intro ap hcount
    obtain ⟨hl, hixg⟩ := List.forall_mem_cons.mp hcount
    obtain ⟨type, cnt, sers⟩ := l
    dsimp only at hl
    have hcnt := hl.trans (toChar_eq sers.length)
    by_cases hcounted : sers.length % 256 < 128
    · rw [if_pos hcounted] at hcnt
      have hle : sers.length % 256 ≤ sers.length := Nat.mod_le _ _
      have hstep : ixgsetup ap ((type, cnt, sers) :: ixg) = ixgsetup
          ((sers.take (sers.length % 256)).foldl (fun ap n => Function.update ap n
            (condset (listCode type) (if type = INCLUDE then INCL else EXCL) (ap n))) ap) ixg := by
        rw [ixgsetup, if_neg (by omega), hcnt, Int.toNat_natCast]
        rfl
      obtain ⟨hin, hcodes⟩ := foldl_condset (if type = INCLUDE then INCL else EXCL)
        (listCode_ne type) (sers.take (sers.length % 256)) ap
      obtain ⟨hok, hbad⟩ := ih ((sers.take (sers.length % 256)).foldl (fun ap n =>
        Function.update ap n (condset (listCode type) (if type = INCLUDE then INCL else EXCL) (ap n)))
        ap) hixg
      rw [hstep]
      refine ⟨fun hall => ?_, fun hsome => ?_⟩
      · obtain ⟨ap', hap', hin', hcodes'⟩ := hok (List.forall_mem_cons.mp hall).2
        refine ⟨ap', hap', fun n => (hin' n).trans (hin n), fun n => (hcodes' n).trans ?_⟩
        rw [funext hcodes, mark_mark]
        · rfl
        · intro p hp
          obtain ⟨m, -, rfl⟩ := List.mem_map.mp hp
          exact listCode_ne type
      · obtain ⟨k, hk, hnot⟩ := hsome
        rcases List.mem_cons.mp hk with rfl | hk
        · exact absurd hcounted hnot
        · exact hbad ⟨k, hk, hnot⟩
    · rw [if_neg hcounted] at hcnt
      have hlt : sers.length % 256 < 256 := Nat.mod_lt _ (by decide)
      refine ⟨fun hall => absurd (List.forall_mem_cons.mp hall).1 hcounted, fun _ => ?_⟩
      rw [ixgsetup, if_pos (by omega)]

/-! ### The chain -/

theorem mem_chainFrom {idel : ℕ → Idel} {maxser : ℕ}
    (hpred : ∀ n, 1 ≤ n → n ≤ maxser → (idel n).i_pred < n) (fuel : ℕ) : ∀ s, s ≤ fuel →
    s ≤ maxser → ∀ m, m ∈ chainFrom idel fuel s ↔
      m ≠ 0 ∧ (m = s ∨ ∃ k ∈ chainFrom idel fuel s, (idel k).i_pred = m) := by
  induction fuel with
  | zero =>
    intro s hs _ m
    unfold chainFrom
    simp only [List.not_mem_nil, false_and, exists_false, or_false, false_iff, not_and]
    omega
  | succ fuel ih =>
    intro s hs hmax m
    unfold chainFrom
    by_cases hzero : s = 0
    · rw [if_pos hzero]
      simp only [List.not_mem_nil, false_and, exists_false, or_false, false_iff, not_and]
      omega
    · have hlt := hpred s (by omega) hmax
      rw [if_neg hzero]
      simp only [List.mem_cons, exists_eq_or_imp]
      rw [ih (idel s).i_pred (by omega) (by omega) m]
      constructor
      · rintro (rfl | ⟨h0, rfl | h⟩)
        · exact ⟨hzero, Or.inl rfl⟩
        · exact ⟨h0, Or.inr (Or.inl rfl)⟩
        · exact ⟨h0, Or.inr (Or.inr h)⟩
      · rintro ⟨h0, rfl | h | h⟩
        · exact Or.inl rfl
        · exact Or.inr ⟨h0, Or.inl h.symm⟩
        · exact Or.inr ⟨h0, Or.inr h⟩

variable {idel : ℕ → Idel} {maxser : ℕ} {q : Request}

theorem WellFormed.mem_chain (h : WellFormed idel maxser q) (m : ℕ) :
    m ∈ chain idel q.serial ↔
      m ≠ 0 ∧ (m = q.serial ∨ ∃ k ∈ chain idel q.serial, (idel k).i_pred = m) :=
  mem_chainFrom h.pred_lt q.serial q.serial le_rfl h.serial_le m

theorem chainFrom_le {idel : ℕ → Idel} {maxser : ℕ}
    (hpred : ∀ n, 1 ≤ n → n ≤ maxser → (idel n).i_pred < n) (fuel : ℕ) : ∀ s, s ≤ maxser →
    ∀ m ∈ chainFrom idel fuel s, m ≤ s := by
  induction fuel with
  | zero => exact fun _ _ _ h => absurd h List.not_mem_nil
  | succ fuel ih =>
    intro s hs m hm
    unfold chainFrom at hm
    by_cases hzero : s = 0
    · rw [if_pos hzero] at hm
      exact absurd hm List.not_mem_nil
    · rw [if_neg hzero] at hm
      have hlt := hpred s (by omega) hs
      rcases List.mem_cons.mp hm with rfl | hm
      · exact le_rfl
      · exact (ih _ (by omega) m hm).trans hlt.le

theorem WellFormed.chain_le (h : WellFormed idel maxser q) {m : ℕ}
    (hm : m ∈ chain idel q.serial) : m ≤ maxser :=
  (chainFrom_le h.pred_lt q.serial q.serial h.serial_le m hm).trans h.serial_le

theorem chainFrom_cut (fuel : ℕ) : ∀ s, chainFrom (cut idel) fuel s = chainFrom idel fuel s := by
  induction fuel with
  | zero => exact fun _ => rfl
  | succ fuel ih =>
    intro s
    unfold chainFrom
    split_ifs
    · rfl
    · rw [ih]
      rfl

theorem chain_cut (s : ℕ) : chain (cut idel) s = chain idel s := chainFrom_cut s s

/-! ### The loop -/

/-- Serials above `n` have been looked at. What is left is marked as the lists of those in `above`
and the user say, and is on the line of descent as far as the chain has been followed. -/
structure Reached (idel : ℕ → Idel) (maxser : ℕ) (q : Request) (n : ℕ) (above : List ℕ)
    (ap : ℕ → Apply) : Prop where
  range : ∀ m ∈ above, n < m
  inline : ∀ m, 1 ≤ m → m ≤ n → ((ap m).a_inline = true ↔
    m = q.serial ∨ ∃ k ∈ chain idel q.serial, n < k ∧ (idel k).i_pred = m)
  todo : ∀ m, m ≤ n → codes ap m =
    mark q.user (above.flatMap fun k => listMarks (cut idel k).i_ixg) m
  done : ∀ m, n < m → m ≤ maxser → (codes ap m = APPLY ↔ m ∈ above) ∧ codes ap m ≠ SX_EMPTY

theorem Reached.inline_iff {n : ℕ} {above : List ℕ} {ap : ℕ → Apply}
    (hap : Reached idel maxser q (n + 1) above ap) (h : WellFormed idel maxser q)
    (hn : n + 1 ≤ maxser) : (ap (n + 1)).a_inline = true ↔ n + 1 ∈ chain idel q.serial := by
  rw [hap.inline (n + 1) (Nat.le_add_left 1 n) le_rfl, h.mem_chain]
  constructor
  · rintro (heq | ⟨k, hk, -, hpred⟩)
    · exact ⟨Nat.succ_ne_zero n, Or.inl heq⟩
    · exact ⟨Nat.succ_ne_zero n, Or.inr ⟨k, hk, hpred⟩⟩
  · rintro ⟨-, heq | ⟨k, hk, hpred⟩⟩
    · exact Or.inl heq
    · refine Or.inr ⟨k, hk, ?_, hpred⟩
      by_contra hle
      have hk0 : k ≠ 0 := ((h.mem_chain k).mp hk).1
      have := h.pred_lt k (by omega) (by omega)
      omega

/-- `setup` decides a serial: what becomes of the marks before its lists are read. -/
def decided (idel : ℕ → Idel) (cutoff : ℤ) (ser : ℕ) (ap : ℕ → Apply) : ℕ → Apply :=
  if (ap ser).a_inline then
    let ap := Function.update ap (idel ser).i_pred { ap (idel ser).i_pred with a_inline := true }
    if cutoff < (idel ser).i_datetime then
      Function.update ap ser (condset NOAPPLY CUTOFF (ap ser))
    else Function.update ap ser (condset APPLY SX_EMPTY (ap ser))
  else Function.update ap ser (condset NOAPPLY SX_EMPTY (ap ser))

theorem setupFrom_succ (cutoff : ℤ) (n : ℕ) {ap : ℕ → Apply}
    (h : ¬ ((ap (n + 1)).a_inline = true ∧ n + 1 ≠ 1 ∧ (idel (n + 1)).i_pred = 0)) :
    setupFrom idel cutoff (n + 1) ap =
      if (decided idel cutoff (n + 1) ap (n + 1)).a_code = APPLY then
        (ixgsetup (decided idel cutoff (n + 1) ap) (idel (n + 1)).i_ixg).bind
          (setupFrom idel cutoff n)
      else setupFrom idel cutoff n (decided idel cutoff (n + 1) ap) := by
  rw [setupFrom]
  dsimp only
  rw [if_neg h]
  rfl

/-- The code of a serial that has been decided, where its predecessor is smaller. -/
theorem decided_codes (cutoff : ℤ) {ser : ℕ} {ap : ℕ → Apply} (hpred : (idel ser).i_pred < ser) :
    (∀ m, m ≠ ser → codes (decided idel cutoff ser ap) m = codes ap m) ∧
      codes (decided idel cutoff ser ap) ser =
        if codes ap ser ≠ SX_EMPTY then codes ap ser
        else if (ap ser).a_inline = true ∧ (idel ser).i_datetime ≤ cutoff then APPLY else NOAPPLY := by
  have hne : ser ≠ (idel ser).i_pred := by omega
  have hkeep : ∀ m, codes (Function.update ap (idel ser).i_pred
      { ap (idel ser).i_pred with a_inline := true }) m = codes ap m := by
    intro m
    unfold codes
    by_cases hm : m = (idel ser).i_pred
    · rw [hm, Function.update_self]
    · rw [Function.update_of_ne hm]
  unfold decided
  by_cases hin : (ap ser).a_inline = true
  · rw [if_pos hin]
    dsimp only
    have hser : Function.update ap (idel ser).i_pred
        { ap (idel ser).i_pred with a_inline := true } ser = ap ser := Function.update_of_ne hne _ _
    by_cases hdate : cutoff < (idel ser).i_datetime
    · rw [if_pos hdate]
      refine ⟨fun m hm => ?_, ?_⟩
      · rw [← hkeep m, codes, Function.update_of_ne hm]
        rfl
      · rw [codes, Function.update_self, hser, (condset_code _ _ (by decide) _).1]
        rw [if_neg (by omega : ¬ ((ap ser).a_inline = true ∧ (idel ser).i_datetime ≤ cutoff))]
        rfl
    · rw [if_neg hdate]
      refine ⟨fun m hm => ?_, ?_⟩
      · rw [← hkeep m, codes, Function.update_of_ne hm]
        rfl
      · rw [codes, Function.update_self, hser, (condset_code _ _ (by decide) _).1]
        rw [if_pos (⟨hin, by omega⟩ : (ap ser).a_inline = true ∧ (idel ser).i_datetime ≤ cutoff)]
        rfl
  · rw [if_neg hin]
    refine ⟨fun m hm => ?_, ?_⟩
    · rw [codes, Function.update_of_ne hm]
      rfl
    · rw [codes, Function.update_self, (condset_code _ _ (by decide) _).1]
      rw [if_neg (fun h => hin h.1 : ¬ ((ap ser).a_inline = true ∧ (idel ser).i_datetime ≤ cutoff))]
      rfl

/-- It puts the predecessor on the line of descent. -/
theorem decided_inline (cutoff : ℤ) {ser : ℕ} {ap : ℕ → Apply} {m : ℕ} (hm : m ≠ ser) :
    (decided idel cutoff ser ap m).a_inline = true ↔
      (ap m).a_inline = true ∨ (ap ser).a_inline = true ∧ (idel ser).i_pred = m := by
  unfold decided
  by_cases hin : (ap ser).a_inline = true
  · have hupd : (Function.update ap (idel ser).i_pred
        { ap (idel ser).i_pred with a_inline := true } m).a_inline = true ↔
        (ap m).a_inline = true ∨ (ap ser).a_inline = true ∧ (idel ser).i_pred = m := by
      by_cases hp : m = (idel ser).i_pred
      · rw [hp, Function.update_self]
        exact iff_of_true rfl (Or.inr ⟨hin, rfl⟩)
      · rw [Function.update_of_ne hp]
        exact (or_iff_left fun h => hp h.2.symm).symm
    rw [if_pos hin, ← hupd]
    dsimp only
    split_ifs <;> rw [Function.update_of_ne hm]
  · rw [if_neg hin, Function.update_of_ne hm]
    exact (or_iff_left fun h => hin h.1).symm

theorem listMarks_above_ne {above : List ℕ} {p : ℕ × ℕ}
    (hp : p ∈ above.flatMap fun k => listMarks (cut idel k).i_ixg) : p.2 ≠ SX_EMPTY := by
  obtain ⟨k, -, hp⟩ := List.mem_flatMap.mp hp
  exact listMarks_ne hp

/-- A serial is decided as the recursion says. -/
theorem Reached.decided_iff {n : ℕ} {above : List ℕ} {ap : ℕ → Apply}
    (h : WellFormed idel maxser q) (hn : n + 1 ≤ maxser)
    (hap : Reached idel maxser q (n + 1) above ap) :
    (codes (decided idel q.cutoff (n + 1) ap) (n + 1) = APPLY ↔
        isApplied (cut idel) q above (n + 1) = true) ∧
      codes (decided idel q.cutoff (n + 1) ap) (n + 1) ≠ SX_EMPTY := by
  have hcode := (@decided_codes idel q.cutoff (n + 1) ap
    (h.pred_lt (n + 1) (Nat.le_add_left 1 n) hn)).2
  have happlied : isApplied (cut idel) q above (n + 1) = true ↔ codes ap (n + 1) = APPLY ∨
      codes ap (n + 1) = SX_EMPTY ∧ (ap (n + 1)).a_inline = true ∧
        (idel (n + 1)).i_datetime ≤ q.cutoff := by
    rw [hap.inline_iff h hn, hap.todo (n + 1) le_rfl]
    unfold isApplied
    rw [chain_cut]
    simp only [Bool.or_eq_true, Bool.and_eq_true, decide_eq_true_eq, and_assoc]
    rfl
  rw [hcode, happlied]
  by_cases hset : codes ap (n + 1) ≠ SX_EMPTY
  · rw [if_pos hset]
    exact ⟨(or_iff_left fun h => hset h.1).symm, hset⟩
  · rw [if_neg hset]
    have hzero := not_not.mp hset
    by_cases hin : (ap (n + 1)).a_inline = true ∧ (idel (n + 1)).i_datetime ≤ q.cutoff
    · rw [if_pos hin]
      exact ⟨iff_of_true rfl (Or.inr ⟨hzero, hin⟩), by decide⟩
    · rw [if_neg hin]
      refine ⟨iff_of_false (by decide) ?_, by decide⟩
      rintro (happly | hnot)
      · rw [hzero] at happly
        exact absurd happly (by decide)
      · exact hin hnot.2

/-- After a serial: its own marks have been set, if it has been applied. -/
theorem Reached.step {n : ℕ} {above : List ℕ} {ap ap' : ℕ → Apply}
    (h : WellFormed idel maxser q) (hn : n + 1 ≤ maxser)
    (hap : Reached idel maxser q (n + 1) above ap) {above' : List ℕ} {marks : List (ℕ × ℕ)}
    (hmem : ∀ m, m ∈ above' ↔
      m ∈ above ∨ m = n + 1 ∧ isApplied (cut idel) q above (n + 1) = true)
    (hmarks : above'.flatMap (fun k => listMarks (cut idel k).i_ixg) =
      above.flatMap (fun k => listMarks (cut idel k).i_ixg) ++ marks)
    (hin : ∀ m, (ap' m).a_inline = (decided idel q.cutoff (n + 1) ap m).a_inline)
    (hcodes : ∀ m, codes ap' m = mark (codes (decided idel q.cutoff (n + 1) ap)) marks m) :
    Reached idel maxser q n above' ap' := by
  have hpred := h.pred_lt (n + 1) (Nat.le_add_left 1 n) hn
  obtain ⟨hsame, -⟩ := @decided_codes idel q.cutoff (n + 1) ap hpred
  obtain ⟨hiff, hne⟩ := hap.decided_iff h hn
  refine ⟨fun m hm => ?_, fun m h1 hm => ?_, fun m hm => ?_, fun m hm hmax => ?_⟩
  · rcases (hmem m).mp hm with hm | ⟨rfl, -⟩
    · have := hap.range m hm
      omega
    · exact Nat.lt_succ_self n
  · rw [hin m, decided_inline q.cutoff (by omega), hap.inline m h1 (by omega),
      hap.inline_iff h hn, or_assoc]
    refine or_congr_right ⟨?_, ?_⟩
    · rintro (⟨k, hk, hlt, hp⟩ | ⟨hk, hp⟩)
      · exact ⟨k, hk, by omega, hp⟩
      · exact ⟨n + 1, hk, Nat.lt_succ_self n, hp⟩
    · rintro ⟨k, hk, hlt, hp⟩
      rcases Nat.lt_or_ge (n + 1) k with hlt' | hge
      · exact Or.inl ⟨k, hk, hlt', hp⟩
      · obtain rfl : k = n + 1 := by omega
        exact Or.inr ⟨hk, hp⟩
  · have hold : codes (decided idel q.cutoff (n + 1) ap) m =
        mark q.user (above.flatMap fun k => listMarks (cut idel k).i_ixg) m := by
      rw [hsame m (by omega), hap.todo m (by omega)]
    rw [hcodes m, hmarks, ← mark_mark fun p hp => listMarks_above_ne hp]
    unfold mark at hold ⊢
    rw [hold]
  · rw [hcodes m, hmem m]
    rcases Nat.lt_or_ge (n + 1) m with hlt | hge
    · obtain ⟨hdone, hset⟩ := hap.done m hlt hmax
      have hset' : codes (decided idel q.cutoff (n + 1) ap) m ≠ SX_EMPTY := by
        rw [hsame m (by omega)]
        exact hset
      rw [mark_of_ne hset', hsame m (by omega), hdone]
      exact ⟨(or_iff_left fun h => absurd h.1 (by omega)).symm, hset⟩
    · obtain rfl : m = n + 1 := by omega
      rw [mark_of_ne hne, hiff]
      refine ⟨⟨fun happ => Or.inr ⟨rfl, happ⟩, ?_⟩, hne⟩
      rintro (habove | happ)
      · exact absurd (hap.range _ habove) (Nat.lt_irrefl _)
      · exact happ.2

/-- The serials that the recursion applies from `n` down. -/
theorem mem_appliedFrom (q : Request) (n : ℕ) : ∀ (above : List ℕ) (m : ℕ),
    m ∈ above → m ∈ appliedFrom idel q n above := by
  induction n with
  | zero => exact fun _ _ h => h
  | succ n ih =>
    intro above m hm
    unfold appliedFrom
    apply ih
    split_ifs
    · exact List.mem_append_left _ hm
    · exact hm

theorem of_mem_appliedFrom (q : Request) (n : ℕ) : ∀ (above : List ℕ) (m : ℕ),
    m ∈ appliedFrom idel q n above → m ∈ above ∨ m ≤ n := by
  induction n with
  | zero => exact fun _ _ h => Or.inl h
  | succ n ih =>
    intro above m hm
    unfold appliedFrom at hm
    rcases ih _ m hm with habove | hle
    · split_ifs at habove
      · rcases List.mem_append.mp habove with habove | hself
        · exact Or.inl habove
        · exact Or.inr (List.mem_singleton.mp hself).le
      · exact Or.inl habove
    · exact Or.inr (Nat.le_succ_of_le hle)

/-- The loop marks what the recursion over the lists as far as their counts go applies, unless it
comes to a serial at which it stops. -/
theorem setupFrom_eq (h : WellFormed idel maxser q) (n : ℕ) : ∀ (above : List ℕ) (ap : ℕ → Apply),
    n ≤ maxser → Reached idel maxser q n above ap →
    ((∀ m, 1 ≤ m → m ≤ n → Passes idel q (appliedFrom (cut idel) q n above) m) →
      ∃ ap', setupFrom idel q.cutoff n ap = some ap' ∧ ∀ m, 1 ≤ m → m ≤ maxser →
        (codes ap' m = APPLY ↔ m ∈ appliedFrom (cut idel) q n above)) ∧
    ((∃ m, 1 ≤ m ∧ m ≤ n ∧ ¬ Passes idel q (appliedFrom (cut idel) q n above) m) →
      setupFrom idel q.cutoff n ap = none) := by
  induction n with
  | zero =>
    intro above ap _ hap
    refine ⟨fun _ => ⟨ap, rfl, fun m h1 hm => (hap.done m h1 hm).1⟩, ?_⟩
    rintro ⟨m, h1, h0, -⟩
    omega
  | succ n ih =>
    intro above ap hn hap
    by_cases hstop : (ap (n + 1)).a_inline = true ∧ n + 1 ≠ 1 ∧ (idel (n + 1)).i_pred = 0
    · have hchain := (hap.inline_iff h hn).mp hstop.1
      refine ⟨fun hpass => ?_, fun _ => ?_⟩
      · exact absurd hstop.2.2
          ((hpass (n + 1) (Nat.le_add_left 1 n) le_rfl).pred_pos hchain hstop.2.1)
      · rw [setupFrom]
        dsimp only
        rw [if_pos hstop]
    have hpos : n + 1 ∈ chain idel q.serial → n + 1 ≠ 1 → (idel (n + 1)).i_pred ≠ 0 :=
      fun hchain hone hzero => hstop ⟨(hap.inline_iff h hn).mpr hchain, hone, hzero⟩
    obtain ⟨hiff, -⟩ := hap.decided_iff h hn
    rw [setupFrom_succ q.cutoff n hstop]
    unfold appliedFrom
    by_cases happ : isApplied (cut idel) q above (n + 1) = true
    · have hcode : (decided idel q.cutoff (n + 1) ap (n + 1)).a_code = APPLY := hiff.mpr happ
      rw [if_pos happ, if_pos hcode]
      have hself : n + 1 ∈ appliedFrom (cut idel) q n (above ++ [n + 1]) :=
        mem_appliedFrom q n _ _ (List.mem_append_right _ (List.mem_singleton_self _))
      obtain ⟨hok, hbad⟩ := ixgsetup_eq (idel (n + 1)).i_ixg (decided idel q.cutoff (n + 1) ap)
        (h.count (n + 1))
      by_cases hall : ∀ l ∈ (idel (n + 1)).i_ixg, Ixg.Counted l
      · obtain ⟨ap', hap', hin, hcodes⟩ := hok hall
        rw [hap', Option.bind_some]
        have hreached : Reached idel maxser q n (above ++ [n + 1]) ap' := by
          refine hap.step h hn (fun m => ?_) ?_ hin hcodes
          · rw [List.mem_append, List.mem_singleton]
            exact or_congr_right (and_iff_left happ).symm
          · rw [List.flatMap_append, List.flatMap_singleton]
            rfl
        obtain ⟨h1, h2⟩ := ih _ ap' (by omega) hreached
        refine ⟨fun hpass => h1 fun m hone hm => hpass m hone (by omega), ?_⟩
        rintro ⟨m, hone, hm, hnot⟩
        rcases Nat.lt_or_ge n m with hlt | hge
        · obtain rfl : m = n + 1 := by omega
          exact absurd ⟨hpos, fun _ => hall⟩ hnot
        · exact h2 ⟨m, hone, hge, hnot⟩
      · push Not at hall
        obtain ⟨l, hl, hnot⟩ := hall
        rw [hbad ⟨l, hl, hnot⟩]
        exact ⟨fun hpass => absurd ((hpass (n + 1) (Nat.le_add_left 1 n) le_rfl).counted hself l hl)
          hnot, fun _ => rfl⟩
    · have hcode : (decided idel q.cutoff (n + 1) ap (n + 1)).a_code ≠ APPLY :=
        fun hcode => happ (hiff.mp hcode)
      rw [if_neg happ, if_neg hcode]
      have hreached : Reached idel maxser q n above (decided idel q.cutoff (n + 1) ap) := by
        refine hap.step h hn (fun m => ?_) (List.append_nil _).symm (fun _ => rfl) fun m => ?_
        · exact (or_iff_left fun h => happ h.2).symm
        · exact (mark_nil _ m).symm
      have hnotin : n + 1 ∉ appliedFrom (cut idel) q n above := by
        intro hmem
        rcases of_mem_appliedFrom q n above (n + 1) hmem with habove | hle
        · exact absurd (hap.range _ habove) (Nat.lt_irrefl _)
        · exact absurd hle (Nat.not_succ_le_self n)
      obtain ⟨h1, h2⟩ := ih _ _ (by omega) hreached
      refine ⟨fun hpass => h1 fun m hone hm => hpass m hone (by omega), ?_⟩
      rintro ⟨m, hone, hm, hnot⟩
      rcases Nat.lt_or_ge n m with hlt | hge
      · obtain rfl : m = n + 1 := by omega
        exact absurd ⟨hpos, fun hmem => absurd hmem hnotin⟩ hnot
      · exact h2 ⟨m, hone, hge, hnot⟩

/-! ### Two tables -/

theorem filter_appliedFrom (n : ℕ) : ∀ above : List ℕ, (∀ m ∈ above, n < m) →
    (appliedFrom idel q n above).filter (n < ·) = above := by
  induction n with
  | zero =>
    intro above h
    exact List.filter_eq_self.mpr fun m hm => by simpa using h m hm
  | succ n ih =>
    intro above h
    have hold : above.filter (n + 1 < ·) = above :=
      List.filter_eq_self.mpr fun m hm => by simpa using h m hm
    have hcut : ∀ l : List ℕ, (l.filter (n < ·)).filter (n + 1 < ·) = l.filter (n + 1 < ·) := by
      intro l
      rw [List.filter_filter]
      refine List.filter_congr fun m _ => ?_
      rw [← Bool.decide_and]
      exact decide_eq_decide.mpr (by omega)
    unfold appliedFrom
    rw [← hcut]
    split_ifs with happ
    · rw [ih, List.filter_append, hold]
      · simp
      · intro m hm
        rcases List.mem_append.mp hm with hm | hm
        · exact Nat.lt_of_succ_lt (h m hm)
        · rw [List.mem_singleton.mp hm]
          exact Nat.lt_succ_self n
    · rw [ih above fun m hm => Nat.lt_of_succ_lt (h m hm), hold]

theorem succ_mem_appliedFrom {n : ℕ} {above : List ℕ} (h : ∀ m ∈ above, n + 1 < m) :
    n + 1 ∈ appliedFrom idel q (n + 1) above ↔ isApplied idel q above (n + 1) = true := by
  unfold appliedFrom
  constructor
  · intro hmem
    rcases of_mem_appliedFrom q n _ _ hmem with habove | hle
    · by_contra hnot
      rw [if_neg hnot] at habove
      exact absurd (h _ habove) (Nat.lt_irrefl _)
    · exact absurd hle (Nat.not_succ_le_self n)
  · intro happ
    rw [if_pos happ]
    exact mem_appliedFrom q n _ _ (List.mem_append_right _ (List.mem_singleton_self _))

/-- Two tables apply the same serials if, and only if, they decide each of them alike. -/
theorem appliedFrom_congr (idel' : ℕ → Idel) (n : ℕ) : ∀ above : List ℕ, (∀ m ∈ above, n < m) →
    ((∀ m, 1 ≤ m → m ≤ n →
        (m ∈ appliedFrom idel' q n above ↔ m ∈ appliedFrom idel q n above)) ↔
      ∀ m, 1 ≤ m → m ≤ n → isApplied idel' q ((appliedFrom idel q n above).filter (m < ·)) m =
        isApplied idel q ((appliedFrom idel q n above).filter (m < ·)) m) ∧
    ((∀ m, 1 ≤ m → m ≤ n → isApplied idel' q ((appliedFrom idel q n above).filter (m < ·)) m =
        isApplied idel q ((appliedFrom idel q n above).filter (m < ·)) m) →
      appliedFrom idel' q n above = appliedFrom idel q n above) := by
  induction n with
  | zero => exact fun _ _ => ⟨⟨fun _ m h1 h0 => by omega, fun _ m h1 h0 => by omega⟩, fun _ => rfl⟩
  | succ n ih =>
    intro above h
    have hfilter := @filter_appliedFrom idel q (n + 1) above h
    have hmem := @succ_mem_appliedFrom idel q n above h
    have hmem' := @succ_mem_appliedFrom idel' q n above h
    by_cases heq : isApplied idel' q above (n + 1) = isApplied idel q above (n + 1)
    · have habove : ∀ m ∈ (if isApplied idel q above (n + 1) then above ++ [n + 1] else above),
          n < m := by
        intro m hm
        split_ifs at hm
        · rcases List.mem_append.mp hm with hm | hm
          · exact Nat.lt_of_succ_lt (h m hm)
          · rw [List.mem_singleton.mp hm]
            exact Nat.lt_succ_self n
        · exact Nat.lt_of_succ_lt (h m hm)
      obtain ⟨hiff, himp⟩ := ih _ habove
      have hsplit : (∀ m, 1 ≤ m → m ≤ n + 1 →
          isApplied idel' q ((appliedFrom idel q (n + 1) above).filter (m < ·)) m =
            isApplied idel q ((appliedFrom idel q (n + 1) above).filter (m < ·)) m) ↔
          ∀ m, 1 ≤ m → m ≤ n →
          isApplied idel' q ((appliedFrom idel q (n + 1) above).filter (m < ·)) m =
            isApplied idel q ((appliedFrom idel q (n + 1) above).filter (m < ·)) m := by
        refine ⟨fun hall m h1 hm => hall m h1 (Nat.le_succ_of_le hm), fun hall m h1 hm => ?_⟩
        rcases Nat.lt_or_ge n m with hlt | hge
        · obtain rfl : m = n + 1 := by omega
          rw [hfilter, heq]
        · exact hall m h1 hge
      have hsplit' : (∀ m, 1 ≤ m → m ≤ n + 1 → (m ∈ appliedFrom idel' q (n + 1) above ↔
          m ∈ appliedFrom idel q (n + 1) above)) ↔
          ∀ m, 1 ≤ m → m ≤ n → (m ∈ appliedFrom idel' q (n + 1) above ↔
          m ∈ appliedFrom idel q (n + 1) above) := by
        refine ⟨fun hall m h1 hm => hall m h1 (Nat.le_succ_of_le hm), fun hall m h1 hm => ?_⟩
        rcases Nat.lt_or_ge n m with hlt | hge
        · obtain rfl : m = n + 1 := by omega
          rw [hmem, hmem', heq]
        · exact hall m h1 hge
      rw [hsplit, hsplit']
      unfold appliedFrom
      rw [heq]
      exact ⟨hiff, himp⟩
    · have hne : ¬ ∀ m, 1 ≤ m → m ≤ n + 1 →
          isApplied idel' q ((appliedFrom idel q (n + 1) above).filter (m < ·)) m =
            isApplied idel q ((appliedFrom idel q (n + 1) above).filter (m < ·)) m := by
        intro hall
        have hlast := hall (n + 1) (Nat.le_add_left 1 n) le_rfl
        rw [hfilter] at hlast
        exact heq hlast
      refine ⟨iff_of_false (fun hall => heq ?_) hne, fun hall => absurd hall hne⟩
      have hlast := hall (n + 1) (Nat.le_add_left 1 n) le_rfl
      rw [hmem, hmem'] at hlast
      exact Bool.eq_iff_iff.mpr hlast

/-! ### The marks of `setup` -/

theorem Reached.init (h : WellFormed idel maxser q) {ap : ℕ → Apply}
    (hap : ∀ m, (ap m).a_inline = false) (huser : codes ap = q.user) :
    Reached idel maxser q maxser []
      (Function.update ap q.serial { ap q.serial with a_inline := true }) := by
  have hkeep : codes (Function.update ap q.serial { ap q.serial with a_inline := true }) =
      q.user := by
    rw [← huser]
    funext m
    unfold codes
    by_cases hm : m = q.serial
    · rw [hm, Function.update_self]
    · rw [Function.update_of_ne hm]
  refine ⟨fun m hm => absurd hm List.not_mem_nil, fun m _ hm => ?_, fun m _ => ?_,
    fun m hm hmax => absurd hmax (by omega)⟩
  · have hnone : ¬ ∃ k ∈ chain idel q.serial, maxser < k ∧ (idel k).i_pred = m := by
      rintro ⟨k, hk, hlt, -⟩
      exact absurd (h.chain_le hk) (by omega)
    rw [or_iff_left hnone]
    by_cases hm' : m = q.serial
    · rw [hm', Function.update_self]
      exact iff_of_true rfl rfl
    · rw [Function.update_of_ne hm', hap m]
      exact iff_of_false Bool.false_ne_true hm'
  · rw [hkeep]
    exact (mark_nil _ m).symm

/-- `setup` marks what the recursion applies to a table if, and only if, the counts of the lists
leave out nothing that decides. -/
theorem setup_spared (h : WellFormed idel maxser q) {ap : ℕ → Apply}
    (hap : ∀ m, (ap m).a_inline = false) (huser : codes ap = q.user) :
    (∃ ap', setupFrom idel q.cutoff maxser
        (Function.update ap q.serial { ap q.serial with a_inline := true }) = some ap' ∧
      ∀ m, 1 ≤ m → m ≤ maxser →
        ((ap' m).a_code = APPLY ↔ m ∈ appliedSet idel q maxser)) ↔
      Spared idel q maxser := by
  obtain ⟨hok, hbad⟩ := setupFrom_eq h maxser [] _ le_rfl (Reached.init h hap huser)
  obtain ⟨hiff, himp⟩ := @appliedFrom_congr idel q (cut idel) maxser [] (by simp)
  constructor
  · rintro ⟨ap', hap', hmarks⟩
    have hpass : ∀ m, 1 ≤ m → m ≤ maxser →
        Passes idel q (appliedFrom (cut idel) q maxser []) m := by
      intro m h1 hm
      by_contra hnot
      rw [hbad ⟨m, h1, hm, hnot⟩] at hap'
      exact absurd hap' (by simp)
    obtain ⟨ap'', hap'', hcut⟩ := hok hpass
    rw [hap'] at hap''
    obtain rfl := Option.some.inj hap''
    have hsame := hiff.mp fun m h1 hm => (hcut m h1 hm).symm.trans (hmarks m h1 hm)
    rw [himp hsame] at hpass
    exact ⟨hpass, hsame⟩
  · rintro ⟨hpass, hsame⟩
    have heq := himp hsame
    rw [heq] at hok
    exact hok hpass

/-- Lists of fewer than 128 serials lose none. -/
theorem Spared.of_length (hpred : ∀ n ∈ chain idel q.serial, n ≠ 1 → (idel n).i_pred ≠ 0)
    (hshort : ∀ n, ∀ l ∈ (idel n).i_ixg, l.2.2.length < 128) : Spared idel q maxser := by
  have hcut : cut idel = idel := by
    funext n
    have hmap : (idel n).i_ixg.map cutList = (idel n).i_ixg := by
      refine (List.map_congr_left fun l hl => ?_).trans (List.map_id _)
      have hlen := hshort n l hl
      unfold cutList
      rw [Nat.mod_eq_of_lt (by omega), List.take_length]
      rfl
    unfold cut
    rw [hmap]
  refine ⟨fun n _ _ => ⟨hpred n, fun _ l hl => ?_⟩, fun m _ _ => by rw [hcut]⟩
  have hlen := hshort n l hl
  unfold Ixg.Counted
  omega

/-- The lists of a table are stored by `doixg`, and then `setup` marks what the recursion applies if,
and only if, none of them is longer than `xtmp` and their counts leave out nothing that decides. -/
theorem setup_applied (h : WellFormed idel maxser q) {ap : ℕ → Apply}
    (hap : ∀ m, (ap m).a_inline = false) (huser : codes ap = q.user) :
    (Stored idel ∧ ∃ ap', setupFrom idel q.cutoff maxser
        (Function.update ap q.serial { ap q.serial with a_inline := true }) = some ap' ∧
      ∀ m, 1 ≤ m → m ≤ maxser →
        ((ap' m).a_code = APPLY ↔ m ∈ appliedSet idel q maxser)) ↔
      Stored idel ∧ Spared idel q maxser :=
  and_congr_right fun _ => setup_spared h hap huser

/-- Two deltas, of which the second has one list. -/
def twoDeltas (sers : List ℕ) (n : ℕ) : Idel :=
  if n = 2 then ⟨⟨1, 2, 0, 0⟩, [(EXCLUDE, toChar sers.length, sers)], 1, 0⟩
  else ⟨⟨1, 1, 0, 0⟩, [], 0, 0⟩

def twoRequest : Request := ⟨2, 0, fun _ => SX_EMPTY⟩

theorem twoDeltas_wellFormed (sers : List ℕ) : WellFormed (twoDeltas sers) 2 twoRequest := by
  refine ⟨by decide, le_rfl, fun n h1 hn => ?_, fun n l hl => ?_⟩
  · unfold twoDeltas
    split_ifs with h2
    · rw [h2]
      exact Nat.one_lt_two
    · exact h1
  · unfold twoDeltas at hl
    split_ifs at hl
    · rw [List.mem_singleton.mp hl]
    · exact absurd hl List.not_mem_nil

/-- The second delta leaves the first one out. -/
theorem setup_applied_exclude : Stored (twoDeltas [1]) ∧ ∃ ap', setupFrom (twoDeltas [1]) 0 2
    (Function.update (fun _ => ⟨false, SX_EMPTY, 0⟩) 2 ⟨true, SX_EMPTY, 0⟩) = some ap' ∧
      ∀ m, 1 ≤ m → m ≤ 2 → ((ap' m).a_code = APPLY ↔ m ∈ appliedSet (twoDeltas [1]) twoRequest 2) := by
  have hone : ∀ n, ∀ l ∈ (twoDeltas [1] n).i_ixg, l.2.2.length = 1 := by
    intro n l hl
    unfold twoDeltas at hl
    split_ifs at hl
    · rw [List.mem_singleton.mp hl]
      rfl
    · exact absurd hl List.not_mem_nil
  refine (setup_applied (twoDeltas_wellFormed [1]) (fun _ => rfl) rfl).mpr ⟨fun n l hl => ?_, ?_⟩
  · rw [hone n l hl]
    decide
  · refine Spared.of_length (by decide) fun n l hl => ?_
    rw [hone n l hl]
    decide

/-- The count of 256 serials is 0. -/
theorem not_setup_applied : WellFormed (twoDeltas (List.replicate 256 1)) 2 twoRequest ∧
    ¬ ∃ ap', setupFrom (twoDeltas (List.replicate 256 1)) 0 2
    (Function.update (fun _ => ⟨false, SX_EMPTY, 0⟩) 2 ⟨true, SX_EMPTY, 0⟩) = some ap' ∧
      ∀ m, 1 ≤ m → m ≤ 2 → ((ap' m).a_code = APPLY ↔
        m ∈ appliedSet (twoDeltas (List.replicate 256 1)) twoRequest 2) := by
  refine ⟨twoDeltas_wellFormed _, ?_⟩
  rintro ⟨ap', hap', hmarks⟩
  have hcode : (setupFrom (twoDeltas (List.replicate 256 1)) 0 2 (Function.update
      (fun _ => ⟨false, SX_EMPTY, 0⟩) 2 ⟨true, SX_EMPTY, 0⟩)).map (fun ap => (ap 1).a_code) =
      some APPLY := by decide +kernel
  have hnot : 1 ∉ appliedSet (twoDeltas (List.replicate 256 1)) twoRequest 2 := by decide +kernel
  rw [hap'] at hcode
  exact hnot ((hmarks 1 le_rfl one_le_two).mp (Option.some.inj hcode))

end Unitas.Sccs
