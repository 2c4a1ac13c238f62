import Unitas.Sccs.Applied
import Unitas.Sccs.Closure
import Unitas.Sccs.Get
import Unitas.Sccs.Sfile

/-! A well-formed s-file without one of its deltas. -/
namespace Unitas.Sccs
open Unitas.Hoare Unitas.Lines Unitas.Weave

variable {zone : Zone}

/-! ### The table -/

def REMOVED : UInt8 := 82

theorem markType_eq {p : Line} {a b : Line} (ha : 68 ∉ a) (hp : p = a ++ 68 :: b) (type : UInt8) :
    markType type p = a ++ type :: b := by
  have hpos : ∀ c ∈ a, (decide (c ≠ 68)) = true := fun c hc =>
    decide_eq_true fun h => ha (h ▸ hc)
  rw [markType, hp, List.takeWhile_append_of_pos hpos, List.dropWhile_append_of_pos hpos]
  simp

/-- The type is the first `D` of the line of a delta that is there. -/
theorem del_ab_live {p : Line} {dt₀ dt : Deltab} (h : del_ab zone p dt₀ = some (BDELTAB, dt))
    (hlive : dt.d_type = 68) : ∃ a b, 68 ∉ a ∧ p = a ++ 68 :: b ∧
      ∀ type : UInt8, type ≠ 32 ∧ type ≠ 9 → ∀ dt₁, del_ab zone (a ++ type :: b) dt₁ =
        (del_fields zone b { dt₁ with d_type := type }).map (BDELTAB, ·) := by
  obtain ⟨rest, rfl⟩ := del_ab_mark h rfl
  have hmark : ∀ rest dt₁, del_ab zone (deltaMark ++ rest) dt₁ =
      (del_fields zone (NONBLANK rest).tail { dt₁ with d_type := chr (NONBLANK rest) }).map
        (BDELTAB, ·) := fun rest dt₁ => by
    unfold del_ab
    rw [if_neg (by simp [deltaMark, chr]), if_neg (by simp [deltaMark, chr])]
    rfl
  rw [hmark] at h
  obtain ⟨dt', hdt', heq⟩ := Option.map_eq_some_iff.mp h
  obtain rfl : dt' = dt := (Prod.mk.inj heq).2
  have htype : chr (NONBLANK rest) = 68 := by
    rw [← hlive]
    unfold del_fields at hdt'
    dsimp only at hdt'
    split_ifs at hdt'
    cases hdt'
    rfl
  have hblank : NONBLANK rest = 68 :: (NONBLANK rest).tail := chr_eq (by decide) htype
  generalize hbl : rest.takeWhile (fun c => c == 32 || c == 9) = blanks at *
  have hblanks : ∀ c ∈ blanks, (c == 32 || c == 9) = true := by
    intro c hc
    rw [← hbl] at hc
    exact List.mem_takeWhile_imp (p := fun c : UInt8 => c == 32 || c == 9) hc
  have hrest : rest = blanks ++ 68 :: (NONBLANK rest).tail := by
    conv_lhs => rw [← List.takeWhile_append_dropWhile (p := fun c => c == 32 || c == 9) (l := rest)]
    rw [hbl]
    exact congrArg (blanks ++ ·) hblank
  refine ⟨deltaMark ++ blanks, (NONBLANK rest).tail, ?_, ?_, fun type htype dt₁ => ?_⟩
  · intro hmem
    rcases List.mem_append.mp hmem with hmem | hmem
    · exact absurd hmem (by decide)
    · exact absurd (hblanks 68 hmem) (by decide)
  · rw [List.append_assoc, ← hrest]
  · have hnon : NONBLANK (blanks ++ type :: (NONBLANK rest).tail) =
        type :: (NONBLANK rest).tail := by
      unfold NONBLANK
      rw [List.dropWhile_append_of_pos hblanks, List.dropWhile_cons_of_neg (by simpa using htype)]
    rw [List.append_assoc, hmark, hnon]
    rfl

theorem del_fields_type (b : Line) (dt : Deltab) (type : UInt8) :
    del_fields zone b { dt with d_type := type } =
      (del_fields zone b dt).map fun dt => { dt with d_type := type } := by
  unfold del_fields
  dsimp only
  generalize date_ab zone (NONBLANK (sid_ab (NONBLANK b)).2) = r
  by_cases h1 : 32 ∉ NONBLANK r.2
  · rw [if_pos h1, if_pos h1, Option.map_none]
  · rw [if_neg h1, if_neg h1]
    split_ifs
    · rfl
    · rfl

theorem del_ab_markType {p : Line} {dt : Deltab}
    (h : ∀ dt₀, del_ab zone p dt₀ = some (BDELTAB, dt)) (hlive : dt.d_type = 68) (dt₀ : Deltab) :
    del_ab zone (markType REMOVED p) dt₀ = some (BDELTAB, { dt with d_type := REMOVED }) := by
  obtain ⟨a, b, ha, hp, hdel⟩ := del_ab_live (h dt₀) hlive
  have h68 := hdel 68 (by decide) dt₀
  rw [← hp, h dt₀] at h68
  obtain ⟨dt', hdt', heq⟩ := Option.map_eq_some_iff.mp h68.symm
  obtain rfl : dt' = dt := (Prod.mk.inj heq).2
  have htype := @del_fields_type zone b { dt₀ with d_type := 68 } REMOVED
  rw [hdt', Option.map_some] at htype
  rw [markType_eq ha hp, hdel REMOVED (by decide), htype]
  rfl

/-- A delta after it has been removed. -/
def TableEntry.removed (e : TableEntry zone) (h : e.Live) : TableEntry zone where
  stats := e.stats
  first := markType REMOVED e.first
  dt := { e.dt with d_type := REMOVED }
  lines := e.lines
  last := e.last
  isStats := e.isStats
  isFirst := del_ab_markType e.isFirst h
  isLine := e.isLine
  isLast := e.isLast

/-- The table after the delta that is looked for has been removed. -/
def removeFrom : Option Sid → List (TableEntry zone) → List (TableEntry zone)
  | _, [] => []
  | sid, e :: es =>
    (if h : e.IsSought sid then e.removed h.1 else e) :: removeFrom (e.sidAfter sid) es

theorem tableOut_eq (sid : Option Sid) (es : List (TableEntry zone)) :
    tableOut REMOVED sid es = (removeFrom sid es).flatMap TableEntry.text := by
  induction es generalizing sid with
  | nil => rfl
  | cons e es ih =>
    rw [tableOut, removeFrom, List.flatMap_cons, ih]
    by_cases h : e.IsSought sid
    · rw [dif_pos h, TableEntry.mark, if_pos h]
      rfl
    · rw [dif_neg h, TableEntry.mark, if_neg h]
      rfl

theorem removeFrom_serial (sid : Option Sid) (es : List (TableEntry zone)) :
    (removeFrom sid es).map (·.dt.d_serial) = es.map (·.dt.d_serial) := by
  induction es generalizing sid with
  | nil => rfl
  | cons e es ih =>
    rw [removeFrom, List.map_cons, List.map_cons, ih]
    split_ifs
    · rfl
    · rfl

theorem not_live_removed (e : TableEntry zone) (h : e.Live) : ¬ (e.removed h).Live := by
  show ¬ REMOVED = 68
  decide

theorem mem_removeFrom {sid : Option Sid} {es : List (TableEntry zone)} {e' : TableEntry zone}
    (h : e' ∈ removeFrom sid es) : ∃ e ∈ es, e'.dt.d_serial = e.dt.d_serial ∧ (e'.Live → e' = e) := by
  induction es generalizing sid with
  | nil => exact absurd h List.not_mem_nil
  | cons e es ih =>
    rw [removeFrom] at h
    rcases List.mem_cons.mp h with rfl | h
    · refine ⟨e, List.mem_cons_self, ?_⟩
      split_ifs with hs
      · exact ⟨rfl, fun hlive => absurd hlive (not_live_removed e hs.1)⟩
      · exact ⟨rfl, fun _ => rfl⟩
    · obtain ⟨d, hd, hrest⟩ := ih h
      exact ⟨d, List.mem_cons_of_mem e hd, hrest⟩

theorem mem_liveAt {n : ℕ} {es : List (TableEntry zone)} {e : TableEntry zone}
    (h : liveAt n es = some e) : e ∈ es ∧ e.Live ∧ e.dt.d_serial = n := by
  have hp := List.find?_some h
  exact ⟨List.mem_of_find?_eq_some h, by simpa using hp⟩

def unsought (sid : Option Sid) (e : TableEntry zone) : Bool := sid ≠ some e.dt.d_sid

theorem unsought_of_ne {sid : Option Sid} {e : TableEntry zone} (h : sid ≠ some e.dt.d_sid) :
    unsought sid e = true := decide_eq_true h

/-- The deltas that are left in the table. -/
theorem liveAt_removeFrom {es : List (TableEntry zone)} :
    ∀ {sid : Option Sid}, es.Pairwise (fun e e' => e'.dt.d_serial < e.dt.d_serial) →
    (∀ e ∈ es, e.Live → 0 < e.dt.d_sid.s_rel) →
    (∀ e ∈ es, ∀ e' ∈ es, e.Live → e'.Live → e.dt.d_sid = e'.dt.d_sid →
      e.dt.d_serial = e'.dt.d_serial) → ∀ n,
    liveAt n (removeFrom sid es) = (liveAt n es).filter (unsought sid) := by
  induction es with
  | nil => exact fun _ _ _ _ => rfl
  | cons e es ih =>
    intro sid hdesc hrel hinj n
    obtain ⟨he, hdesc⟩ := List.pairwise_cons.mp hdesc
    obtain ⟨hrel₀, hrel⟩ := List.forall_mem_cons.mp hrel
    have hinj' : ∀ e ∈ es, ∀ e' ∈ es, e.Live → e'.Live → e.dt.d_sid = e'.dt.d_sid →
        e.dt.d_serial = e'.dt.d_serial := fun d hd d' hd' =>
      hinj d (List.mem_cons_of_mem e hd) d' (List.mem_cons_of_mem e hd')
    by_cases hs : e.IsSought sid
    · have hafter : e.sidAfter sid = some ⟨0, 0, 0, 0⟩ := if_pos hs
      have hskip : liveAt n (removeFrom sid (e :: es)) = liveAt n (removeFrom (e.sidAfter sid) es) := by
        rw [removeFrom, dif_pos hs]
        exact List.find?_cons_of_neg (by simp [not_live_removed e hs.1])
      rw [hskip, ih hdesc hrel hinj' n, hafter]
      -- no delta has the SID that comes after
      have hall : (liveAt n es).filter (unsought (some ⟨0, 0, 0, 0⟩)) = liveAt n es := by
        cases hfind : liveAt n es with
        | none => rfl
        | some d =>
          obtain ⟨hd, hlive, -⟩ := mem_liveAt hfind
          have hpos := hrel d hd hlive
          refine Option.filter_some_pos (unsought_of_ne fun h => ?_)
          rw [← Option.some.inj h] at hpos
          exact absurd hpos (by decide)
      rw [hall]
      by_cases hn : e.dt.d_serial = n
      · have hhead : liveAt n (e :: es) = some e := List.find?_cons_of_pos (by simp [hs.1, hn])
        have hnone : liveAt n es = none := by
          cases hfind : liveAt n es with
          | none => rfl
          | some d =>
            obtain ⟨hd, -, hser⟩ := mem_liveAt hfind
            have := he d hd
            omega
        rw [hhead, hnone, Option.filter_some_neg (by simp [unsought, hs.2])]
      · have hhead : liveAt n (e :: es) = liveAt n es := List.find?_cons_of_neg (by simp [hn])
        rw [hhead]
        cases hfind : liveAt n es with
        | none => rfl
        | some d =>
          obtain ⟨hd, hlive, hser⟩ := mem_liveAt hfind
          refine (Option.filter_some_pos (unsought_of_ne fun h => hn ?_)).symm
          rw [hs.2] at h
          exact (hinj e List.mem_cons_self d (List.mem_cons_of_mem e hd) hs.1 hlive
            (Option.some.inj h)).trans hser
    · have hafter : e.sidAfter sid = sid := if_neg hs
      rw [removeFrom, dif_neg hs, hafter]
      by_cases hn : e.Live ∧ e.dt.d_serial = n
      · have hhead : ∀ es' : List (TableEntry zone), liveAt n (e :: es') = some e := fun es' =>
          List.find?_cons_of_pos (by simpa using hn)
        rw [hhead, hhead]
        exact (Option.filter_some_pos (unsought_of_ne fun h => hs ⟨hn.1, h⟩)).symm
      · have hhead : ∀ es' : List (TableEntry zone), liveAt n (e :: es') = liveAt n es' := fun es' =>
          List.find?_cons_of_neg (by simpa using hn)
        rw [hhead, hhead, ih hdesc hrel hinj' n]

/-! ### The body -/

/-- The lines of the body that are written, from a place where `keep` says whether texts are. -/
def keptLines (s : ℕ) : Bool → List Line → List Line
  | _, [] => []
  | keep, l :: ls =>
    if chr l = CTLCHAR then
      if (satoi (NONBLANK l.tail.tail)).1 = s then keptLines s (chr l.tail ≠ INS) ls
      else l :: keptLines s keep ls
    else if keep then l :: keptLines s keep ls
    else keptLines s keep ls

theorem keptLines_sublist (s : ℕ) (keep : Bool) (ls : List Line) :
    (keptLines s keep ls).Sublist ls := by
  induction ls generalizing keep with
  | nil => exact .slnil
  | cons l ls ih =>
    rw [keptLines]
    split_ifs
    · exact (ih _).cons l
    · exact (ih _).cons_cons l
    · exact (ih _).cons_cons l
    · exact (ih _).cons l

theorem item_start {maxser : ℕ} {l : Line} (hl : chr l = CTLCHAR) {ins : Bool} {ser : ℕ}
    (h : item maxser l = some (.start ins ser)) :
    (satoi (NONBLANK l.tail.tail)).1 = ser ∧ decide (chr l.tail ≠ INS) = !ins := by
  rw [item, if_neg (not_not.mpr hl)] at h
  dsimp only at h
  split_ifs at h with h1 h2 h3
  · cases h
  · cases h
    refine ⟨rfl, ?_⟩
    by_cases hi : chr l.tail = INS
    · simp [hi]
    · simp [hi]

theorem item_stop {maxser : ℕ} {l : Line} (hl : chr l = CTLCHAR) {ser : ℕ}
    (h : item maxser l = some (.stop ser)) :
    (satoi (NONBLANK l.tail.tail)).1 = ser ∧ decide (chr l.tail ≠ INS) = true := by
  rw [item, if_neg (not_not.mpr hl)] at h
  dsimp only at h
  split_ifs at h with h1 h2 h3
  · cases h
    exact ⟨rfl, by rw [h2]; decide⟩
  · cases h

/-- What is written is the weave without the change. -/
theorem keptLines_items {maxser s : ℕ} {body : List Line} :
    ∀ {is : List (Item Line)} (keep : Bool), body.mapM (item maxser) = some is →
      (keptLines s keep body).mapM (item maxser) = some (remove s keep is) := by
  induction body with
  | nil =>
    intro is keep h
    cases h
    rfl
  | cons l body ih =>
    intro is keep h
    rw [List.mapM_cons] at h
    obtain ⟨i, hi, h⟩ := Option.bind_eq_some_iff.mp h
    obtain ⟨is, his, h⟩ := Option.bind_eq_some_iff.mp h
    cases h
    have hcons : ∀ keep, (l :: keptLines s keep body).mapM (item maxser) =
        some (i :: remove s keep is) := fun keep => by
      rw [List.mapM_cons, hi, ih keep his]
      rfl
    rw [keptLines]
    by_cases hctl : chr l = CTLCHAR
    · rw [if_pos hctl]
      cases i with
      | text a => exact absurd hi (item_control hctl a)
      | start ins ser =>
        obtain ⟨hser, hins⟩ := item_start hctl hi
        rw [hser, remove]
        split_ifs with hs
        · rw [hins]
          exact ih _ his
        · exact hcons keep
      | stop ser =>
        obtain ⟨hser, hend⟩ := item_stop hctl hi
        rw [hser, remove]
        split_ifs with hs
        · rw [hend]
          exact ih _ his
        · exact hcons keep
    · rw [if_neg hctl]
      obtain rfl : i = .text l := (Option.some.inj ((item_text hctl).symm.trans hi)).symm
      cases keep with
      | true => exact hcons true
      | false =>
        show (keptLines s false body).mapM (item maxser) = some (remove s false is)
        exact ih false his

/-! ### The deltas that a version is made of -/

theorem condset_keep {ap : Apply} (h : ap.a_code ≠ SX_EMPTY) (code reason : ℕ) :
    (condset code reason ap).a_code = ap.a_code := by
  unfold condset
  split_ifs
  · rfl
  · rfl

theorem condset_inline (code reason : ℕ) (ap : Apply) :
    (condset code reason ap).a_inline = ap.a_inline := by
  unfold condset
  split_ifs
  · rfl
  · rfl
  · rfl

/-- What has been decided of a delta stays so. -/
def Decided (ap ap' : ℕ → Apply) : Prop :=
  ∀ n, (ap n).a_code ≠ SX_EMPTY → (ap' n).a_code = (ap n).a_code

theorem Decided.trans {ap ap' ap'' : ℕ → Apply} (h : Decided ap ap') (h' : Decided ap' ap'') :
    Decided ap ap'' := fun n hn => by
  have hcode := h n hn
  rw [h' n (by rwa [hcode]), hcode]

theorem decided_condset (ap : ℕ → Apply) (ser code reason : ℕ) :
    Decided ap (Function.update ap ser (condset code reason (ap ser))) := by
  intro n hn
  by_cases hser : n = ser
  · rw [hser, Function.update_self]
    exact condset_keep (hser ▸ hn) code reason
  · rw [Function.update_of_ne hser]

theorem foldl_condset_keep (code reason : ℕ) (sers : List ℕ) : ∀ ap : ℕ → Apply,
    Decided ap (sers.foldl (fun ap n => Function.update ap n (condset code reason (ap n))) ap) ∧
      ∀ n, ((sers.foldl (fun ap n => Function.update ap n (condset code reason (ap n))) ap) n).a_inline
        = (ap n).a_inline := by
  induction sers with
  | nil => exact fun _ => ⟨fun _ _ => rfl, fun _ => rfl⟩
  | cons ser sers ih =>
    intro ap
    obtain ⟨hcode, hin⟩ := ih (Function.update ap ser (condset code reason (ap ser)))
    refine ⟨(decided_condset ap ser code reason).trans hcode, fun n => (hin n).trans ?_⟩
    by_cases hser : n = ser
    · rw [hser, Function.update_self, condset_inline]
    · rw [Function.update_of_ne hser]

theorem ixgsetup_keep (ixg : List Ixg) : ∀ {ap ap' : ℕ → Apply}, ixgsetup ap ixg = some ap' →
    Decided ap ap' ∧ ∀ n, (ap' n).a_inline = (ap n).a_inline := by
  induction ixg with
  | nil =>
    intro ap ap' h
    cases h
    exact ⟨fun _ _ => rfl, fun _ => rfl⟩
  | cons l ixg ih =>
    intro ap ap' h
    obtain ⟨type, cnt, sers⟩ := l
    rw [ixgsetup] at h
    by_cases hcnt : cnt < 0 ∨ (sers.length : ℤ) < cnt
    · rw [if_pos hcnt] at h
      cases h
    · rw [if_neg hcnt] at h
      obtain ⟨hcode, hin⟩ := ih h
      obtain ⟨hcode', hin'⟩ := foldl_condset_keep (if type = INCLUDE then APPLY else NOAPPLY)
        (if type = INCLUDE then INCL else EXCL) (sers.take cnt.toNat) ap
      exact ⟨hcode'.trans hcode, fun n => (hin n).trans (hin' n)⟩

theorem decided_keep (idel : ℕ → Idel) (cutoff : ℤ) (ser : ℕ) (ap : ℕ → Apply) :
    Decided ap (decided idel cutoff ser ap) ∧ ∀ m, m ≠ (idel ser).i_pred →
      (decided idel cutoff ser ap m).a_inline = (ap m).a_inline := by
  have hpred : Decided ap (Function.update ap (idel ser).i_pred
      { ap (idel ser).i_pred with a_inline := true }) := by
    intro n _
    by_cases hn : n = (idel ser).i_pred
    · rw [hn, Function.update_self]
    · rw [Function.update_of_ne hn]
  have hinline : ∀ (ap : ℕ → Apply) code reason m,
      (Function.update ap ser (condset code reason (ap ser)) m).a_inline = (ap m).a_inline := by
    intro ap code reason m
    by_cases hm : m = ser
    · rw [hm, Function.update_self, condset_inline]
    · rw [Function.update_of_ne hm]
  unfold decided
  dsimp only
  split_ifs
  · refine ⟨hpred.trans (decided_condset _ _ _ _), fun m hm => (hinline _ _ _ m).trans ?_⟩
    rw [Function.update_of_ne hm]
  · refine ⟨hpred.trans (decided_condset _ _ _ _), fun m hm => (hinline _ _ _ m).trans ?_⟩
    rw [Function.update_of_ne hm]
  · exact ⟨decided_condset _ _ _ _, fun m _ => hinline _ _ _ m⟩

/-- The tables need only be the same up to the serial that `setup` has come to. -/
theorem setupFrom_congr {idel idel' : ℕ → Idel} (cutoff : ℤ) {n : ℕ} :
    ∀ {ap : ℕ → Apply}, (∀ k, 1 ≤ k → k ≤ n → idel' k = idel k) →
    setupFrom idel' cutoff n ap = setupFrom idel cutoff n ap := by
  induction n with
  | zero => exact fun _ => rfl
  | succ n ih =>
    intro ap h
    have hn := h (n + 1) (by omega) le_rfl
    have hrest : setupFrom idel' cutoff n = setupFrom idel cutoff n :=
      funext fun ap => ih fun k h1 hk => h k h1 (by omega)
    rw [setupFrom, setupFrom, hn, hrest]

/-- A step of `setup` that does not fail. -/
theorem setupFrom_step {idel : ℕ → Idel} {cutoff : ℤ} {n : ℕ} {ap end' : ℕ → Apply}
    (h : setupFrom idel cutoff (n + 1) ap = some end') :
    ¬ ((ap (n + 1)).a_inline = true ∧ n + 1 ≠ 1 ∧ (idel (n + 1)).i_pred = 0) ∧
      ∃ ap', (if (decided idel cutoff (n + 1) ap (n + 1)).a_code = APPLY then
        ixgsetup (decided idel cutoff (n + 1) ap) (idel (n + 1)).i_ixg
        else some (decided idel cutoff (n + 1) ap)) = some ap' ∧
          setupFrom idel cutoff n ap' = some end' := by
  by_cases hstop : (ap (n + 1)).a_inline = true ∧ n + 1 ≠ 1 ∧ (idel (n + 1)).i_pred = 0
  · rw [setupFrom] at h
    dsimp only at h
    rw [if_pos hstop] at h
    cases h
  · refine ⟨hstop, ?_⟩
    rw [setupFrom_succ cutoff n hstop] at h
    split_ifs at h ⊢
    · exact Option.bind_eq_some_iff.mp h
    · exact ⟨_, rfl, h⟩

theorem setupFrom_keep {idel : ℕ → Idel} {cutoff : ℤ} {n : ℕ} : ∀ {ap ap' : ℕ → Apply},
    setupFrom idel cutoff n ap = some ap' → Decided ap ap' := by
  induction n with
  | zero =>
    intro ap ap' h
    cases h
    exact fun _ _ => rfl
  | succ n ih =>
    intro ap ap' h
    obtain ⟨-, t, ht, hrest⟩ := setupFrom_step h
    refine (decided_keep idel cutoff (n + 1) ap).1.trans (Decided.trans ?_ (ih hrest))
    split_ifs at ht
    · exact (ixgsetup_keep _ ht).1
    · cases ht
      exact fun _ _ => rfl

/-- A delta that is neither in the chain of predecessors nor applied does not matter. -/
theorem setupFrom_without {idel idel' : ℕ → Idel} {s : ℕ} (hs : 0 < s)
    (hsame : ∀ n, n ≠ s → idel' n = idel n) (cutoff : ℤ) {end' : ℕ → Apply}
    (hend : (end' s).a_code ≠ APPLY) {n : ℕ} : ∀ {ap : ℕ → Apply},
    (∀ k, 1 ≤ k → k ≤ n → (idel k).i_pred ≠ s) → (ap s).a_inline = false →
    setupFrom idel cutoff n ap = some end' → setupFrom idel' cutoff n ap = some end' := by
  induction n with
  | zero => exact fun _ _ h => h
  | succ n ih =>
    intro ap hleaf hin h
    obtain ⟨hstop, t, ht, hrest⟩ := setupFrom_step h
    by_cases hn : n + 1 = s
    · subst hn
      have hstop' : ¬ ((ap (n + 1)).a_inline = true ∧ n + 1 ≠ 1 ∧ (idel' (n + 1)).i_pred = 0) :=
        fun h => by rw [hin] at h; exact absurd h.1 (by decide)
      have hdecided : decided idel' cutoff (n + 1) ap = decided idel cutoff (n + 1) ap := by
        unfold decided
        rw [if_neg (by simp [hin]), if_neg (by simp [hin])]
      -- if it were applied here, it would be in the end
      have hnot : (decided idel cutoff (n + 1) ap (n + 1)).a_code ≠ APPLY := by
        intro happly
        have hne : (decided idel cutoff (n + 1) ap (n + 1)).a_code ≠ SX_EMPTY := by
          rw [happly]
          decide
        rw [if_pos happly] at ht
        have hkeep := ((ixgsetup_keep _ ht).1.trans (setupFrom_keep hrest)) (n + 1) hne
        exact hend (hkeep.trans happly)
      rw [if_neg hnot] at ht
      cases ht
      rw [setupFrom_succ cutoff n hstop', hdecided, if_neg hnot]
      rw [setupFrom_congr cutoff fun k _ hk => hsame k (by omega)]
      exact hrest
    · have hidel := hsame (n + 1) hn
      have hpred := hleaf (n + 1) (by omega) le_rfl
      have hdecided : decided idel' cutoff (n + 1) ap = decided idel cutoff (n + 1) ap := by
        unfold decided
        rw [hidel]
      have hin' : (t s).a_inline = false := by
        have hkeep := (decided_keep idel cutoff (n + 1) ap).2 s hpred.symm
        split_ifs at ht
        · rw [(ixgsetup_keep _ ht).2 s, hkeep, hin]
        · cases ht
          rw [hkeep, hin]
      have hrest' := ih (fun k h1 hk => hleaf k h1 (by omega)) hin' hrest
      rw [setupFrom_succ cutoff n (by rwa [hidel]), hdecided, hidel]
      split_ifs at ht ⊢ with happly
      · rw [ht, Option.bind_some]
        exact hrest'
      · cases ht
        exact hrest'

/-! ### The s-file -/

/-- The s-file after a delta has been removed. -/
def Sfile.removed (S : Sfile zone) (sid : Sid) (s : ℕ) (hash : ℕ) (h : hash < 65536) :
    Sfile zone where
  hash := hash
  deltas := removeFrom (some sid) S.deltas
  bUsers := S.bUsers
  users := S.users
  eUsers := S.eUsers
  flags := S.flags
  bText := S.bText
  comments := S.comments
  eText := S.eText
  body := keptLines s true S.body
  hash_lt := h
  deltas_ne_nil := by
    intro hnil
    have hser := removeFrom_serial (some sid) S.deltas
    rw [hnil, List.map_nil] at hser
    exact S.deltas_ne_nil (List.map_eq_nil_iff.mp hser.symm)
  descending := by
    have hdesc : (S.deltas.map (·.dt.d_serial)).Pairwise (fun a b => b < a) :=
      List.pairwise_map.mpr S.descending
    rw [← removeFrom_serial (some sid) S.deltas] at hdesc
    exact List.pairwise_map.mp hdesc
  serial_pos := by
    intro e' he'
    obtain ⟨e, he, hser, -⟩ := mem_removeFrom he'
    rw [hser]
    exact S.serial_pos e he
  pred_lt := by
    intro e' he' hlive
    obtain ⟨e, he, -, heq⟩ := mem_removeFrom he'
    obtain rfl := heq hlive
    exact S.pred_lt e' he hlive
  rel_pos := by
    intro e' he' hlive
    obtain ⟨e, he, -, heq⟩ := mem_removeFrom he'
    obtain rfl := heq hlive
    exact S.rel_pos e' he hlive
  sid_inj := by
    intro d' hd' e' he' hd hlive
    obtain ⟨d, hd₀, -, heqd⟩ := mem_removeFrom hd'
    obtain ⟨e, he₀, -, heqe⟩ := mem_removeFrom he'
    obtain rfl := heqd hd
    obtain rfl := heqe hlive
    exact S.sid_inj d' hd₀ e' he₀ hd hlive
  isBUsers := S.isBUsers
  isUser := S.isUser
  isEUsers := S.isEUsers
  isFlag := S.isFlag
  isBText := S.isBText
  isComment := S.isComment
  isEText := S.isEText

variable {S : Sfile zone} {sid : Sid} {s hash : ℕ} {h : hash < 65536}

theorem Sfile.last_eq (S : Sfile zone) : some S.last = (S.deltas.map (·.dt.d_serial)).head? := by
  rw [List.head?_map, List.head?_eq_some_head S.deltas_ne_nil]
  rfl

theorem last_removed : (S.removed sid s hash h).last = S.last := by
  have hlast := (S.removed sid s hash h).last_eq
  change _ = ((removeFrom (some sid) S.deltas).map (·.dt.d_serial)).head? at hlast
  rw [removeFrom_serial, ← S.last_eq] at hlast
  exact Option.some.inj hlast

theorem Sfile.maxser_eq (S : Sfile zone) : S.maxser = S.last := by
  have hnone : liveAt 0 S.deltas = none := by
    cases hfind : liveAt 0 S.deltas with
    | none => rfl
    | some e =>
      obtain ⟨he, -, hser⟩ := mem_liveAt hfind
      have := S.serial_pos e he
      omega
  rw [Sfile.maxser, S.idel_eq, Option.map_some, Option.getD_some, overlay, hnone]
  rfl

theorem maxser_removed : (S.removed sid s hash h).maxser = S.maxser := by
  rw [Sfile.maxser_eq, Sfile.maxser_eq, last_removed]

/-- The delta with a SID, and its serial number. -/
def Sfile.Has (S : Sfile zone) (sid : Sid) (s : ℕ) : Prop :=
  ∃ e, liveAt s S.deltas = some e ∧ e.dt.d_sid = sid

theorem Sfile.Has.pos (hS : S.Has sid s) : 0 < s := by
  obtain ⟨e, hfind, -⟩ := hS
  obtain ⟨he, -, rfl⟩ := mem_liveAt hfind
  exact S.serial_pos e he

/-- No other delta has the SID. -/
theorem Sfile.Has.unique (hS : S.Has sid s) {n : ℕ} {d : TableEntry zone}
    (hd : liveAt n S.deltas = some d) (hsid : d.dt.d_sid = sid) : n = s := by
  obtain ⟨e, hfind, he⟩ := hS
  obtain ⟨hmem, hlive, rfl⟩ := mem_liveAt hfind
  obtain ⟨hdmem, hdlive, rfl⟩ := mem_liveAt hd
  exact S.sid_inj d hdmem e hmem hdlive hlive (hsid.trans he.symm)

/-- The table of an s-file. -/
def Sfile.table (S : Sfile zone) : ℕ → Idel := overlay S.deltas (newIdel S.last)

theorem table_removed (hS : S.Has sid s) {n : ℕ} (hn : n ≠ s) :
    (S.removed sid s hash h).table n = S.table n := by
  have hfind : liveAt n (removeFrom (some sid) S.deltas) =
      (liveAt n S.deltas).filter (unsought (some sid)) :=
    liveAt_removeFrom S.descending S.rel_pos S.sid_inj n
  have hsame : liveAt n (removeFrom (some sid) S.deltas) = liveAt n S.deltas := by
    rw [hfind]
    cases hd : liveAt n S.deltas with
    | none => rfl
    | some d =>
      refine Option.filter_some_pos (unsought_of_ne fun heq => hn ?_)
      exact hS.unique hd (Option.some.inj heq).symm
  unfold Sfile.table overlay
  rw [last_removed]
  have hremoved : liveAt n (S.removed sid s hash h).deltas = liveAt n S.deltas := hsame
  rw [hremoved]

/-- No delta comes after `s`. -/
def Sfile.Leaf (S : Sfile zone) (s : ℕ) : Prop :=
  ∀ n, s < n → n ≤ S.maxser → (S.table n).i_pred ≠ s

theorem Sfile.Leaf.pred_ne (hleaf : S.Leaf s) (hs : 0 < s) {n : ℕ} (h1 : 1 ≤ n)
    (hn : n ≤ S.maxser) : (S.table n).i_pred ≠ s := by
  by_cases hlt : s < n
  · exact hleaf n hlt hn
  · unfold Sfile.table overlay
    cases hfind : liveAt n S.deltas with
    | none =>
      have hzero : (newIdel S.last n).i_pred = 0 := if_neg (by omega)
      dsimp only
      omega
    | some e =>
      obtain ⟨he, hlive, hser⟩ := mem_liveAt hfind
      have hpred := S.pred_lt e he hlive
      show e.dt.d_pred ≠ s
      omega

theorem apply_removed (hS : S.Has sid s) (hleaf : S.Leaf s) {cutoff : ℤ} {ser : ℕ}
    (hser : ser ≠ s) {ap : ℕ → Apply} (hap : S.apply cutoff ser = some ap)
    (hnot : applied ap s = false) : (S.removed sid s hash h).apply cutoff ser = some ap := by
  unfold Sfile.apply at hap ⊢
  rw [Sfile.idel_eq, Option.getD_some] at hap ⊢
  rw [maxser_removed]
  have hcode : (ap s).a_code ≠ APPLY := by simpa [applied] using hnot
  refine setupFrom_without hS.pos (fun n hn => table_removed hS hn) cutoff hcode
    (fun k h1 hk => hleaf.pred_ne hS.pos h1 hk) ?_ hap
  rw [Function.update_of_ne hser.symm]
  rfl

/-- The version shows no line in a block that `s` inserted. -/
def Sfile.Outside (S : Sfile zone) (s : ℕ) (ap : ℕ → Bool) : Prop :=
  ∀ is rs, S.items = some is → texts [] is = some rs → ∀ r ∈ rs, visible ap r.1 = true →
    (s, true) ∉ r.1

/-- A version without the delta is the same afterwards just if it shows nothing inside of it. -/
theorem get_removed (hS : S.Has sid s) (hleaf : S.Leaf s) {cutoff : ℤ} {ser : ℕ} (hser : ser ≠ s)
    {ap : ℕ → Apply} (hap : S.apply cutoff ser = some ap) (hnot : applied ap s = false)
    {lines : List Line} (hget : S.get cutoff ser = some lines) :
    (S.removed sid s hash h).get cutoff ser = some lines ↔ S.Outside s (applied ap) := by
  unfold Sfile.get at hget ⊢
  rw [maxser_removed]
  split_ifs at hget ⊢ with hmax
  rw [hap] at hget
  rw [apply_removed hS hleaf hser hap hnot]
  cases hitems : S.items with
  | none =>
    rw [hitems] at hget
    cases hget
  | some is =>
    rw [hitems] at hget
    have hversion : version (applied ap) is = some lines := hget
    obtain ⟨rs, htexts, rfl⟩ := Option.map_eq_some_iff.mp hversion
    have hitems' : (S.removed sid s hash h).items = some (remove s true is) := by
      unfold Sfile.items
      rw [maxser_removed]
      exact keptLines_items true hitems
    rw [hitems']
    change version (applied ap) (remove s true is) = some (shown (applied ap) rs) ↔ _
    rw [version_remove hnot htexts, Option.some_inj, shown_outside_iff]
    constructor
    · intro hall is' rs' his' hrs'
      obtain rfl := Option.some.inj (hitems.symm.trans his')
      obtain rfl := Option.some.inj (htexts.symm.trans hrs')
      exact hall
    · exact fun hall => hall is rs hitems htexts

end Unitas.Sccs
