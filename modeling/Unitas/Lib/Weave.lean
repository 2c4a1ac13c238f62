import Mathlib.Data.List.Basic
import Mathlib.Logic.Function.Basic

/-! The texts of many versions in one list. Every change has a number, and brackets what it inserted
and what it deleted in blocks; the blocks of different changes may overlap. -/
namespace Unitas.Weave

inductive Item (α : Type)
  | text (a : α)
  | start (ins : Bool) (ser : ℕ)
  | stop (ser : ℕ)

/-- The open blocks, the highest number first. -/
abbrev Blocks := List (ℕ × Bool)

variable {α : Type}

def enter (ser : ℕ) (ins : Bool) : Blocks → Option Blocks
  | [] => some [(ser, ins)]
  | b :: bs =>
    if b.1 = ser then none
    else if b.1 < ser then some ((ser, ins) :: b :: bs)
    else (enter ser ins bs).map (b :: ·)

def leave (ser : ℕ) : Blocks → Option Blocks
  | [] => none
  | b :: bs => if b.1 = ser then some bs else (leave ser bs).map (b :: ·)

/-- The highest block that says something about its texts decides. -/
def visible (applied : ℕ → Bool) : Blocks → Bool
  | [] => false
  | b :: bs => if b.2 then applied b.1 else if applied b.1 then false else visible applied bs

/-- The texts, each with the blocks that it is in. -/
def texts : Blocks → List (Item α) → Option (List (Blocks × α))
  | bs, [] => if bs = [] then some [] else none
  | bs, .text a :: is => (texts bs is).map ((bs, a) :: ·)
  | bs, .start ins ser :: is => (enter ser ins bs).bind fun bs => texts bs is
  | bs, .stop ser :: is => (leave ser bs).bind fun bs => texts bs is

/-- What is seen of some texts. -/
def shown (applied : ℕ → Bool) (rs : List (Blocks × α)) : List α :=
  (rs.filter fun r => visible applied r.1).map Prod.snd

def version (applied : ℕ → Bool) (is : List (Item α)) : Option (List α) :=
  (texts [] is).map (shown applied)

def Sorted (bs : Blocks) : Prop := bs.Pairwise fun a b => b.1 < a.1

theorem mem_enter {ser : ℕ} {ins : Bool} {bs bs' : Blocks} (h : enter ser ins bs = some bs')
    {b : ℕ × Bool} : b ∈ bs' ↔ b = (ser, ins) ∨ b ∈ bs := by
  induction bs generalizing bs' with
  | nil =>
    cases h
    simp
  | cons c bs ih =>
    rw [enter] at h
    split_ifs at h
    · cases h
      exact List.mem_cons
    · obtain ⟨t, ht, rfl⟩ := Option.map_eq_some_iff.mp h
      rw [List.mem_cons, ih ht, List.mem_cons, or_left_comm]

theorem Sorted.enter {ser : ℕ} {ins : Bool} {bs bs' : Blocks} (hbs : Sorted bs)
    (h : enter ser ins bs = some bs') : Sorted bs' := by
  induction bs generalizing bs' with
  | nil =>
    cases h
    exact List.pairwise_singleton _ _
  | cons c bs ih =>
    obtain ⟨hc, hbs'⟩ := List.pairwise_cons.mp hbs
    rw [Weave.enter] at h
    split_ifs at h with h1 h2
    · cases h
      refine List.pairwise_cons.mpr ⟨fun b hb => ?_, hbs⟩
      rcases List.mem_cons.mp hb with rfl | hb
      · exact h2
      · exact Nat.lt_trans (hc b hb) h2
    · obtain ⟨t, ht, rfl⟩ := Option.map_eq_some_iff.mp h
      refine List.pairwise_cons.mpr ⟨fun b hb => ?_, ih hbs' ht⟩
      rcases (mem_enter ht).mp hb with rfl | hb
      · exact Nat.lt_of_le_of_ne (Nat.le_of_not_lt h2) fun h => h1 h.symm
      · exact hc b hb

theorem leave_sublist {ser : ℕ} {bs bs' : Blocks} (h : leave ser bs = some bs') :
    bs'.Sublist bs := by
  induction bs generalizing bs' with
  | nil => cases h
  | cons c bs ih =>
    rw [leave] at h
    split_ifs at h
    · cases h
      exact List.sublist_cons_self c bs
    · obtain ⟨t, ht, rfl⟩ := Option.map_eq_some_iff.mp h
      exact (ih ht).cons_cons c

theorem Sorted.leave {ser : ℕ} {bs bs' : Blocks} (hbs : Sorted bs)
    (h : leave ser bs = some bs') : Sorted bs' := List.Pairwise.sublist (leave_sublist h) hbs

/-- The blocks without those of one change. -/
def without (s : ℕ) (bs : Blocks) : Blocks := bs.filter fun b => b.1 ≠ s

theorem without_eq_self {s : ℕ} {bs : Blocks} (h : ∀ b ∈ bs, b.1 ≠ s) : without s bs = bs :=
  List.filter_eq_self.mpr fun b hb => decide_eq_true (h b hb)

theorem without_cons_self {s : ℕ} {b : ℕ × Bool} (h : b.1 = s) (bs : Blocks) :
    without s (b :: bs) = without s bs := List.filter_cons_of_neg (by simpa using h)

theorem without_cons_of_ne {s : ℕ} {b : ℕ × Bool} (h : b.1 ≠ s) (bs : Blocks) :
    without s (b :: bs) = b :: without s bs := List.filter_cons_of_pos (by simpa using h)

/-- A block is put before all the blocks with lower numbers. -/
theorem enter_of_lt {ser : ℕ} {ins : Bool} {bs : Blocks} (h : ∀ b ∈ bs, b.1 < ser) :
    enter ser ins bs = some ((ser, ins) :: bs) := by
  cases bs with
  | nil => rfl
  | cons b bs =>
    have hb := h b List.mem_cons_self
    rw [enter, if_neg (Nat.ne_of_lt hb), if_pos hb]

theorem enter_without {s ser : ℕ} {ins : Bool} {bs bs' : Blocks} (hbs : Sorted bs) (hs : ser ≠ s)
    (h : enter ser ins bs = some bs') : enter ser ins (without s bs) = some (without s bs') := by
  induction bs generalizing bs' with
  | nil =>
    cases h
    rw [without_cons_of_ne hs]
    rfl
  | cons c bs ih =>
    obtain ⟨hc, hbs'⟩ := List.pairwise_cons.mp hbs
    rw [enter] at h
    split_ifs at h with h1 h2
    · cases h
      have hlt : ∀ b ∈ without s (c :: bs), b.1 < ser := by
        intro b hb
        rcases List.mem_cons.mp (List.mem_of_mem_filter hb) with rfl | hb
        · exact h2
        · exact Nat.lt_trans (hc b hb) h2
      have hcons : without s ((ser, ins) :: c :: bs) = (ser, ins) :: without s (c :: bs) :=
        without_cons_of_ne hs _
      rw [enter_of_lt hlt, hcons]
    · obtain ⟨t, ht, rfl⟩ := Option.map_eq_some_iff.mp h
      have ih := ih hbs' ht
      by_cases hcs : c.1 = s
      · rw [without_cons_self hcs, without_cons_self hcs, ih]
      · rw [without_cons_of_ne hcs, without_cons_of_ne hcs, enter, if_neg h1, if_neg h2, ih]
        rfl

/-- A change has one block at a time. -/
theorem enter_fresh {ser : ℕ} {ins : Bool} {bs bs' : Blocks} (hbs : Sorted bs)
    (h : enter ser ins bs = some bs') : ∀ b ∈ bs, b.1 ≠ ser := by
  induction bs generalizing bs' with
  | nil => exact fun _ h => absurd h List.not_mem_nil
  | cons c bs ih =>
    obtain ⟨hc, hbs'⟩ := List.pairwise_cons.mp hbs
    rw [enter] at h
    split_ifs at h with h1 h2
    · refine List.forall_mem_cons.mpr ⟨h1, fun b hb => ?_⟩
      exact Nat.ne_of_lt (Nat.lt_trans (hc b hb) h2)
    · obtain ⟨t, ht, rfl⟩ := Option.map_eq_some_iff.mp h
      exact List.forall_mem_cons.mpr ⟨h1, ih hbs' ht⟩

theorem enter_self {s : ℕ} {ins : Bool} {bs bs' : Blocks} (h : enter s ins bs = some bs') :
    without s bs' = without s bs := by
  induction bs generalizing bs' with
  | nil =>
    cases h
    exact without_cons_self rfl []
  | cons c bs ih =>
    rw [enter] at h
    split_ifs at h with h1 h2
    · cases h
      exact without_cons_self rfl _
    · obtain ⟨t, ht, rfl⟩ := Option.map_eq_some_iff.mp h
      rw [without_cons_of_ne h1, without_cons_of_ne h1, ih ht]

theorem leave_without {s ser : ℕ} {bs bs' : Blocks} (hs : ser ≠ s) (h : leave ser bs = some bs') :
    leave ser (without s bs) = some (without s bs') := by
  induction bs generalizing bs' with
  | nil => cases h
  | cons c bs ih =>
    rw [leave] at h
    split_ifs at h with h1
    · cases h
      rw [without_cons_of_ne (h1 ▸ hs), leave, if_pos h1]
    · obtain ⟨t, ht, rfl⟩ := Option.map_eq_some_iff.mp h
      by_cases hcs : c.1 = s
      · rw [without_cons_self hcs, without_cons_self hcs, ih ht]
      · rw [without_cons_of_ne hcs, without_cons_of_ne hcs, leave, if_neg h1, ih ht]
        rfl

/-- A change that has left has no other block. -/
theorem leave_self {s : ℕ} {bs bs' : Blocks} (hbs : Sorted bs) (h : leave s bs = some bs') :
    bs' = without s bs := by
  induction bs generalizing bs' with
  | nil => cases h
  | cons c bs ih =>
    obtain ⟨hc, hbs'⟩ := List.pairwise_cons.mp hbs
    rw [leave] at h
    split_ifs at h with h1
    · cases h
      rw [without_cons_self h1, without_eq_self fun b hb => Nat.ne_of_lt (h1 ▸ hc b hb)]
    · obtain ⟨t, ht, rfl⟩ := Option.map_eq_some_iff.mp h
      rw [without_cons_of_ne h1, ih hbs' ht]

theorem mem_leave {ser : ℕ} {bs bs' : Blocks} (h : leave ser bs = some bs') {b : ℕ × Bool}
    (hb : b.1 ≠ ser) : b ∈ bs' ↔ b ∈ bs := by
  induction bs generalizing bs' with
  | nil => cases h
  | cons c bs ih =>
    rw [leave] at h
    split_ifs at h with h1
    · cases h
      rw [List.mem_cons, or_iff_right fun h : b = c => hb (h ▸ h1)]
    · obtain ⟨t, ht, rfl⟩ := Option.map_eq_some_iff.mp h
      rw [List.mem_cons, List.mem_cons, ih ht]

/-- What a change deleted does not matter where it is not applied. -/
theorem visible_without {applied : ℕ → Bool} {s : ℕ} (hs : applied s = false) {bs : Blocks}
    (h : (s, true) ∉ bs) : visible applied (without s bs) = visible applied bs := by
  induction bs with
  | nil => rfl
  | cons b bs ih =>
    rw [List.mem_cons, not_or] at h
    by_cases hb : b.1 = s
    · have hdel : b.2 = false := by
        cases hins : b.2 with
        | false => rfl
        | true => exact absurd (Prod.ext hb.symm hins.symm) h.1
      rw [without_cons_self hb, ih h.2]
      simp [visible, hdel, hb, hs]
    · rw [without_cons_of_ne hb, visible, visible, ih h.2]

/-- A change is removed: its brackets, and the texts after the ones that insert. -/
def remove (s : ℕ) : Bool → List (Item α) → List (Item α)
  | _, [] => []
  | keep, .text a :: is => if keep then .text a :: remove s keep is else remove s keep is
  | keep, .start ins ser :: is =>
    if ser = s then remove s (!ins) is else .start ins ser :: remove s keep is
  | keep, .stop ser :: is => if ser = s then remove s true is else .stop ser :: remove s keep is

/-- The texts that are not in a block that the change inserted. -/
def outside (s : ℕ) (rs : List (Blocks × α)) : List (Blocks × α) :=
  rs.filter fun r => (s, true) ∉ r.1

theorem outside_cons_of_not_mem {s : ℕ} {bs : Blocks} (h : (s, true) ∉ bs) (a : α)
    (rs : List (Blocks × α)) : outside s ((bs, a) :: rs) = (bs, a) :: outside s rs :=
  List.filter_cons_of_pos (by simpa using h)

theorem outside_cons_of_mem {s : ℕ} {bs : Blocks} (h : (s, true) ∈ bs) (a : α)
    (rs : List (Blocks × α)) : outside s ((bs, a) :: rs) = outside s rs :=
  List.filter_cons_of_neg (by simpa using h)

theorem texts_remove (s : ℕ) {is : List (Item α)} {bs : Blocks} (hbs : Sorted bs) {keep : Bool}
    (hkeep : keep = true ↔ (s, true) ∉ bs) {rs : List (Blocks × α)} (h : texts bs is = some rs) :
    texts (without s bs) (remove s keep is) =
      some ((outside s rs).map fun r => (without s r.1, r.2)) := by
  induction is generalizing bs keep rs with
  | nil =>
    rw [texts] at h
    split_ifs at h with hnil
    · cases h
      rw [hnil]
      rfl
  | cons i is ih =>
    cases i with
    | text a =>
      obtain ⟨t, ht, rfl⟩ := Option.map_eq_some_iff.mp h
      have ih := ih hbs hkeep ht
      rw [remove]
      split_ifs with hk
      · rw [texts, ih, outside_cons_of_not_mem (hkeep.mp hk)]
        rfl
      · rw [ih, outside_cons_of_mem (not_not.mp (mt hkeep.mpr hk))]
    | start ins ser =>
      obtain ⟨bs', hbs', h⟩ := Option.bind_eq_some_iff.mp h
      have hsorted := hbs.enter hbs'
      rw [remove]
      split_ifs with hser
      · subst hser
        have hnot : (ser, true) ∉ bs := fun hmem => enter_fresh hbs hbs' _ hmem rfl
        rw [← enter_self hbs']
        refine ih hsorted ?_ h
        rw [mem_enter hbs', or_iff_left hnot, Prod.mk.injEq, and_iff_right rfl]
        cases ins with
        | false => simp
        | true => simp
      · rw [texts, enter_without hbs hser hbs']
        refine ih hsorted (hkeep.trans (not_congr ?_)) h
        rw [mem_enter hbs', or_iff_right fun h => hser (congrArg Prod.fst h).symm]
    | stop ser =>
      obtain ⟨bs', hbs', h⟩ := Option.bind_eq_some_iff.mp h
      have hsorted := hbs.leave hbs'
      rw [remove]
      split_ifs with hser
      · subst hser
        have hself := leave_self hbs hbs'
        have htwice : without ser bs' = without ser bs := by
          rw [hself, without, without, List.filter_filter]
          simp
        rw [← htwice]
        refine ih hsorted (iff_of_true rfl fun hmem => ?_) h
        rw [hself] at hmem
        simpa using (List.mem_filter.mp hmem).2
      · rw [texts, leave_without hser hbs']
        refine ih hsorted (hkeep.trans (not_congr ?_)) h
        exact (mem_leave hbs' fun h => hser h.symm).symm

theorem shown_map_without {applied : ℕ → Bool} {s : ℕ} (hs : applied s = false)
    (rs : List (Blocks × α)) :
    shown applied ((outside s rs).map fun r => (without s r.1, r.2)) =
      shown applied (outside s rs) := by
  induction rs with
  | nil => rfl
  | cons r rs ih =>
    obtain ⟨bs, a⟩ := r
    by_cases hmem : (s, true) ∈ bs
    · rw [outside_cons_of_mem hmem, ih]
    · rw [outside_cons_of_not_mem hmem, List.map_cons, shown, shown, List.filter_cons,
        List.filter_cons, visible_without hs hmem]
      split_ifs
      · exact congrArg (a :: ·) ih
      · exact ih

/-- A version that the change is not in. -/
theorem version_remove {applied : ℕ → Bool} {s : ℕ} (hs : applied s = false) {is : List (Item α)}
    {rs : List (Blocks × α)} (h : texts [] is = some rs) :
    version applied (remove s true is) = some (shown applied (outside s rs)) := by
  have hnot : (s, true) ∉ ([] : Blocks) := List.not_mem_nil
  have htexts := texts_remove s List.Pairwise.nil (iff_of_true rfl hnot) h
  have hnil : without s [] = [] := rfl
  rw [hnil] at htexts
  rw [version, htexts, Option.map_some, shown_map_without hs]

/-- Nothing is lost where the version shows nothing inside of the change. -/
theorem shown_outside_iff {applied : ℕ → Bool} {s : ℕ} (rs : List (Blocks × α)) :
    shown applied (outside s rs) = shown applied rs ↔
      ∀ r ∈ rs, visible applied r.1 = true → (s, true) ∉ r.1 := by
  have hcomm : (outside s rs).filter (fun r => visible applied r.1) =
      (rs.filter fun r => visible applied r.1).filter fun r => (s, true) ∉ r.1 := by
    rw [outside, List.filter_filter, List.filter_filter]
    simp only [Bool.and_comm]
  rw [shown, shown, hcomm]
  constructor
  · intro h r hr hvis
    have hlen := congrArg List.length h
    rw [List.length_map, List.length_map, List.length_filter_eq_length_iff] at hlen
    simpa using hlen r (List.mem_filter.mpr ⟨hr, hvis⟩)
  · intro h
    rw [List.filter_eq_self.mpr fun r hr => ?_]
    obtain ⟨hr, hvis⟩ := List.mem_filter.mp hr
    exact decide_eq_true (h r hr hvis)

/-! ### A new change -/

/-- The blocks after some items, and the texts among them. -/
def walk : Blocks → List (Item α) → Option (Blocks × List (Blocks × α))
  | bs, [] => some (bs, [])
  | bs, .text a :: is => (walk bs is).map fun r => (r.1, (bs, a) :: r.2)
  | bs, .start ins ser :: is => (enter ser ins bs).bind fun bs => walk bs is
  | bs, .stop ser :: is => (leave ser bs).bind fun bs => walk bs is

theorem walk_append {is : List (Item α)} : ∀ {bs bs' bs'' : Blocks} {js : List (Item α)}
    {rs rs' : List (Blocks × α)}, walk bs is = some (bs', rs) → walk bs' js = some (bs'', rs') →
      walk bs (is ++ js) = some (bs'', rs ++ rs') := by
  induction is with
  | nil =>
    rintro bs bs' bs'' js rs rs' h h'
    cases h
    exact h'
  | cons i is ih =>
    intro bs bs' bs'' js rs rs' h h'
    cases i with
    | text a =>
      obtain ⟨r, hr, heq⟩ := Option.map_eq_some_iff.mp h
      obtain ⟨rfl, rfl⟩ := Prod.mk.inj heq
      rw [List.cons_append, walk, ih hr h']
      rfl
    | start ins ser =>
      obtain ⟨t, ht, hr⟩ := Option.bind_eq_some_iff.mp h
      rw [List.cons_append, walk, ht]
      exact ih hr h'
    | stop ser =>
      obtain ⟨t, ht, hr⟩ := Option.bind_eq_some_iff.mp h
      rw [List.cons_append, walk, ht]
      exact ih hr h'

/-- All blocks are left at the end. -/
theorem texts_of_walk {is : List (Item α)} : ∀ {bs : Blocks} {rs : List (Blocks × α)},
    walk bs is = some ([], rs) → texts bs is = some rs := by
  induction is with
  | nil =>
    rintro bs rs h
    cases h
    rfl
  | cons i is ih =>
    intro bs rs h
    cases i with
    | text a =>
      obtain ⟨r, hr, heq⟩ := Option.map_eq_some_iff.mp h
      obtain ⟨hnil, rfl⟩ := Prod.mk.inj heq
      rw [texts, ih (hr.trans (congrArg (fun bs => some (bs, r.2)) hnil))]
      rfl
    | start ins ser =>
      obtain ⟨t, ht, hr⟩ := Option.bind_eq_some_iff.mp h
      rw [texts, ht]
      exact ih hr
    | stop ser =>
      obtain ⟨t, ht, hr⟩ := Option.bind_eq_some_iff.mp h
      rw [texts, ht]
      exact ih hr

/-- A block that is left has been entered. -/
theorem mem_of_leave {ser : ℕ} {bs bs' : Blocks} (h : leave ser bs = some bs') :
    ∃ b ∈ bs, b.1 = ser := by
  induction bs generalizing bs' with
  | nil => cases h
  | cons c bs ih =>
    rw [leave] at h
    split_ifs at h with hc
    · exact ⟨c, List.mem_cons_self, hc⟩
    · obtain ⟨t, ht, rfl⟩ := Option.map_eq_some_iff.mp h
      obtain ⟨b, hb, hser⟩ := ih ht
      exact ⟨b, List.mem_cons_of_mem c hb, hser⟩

theorem walk_texts (bs : Blocks) (as : List α) :
    walk bs (as.map Item.text) = some (bs, as.map fun a => (bs, a)) := by
  induction as with
  | nil => rfl
  | cons a as ih =>
    rw [List.map_cons, walk, ih]
    rfl

variable {applied : ℕ → Bool}

theorem shown_append (rs rs' : List (Blocks × α)) :
    shown applied (rs ++ rs') = shown applied rs ++ shown applied rs' := by
  rw [shown, List.filter_append, List.map_append]
  rfl

theorem shown_singleton (bs : Blocks) (a : α) :
    shown applied [(bs, a)] = if visible applied bs then [a] else [] := by
  rw [shown, List.filter_cons]
  split_ifs
  · rfl
  · rfl

/-- Texts that are all in the same blocks. -/
theorem shown_same (bs : Blocks) (as : List α) :
    shown applied (as.map fun a => (bs, a)) = if visible applied bs then as else [] := by
  induction as with
  | nil => exact (ite_self _).symm
  | cons a as ih =>
    have hcons : (a :: as).map (fun a => (bs, a)) = [(bs, a)] ++ as.map fun a => (bs, a) := rfl
    rw [hcons, shown_append, shown_singleton, ih]
    split_ifs
    · rfl
    · rfl

/-- Only the changes of the blocks count. -/
theorem visible_congr {applied' : ℕ → Bool} {bs : Blocks}
    (h : ∀ b ∈ bs, applied b.1 = applied' b.1) : visible applied bs = visible applied' bs := by
  induction bs with
  | nil => rfl
  | cons b bs ih =>
    obtain ⟨hb, hbs⟩ := List.forall_mem_cons.mp h
    rw [visible, visible, hb, ih hbs]

/-- The items `js` are made of `is` by a change `s` that is higher than all. The version `applied`
shows `old` of them, and `new` with the change, which deletes at the moment if `del` says so. The
other versions stay, and only depend on the lower changes. -/
structure Woven (applied : ℕ → Bool) (s : ℕ) (del : Bool) (is js : List (Item α)) (bs : Blocks)
    (old new : List α) : Prop where
  lt : ∀ b ∈ bs, b.1 < s
  texts : ∃ rs rs', walk [] is = some (bs, rs) ∧
    walk [] js = some (if del then (s, false) :: bs else bs, rs') ∧ shown applied rs = old ∧
      shown (Function.update applied s true) rs' = new ∧ ∀ applied' applied'',
        applied' s = false → (∀ n < s, applied' n = applied'' n) →
          shown applied' rs' = shown applied'' rs

variable {s ser : ℕ} {del ins : Bool} {is js : List (Item α)} {bs bs' : Blocks} {old new : List α}

theorem woven_nil : Woven applied s false ([] : List (Item α)) [] [] [] [] :=
  ⟨fun _ h => absurd h List.not_mem_nil, [], [], rfl, rfl, rfl, rfl, fun _ _ _ _ => rfl⟩

theorem Woven.visible_update (h : Woven applied s del is js bs old new) :
    visible (Function.update applied s true) bs = visible applied bs :=
  visible_congr fun b hb => Function.update_of_ne (Nat.ne_of_lt (h.lt b hb)) ..

theorem Woven.text (h : Woven applied s del is js bs old new) (a : α) :
    Woven applied s del (is ++ [.text a]) (js ++ [.text a]) bs
      (old ++ if visible applied bs then [a] else [])
      (new ++ if visible applied bs ∧ del = false then [a] else []) := by
  obtain ⟨rs, rs', his, hjs, hold, hnew, hother⟩ := h.texts
  refine ⟨h.lt, rs ++ [(bs, a)], _, walk_append his rfl, walk_append hjs rfl, ?_, ?_,
    fun ap' ap'' hs hlow => ?_⟩
  · rw [shown_append, shown_singleton, hold]
  · rw [shown_append, shown_singleton, hnew]
    cases del with
    | false => simp [h.visible_update]
    | true => simp [visible]
  · have hvis : visible ap' bs = visible ap'' bs :=
      visible_congr fun b hb => hlow b.1 (h.lt b hb)
    rw [shown_append, shown_append, shown_singleton, shown_singleton, hother ap' ap'' hs hlow]
    cases del with
    | false => simp [hvis]
    | true => simp [visible, hs, hvis]

theorem Woven.start (h : Woven applied s del is js bs old new) (hser : ser < s)
    (henter : enter ser ins bs = some bs') :
    Woven applied s del (is ++ [.start ins ser]) (js ++ [.start ins ser]) bs' old new := by
  obtain ⟨rs, rs', his, hjs, hold, hnew, hother⟩ := h.texts
  have hwalk : ∀ {bs bs' : Blocks}, enter ser ins bs = some bs' →
      walk bs ([.start ins ser] : List (Item α)) = some (bs', []) := by
    intro bs bs' h
    rw [walk, h]
    rfl
  have henter' : enter ser ins (if del then (s, false) :: bs else bs) =
      some (if del then (s, false) :: bs' else bs') := by
    cases del with
    | false => exact henter
    | true =>
      simp only [if_true]
      rw [enter, if_neg (Nat.ne_of_gt hser), if_neg (Nat.lt_asymm hser), henter]
      rfl
  refine ⟨fun b hb => ?_, rs, rs', ?_, ?_, hold, hnew, hother⟩
  · rcases (mem_enter henter).mp hb with rfl | hb
    · exact hser
    · exact h.lt b hb
  · rw [walk_append his (hwalk henter), List.append_nil]
  · rw [walk_append hjs (hwalk henter'), List.append_nil]

theorem Woven.stop (h : Woven applied s del is js bs old new) (hleave : leave ser bs = some bs') :
    Woven applied s del (is ++ [.stop ser]) (js ++ [.stop ser]) bs' old new := by
  obtain ⟨rs, rs', his, hjs, hold, hnew, hother⟩ := h.texts
  have hwalk : ∀ {bs bs' : Blocks}, leave ser bs = some bs' →
      walk bs ([.stop ser] : List (Item α)) = some (bs', []) := by
    intro bs bs' h
    rw [walk, h]
    rfl
  have hser : s ≠ ser := by
    rintro rfl
    obtain ⟨b, hb, hbs⟩ := mem_of_leave hleave
    exact Nat.ne_of_lt (h.lt b hb) hbs
  have hleave' : leave ser (if del then (s, false) :: bs else bs) =
      some (if del then (s, false) :: bs' else bs') := by
    cases del with
    | false => exact hleave
    | true =>
      simp only [if_true]
      rw [leave, if_neg hser, hleave]
      rfl
  refine ⟨fun b hb => h.lt b ((leave_sublist hleave).subset hb), rs, rs', ?_, ?_, hold, hnew,
    hother⟩
  · rw [walk_append his (hwalk hleave), List.append_nil]
  · rw [walk_append hjs (hwalk hleave'), List.append_nil]

/-- The change begins to delete. -/
theorem Woven.delete (h : Woven applied s false is js bs old new) :
    Woven applied s true is (js ++ [.start false s]) bs old new := by
  obtain ⟨rs, rs', his, hjs, hold, hnew, hother⟩ := h.texts
  refine ⟨h.lt, rs, rs', his, ?_, hold, hnew, hother⟩
  have hwalk : walk bs ([.start false s] : List (Item α)) = some ((s, false) :: bs, []) := by
    rw [walk, enter_of_lt h.lt]
    rfl
  exact (walk_append hjs hwalk).trans (by rw [List.append_nil]; rfl)

theorem Woven.deleted (h : Woven applied s true is js bs old new) :
    Woven applied s false is (js ++ [.stop s]) bs old new := by
  obtain ⟨rs, rs', his, hjs, hold, hnew, hother⟩ := h.texts
  refine ⟨h.lt, rs, rs', his, ?_, hold, hnew, hother⟩
  have hwalk : walk ((s, false) :: bs) ([.stop s] : List (Item α)) = some (bs, []) := by
    rw [walk, leave, if_pos rfl]
    rfl
  exact (walk_append hjs hwalk).trans (by rw [List.append_nil]; rfl)

/-- The change inserts some texts. -/
theorem Woven.insert (h : Woven applied s false is js bs old new) (as : List α) :
    Woven applied s false is (js ++ (.start true s :: (as.map Item.text ++ [.stop s]))) bs old
      (new ++ as) := by
  obtain ⟨rs, rs', his, hjs, hold, hnew, hother⟩ := h.texts
  have hstop : walk ((s, true) :: bs) ([.stop s] : List (Item α)) = some (bs, []) := by
    rw [walk, leave, if_pos rfl]
    rfl
  have hwalk : walk bs (.start true s :: (as.map Item.text ++ [.stop s])) =
      some (bs, as.map fun a => ((s, true) :: bs, a)) := by
    rw [walk, enter_of_lt h.lt, Option.bind_some, walk_append (walk_texts _ as) hstop,
      List.append_nil]
  refine ⟨h.lt, rs, _, his, walk_append hjs hwalk, hold, ?_, fun ap' ap'' hs hlow => ?_⟩
  · rw [shown_append, shown_same, hnew]
    simp [visible]
  · rw [shown_append, shown_same, hother ap' ap'' hs hlow]
    simp [visible, hs]

/-- The versions of the whole weave. -/
theorem Woven.version (h : Woven applied s false is js [] old new) :
    version applied is = some old ∧ version (Function.update applied s true) js = some new ∧
      ∀ applied' applied'', applied' s = false → (∀ n < s, applied' n = applied'' n) →
        version applied' js = version applied'' is := by
  obtain ⟨rs, rs', his, hjs, hold, hnew, hother⟩ := h.texts
  have hjs : walk [] js = some ([], rs') := hjs
  simp only [Weave.version, texts_of_walk his, texts_of_walk hjs, Option.map_some]
  exact ⟨congrArg some hold, congrArg some hnew, fun ap' ap'' hs hlow =>
    congrArg some (hother ap' ap'' hs hlow)⟩

end Unitas.Weave
