import Mathlib.Algebra.BigOperators.Fin
import Mathlib.Data.Multiset.Basic
import Unitas.Bnu.Slots
import Unitas.Lib.Transition

/-! Every receive buffer is in one place, and every packet that is being sent is counted. -/
namespace Unitas.Bnu.Slots
open Unitas.Transition

variable {pk pk' : Pack} {x y : Fin 8} {a b c : BitVec 8}

/-! ### Flags -/

theorem or_and_eq (a b c : BitVec 8) : (a ||| b) &&& c = (a &&& c) ||| (b &&& c) := by
  ext i hi
  simp [Bool.and_or_distrib_right]

theorem or_and_ne_zero (h : a &&& c ≠ 0) : (a ||| b) &&& c ≠ 0 := by
  intro hzero
  rw [or_and_eq] at hzero
  exact h (BitVec.or_eq_zero_iff.mp hzero).1

theorem ne_zero_of_and (h : a &&& c ≠ 0) : a ≠ 0 := by
  rintro rfl
  exact h BitVec.zero_and

theorem or_ne_zero (h : a ≠ 0) : a ||| b ≠ 0 := fun hzero => h (BitVec.or_eq_zero_iff.mp hzero).1

/-! ### Sums over the slots -/

theorem sum_update {M : Type} [AddCommMonoid M] (f : Fin 8 → M) (x : Fin 8) (v : M) :
    ∑ y, Function.update f x v y + f x = v + ∑ y, f y := by
  rw [Finset.sum_update_of_mem (Finset.mem_univ x), add_assoc, Finset.sdiff_singleton_eq_erase,
    Finset.sum_erase_add _ _ (Finset.mem_univ x)]

/-- The buffer of a slot that is not empty. -/
def slot (is : Fin 8 → BitVec 8) (ib : Fin 8 → Buf) (x : Fin 8) : Multiset Buf :=
  if is x = 0 then 0 else {ib x}

def Pack.buffers (pk : Pack) : Multiset Buf := pk.ipool + ∑ x, slot pk.is pk.ib x

def used (os : Fin 8 → BitVec 8) (x : Fin 8) : ℕ := if os x = 0 then 0 else 1

/-- The number of slots with packets to be sent. -/
def Pack.waiting (pk : Pack) : ℕ := ∑ x, used pk.os x

theorem used_update (os : Fin 8 → BitVec 8) (x : Fin 8) (v : BitVec 8) :
    used (Function.update os x v) = Function.update (used os) x (if v = 0 then 0 else 1) := by
  funext y
  by_cases hy : y = x
  · subst hy
    simp only [used, Function.update_self]
  · simp only [used, Function.update_of_ne hy]

theorem slot_update (is : Fin 8 → BitVec 8) (ib : Fin 8 → Buf) (x : Fin 8) (v : BitVec 8) :
    slot (Function.update is x v) ib =
      Function.update (slot is ib) x (if v = 0 then 0 else {ib x}) := by
  funext y
  by_cases hy : y = x
  · subst hy
    simp only [slot, Function.update_self]
  · simp only [slot, Function.update_of_ne hy]

theorem slot_update_both (is : Fin 8 → BitVec 8) (ib : Fin 8 → Buf) (x : Fin 8) (v : BitVec 8)
    (bp : Buf) : slot (Function.update is x v) (Function.update ib x bp) =
      Function.update (slot is ib) x (if v = 0 then 0 else {bp}) := by
  funext y
  by_cases hy : y = x
  · subst hy
    simp only [slot, Function.update_self]
  · simp only [slot, Function.update_of_ne hy]

theorem slot_of_zero {is : Fin 8 → BitVec 8} {ib : Fin 8 → Buf} (h : is x = 0) :
    slot is ib x = 0 := if_pos h

theorem slot_of_ne {is : Fin 8 → BitVec 8} {ib : Fin 8 → Buf} (h : is x ≠ 0) :
    slot is ib x = {ib x} := if_neg h

/-- A slot whose flags change, but that stays in use. -/
theorem slot_mark {is : Fin 8 → BitVec 8} {v : BitVec 8} (h : is x ≠ 0) (hv : v ≠ 0)
    (ib : Fin 8 → Buf) : slot (Function.update is x v) ib = slot is ib := by
  rw [slot_update, if_neg hv, ← slot_of_ne h, Function.update_eq_self]

theorem Pack.free_buffers (pk : Pack) (h : pk.is x ≠ 0) : (pk.free x).buffers = pk.buffers := by
  have hsum := sum_update (slot pk.is pk.ib) x 0
  rw [slot_of_ne h, zero_add] at hsum
  unfold Pack.buffers Pack.free
  dsimp only
  rw [slot_update, if_pos rfl, ← hsum, ← Multiset.cons_coe, ← Multiset.singleton_add]
  exact (add_assoc ..).trans (add_comm ..) |>.trans (add_assoc ..)

/-! ### Invariant -/

/-- The packet in a slot has been accepted, and its number is in the window. -/
def Pack.Accepted (pk : Pack) (x : Fin 8) : Prop :=
  pk.is x &&& (B_COPY ||| B_MARK) ≠ 0 ∧ window pk.rwindow pk.pr x = true

/-- What is to hold of the buffers and of the count. -/
structure Pack.Kept (bufs : List Buf) (pk : Pack) : Prop where
  buffers : pk.buffers = bufs
  slots : ∀ x, pk.is x ≠ 0 → pk.imap x = true ∨ pk.Accepted x
  xcount : pk.xcount = pk.waiting
  xcount_le : pk.xcount ≤ pk.swindow

structure Inv (bufs : List Buf) (pk : Pack) : Prop extends pk.Kept bufs where
  imap : ∀ x, pk.imap x = true → pk.is x ≠ 0
  rwindow : pk.rwindow = bufs.length
  writing : pk.writing = true → pk.xcount < pk.swindow

/-- What concerns sending only is as it was. -/
structure SameOut (pk pk' : Pack) : Prop where
  os : pk'.os = pk.os
  xcount : pk'.xcount = pk.xcount
  swindow : pk'.swindow = pk.swindow
  writing : pk'.writing = pk.writing

theorem SameOut.refl (pk : Pack) : SameOut pk pk := ⟨rfl, rfl, rfl, rfl⟩

theorem SameOut.trans {pk'' : Pack} (h : SameOut pk pk') (h' : SameOut pk' pk'') :
    SameOut pk pk'' :=
  ⟨h'.os.trans h.os, h'.xcount.trans h.xcount, h'.swindow.trans h.swindow,
    h'.writing.trans h.writing⟩

/-- What concerns receiving only is as it was. -/
structure SameIn (pk pk' : Pack) : Prop where
  ipool : pk'.ipool = pk.ipool
  ib : pk'.ib = pk.ib
  is : pk'.is = pk.is
  imap : pk'.imap = pk.imap
  pr : pk'.pr = pk.pr
  rwindow : pk'.rwindow = pk.rwindow

theorem SameIn.refl (pk : Pack) : SameIn pk pk := ⟨rfl, rfl, rfl, rfl, rfl, rfl⟩

theorem SameIn.trans {pk'' : Pack} (h : SameIn pk pk') (h' : SameIn pk' pk'') : SameIn pk pk'' :=
  ⟨h'.ipool.trans h.ipool, h'.ib.trans h.ib, h'.is.trans h.is, h'.imap.trans h.imap,
    h'.pr.trans h.pr, h'.rwindow.trans h.rwindow⟩

/-- The receiver's half of the invariant. -/
structure InvIn (bufs : List Buf) (pk : Pack) : Prop where
  buffers : pk.buffers = bufs
  slots : ∀ x, pk.is x ≠ 0 → pk.imap x = true ∨ pk.Accepted x
  imap : ∀ x, pk.imap x = true → pk.is x ≠ 0
  rwindow : pk.rwindow = bufs.length

/-- The sender's half. -/
structure InvOut (pk : Pack) : Prop where
  xcount : pk.xcount = pk.waiting
  xcount_le : pk.xcount ≤ pk.swindow
  writing : pk.writing = true → pk.xcount < pk.swindow

theorem Inv.of_both {bufs : List Buf} (hin : InvIn bufs pk) (hout : InvOut pk) : Inv bufs pk :=
  ⟨⟨hin.buffers, hin.slots, hout.xcount, hout.xcount_le⟩, hin.imap, hin.rwindow, hout.writing⟩

theorem Inv.receiver {bufs : List Buf} (h : Inv bufs pk) : InvIn bufs pk :=
  ⟨h.buffers, h.slots, h.imap, h.rwindow⟩

theorem Inv.sender {bufs : List Buf} (h : Inv bufs pk) : InvOut pk :=
  ⟨h.xcount, h.xcount_le, h.writing⟩

theorem InvIn.congr {bufs : List Buf} (h : InvIn bufs pk) (hs : SameIn pk pk') :
    InvIn bufs pk' := by
  obtain ⟨hipool, hib, his, himap, hpr, hrwindow⟩ := hs
  constructor
  · unfold Pack.buffers
    rw [hipool, hib, his]
    exact h.buffers
  · unfold Pack.Accepted
    rw [his, himap, hpr, hrwindow]
    exact h.slots
  · rw [his, himap]
    exact h.imap
  · rw [hrwindow]
    exact h.rwindow

theorem InvOut.congr (h : InvOut pk) (hs : SameOut pk pk') : InvOut pk' := by
  obtain ⟨hos, hxcount, hswindow, hwriting⟩ := hs
  constructor
  · unfold Pack.waiting
    rw [hos, hxcount]
    exact h.xcount
  · rw [hxcount, hswindow]
    exact h.xcount_le
  · rw [hxcount, hswindow, hwriting]
    exact h.writing

/-! ### Acknowledgements -/

theorem sackFrom_spec (n : ℕ) (x : Fin 8) (h : InvOut pk) :
    SameIn pk (sackFrom n x pk) ∧ InvOut (sackFrom n x pk) ∧
      (sackFrom n x pk).xcount ≤ pk.xcount ∧ (sackFrom n x pk).swindow = pk.swindow ∧
      (sackFrom n x pk).writing = pk.writing := by
  induction n generalizing x pk with
  | zero => exact ⟨.refl _, h, le_rfl, rfl, rfl⟩
  | succ n ih =>
    rw [sackFrom]
    dsimp only
    split_ifs with hx hsent
    · exact ⟨.refl _, h, le_rfl, rfl, rfl⟩
    · have hsum := sum_update (used pk.os) (next x) 0
      have hused : used pk.os (next x) = 1 := if_neg (ne_zero_of_and hsent)
      have hxcount := h.xcount
      unfold Pack.waiting at hxcount
      have hacked : InvOut { pk with
          os := Function.update pk.os (next x) 0, xcount := pk.xcount - 1, ps := next x } := by
        constructor
        · change pk.xcount - 1 = ∑ y, used (Function.update pk.os (next x) 0) y
          rw [used_update, if_pos rfl]
          omega
        · exact (Nat.sub_le ..).trans h.xcount_le
        · intro hw
          exact (Nat.sub_le ..).trans_lt (h.writing hw)
      obtain ⟨hin, hout, hle, hswindow, hwriting⟩ := ih (next x) hacked
      exact ⟨⟨hin.ipool, hin.ib, hin.is, hin.imap, hin.pr, hin.rwindow⟩, hout,
        hle.trans (Nat.sub_le ..), hswindow, hwriting⟩
    · exact ih _ h

theorem pksack_spec (h : InvOut pk) : SameIn pk (pksack pk) ∧ InvOut (pksack pk) :=
  ⟨(sackFrom_spec 8 _ h).1, (sackFrom_spec 8 _ h).2.1⟩

/-! ### Arrivals -/

variable {bufs : List Buf} {bp : Buf} {ipool : List Buf} {frame : Frame}

theorem InvIn.pkdata (h : InvIn bufs pk) (hpool : pk.ipool = bp :: ipool)
    (hc : (∃ x ∈ places pk.pr, pk.is x = 0) → c ≠ 0) :
    InvIn bufs (Slots.pkdata c frame bp { pk with ipool }) := by
  have hbuffers := h.buffers
  unfold Pack.buffers at hbuffers
  rw [hpool, ← Multiset.cons_coe] at hbuffers
  unfold Slots.pkdata
  dsimp only
  split
  · rename_i x hfind
    have hfound := List.find?_some hfind
    have hzero : pk.is x = 0 := of_decide_eq_true hfound
    have hne := hc ⟨x, List.mem_of_find?_eq_some hfind, hzero⟩
    constructor
    · have hsum := sum_update (slot pk.is pk.ib) x {bp}
      rw [slot_of_zero hzero, add_zero] at hsum
      unfold Pack.buffers
      dsimp only
      rw [slot_update_both, if_neg hne, hsum, ← hbuffers, ← Multiset.singleton_add bp]
      exact (add_left_comm ..).trans (add_assoc ..).symm
    · intro y hy
      by_cases hyx : y = x
      · exact .inl (hyx ▸ Function.update_self ..)
      · unfold Pack.Accepted
        dsimp only at hy ⊢
        rw [Function.update_of_ne hyx] at hy ⊢
        rw [Function.update_of_ne hyx]
        exact h.slots y hy
    · intro y hy
      dsimp only at hy ⊢
      by_cases hyx : y = x
      · rwa [hyx, Function.update_self]
      · rw [Function.update_of_ne hyx] at hy ⊢
        exact h.imap y hy
    · exact h.rwindow
  · exact h.congr ⟨hpool.symm, rfl, rfl, rfl, rfl, rfl⟩

theorem pkdata_sameOut : SameOut pk (Slots.pkdata c frame bp pk) := by
  unfold Slots.pkdata
  split
  · exact ⟨rfl, rfl, rfl, rfl⟩
  · exact ⟨rfl, rfl, rfl, rfl⟩

/-- A packet that does no harm: a window that has room for what is being sent, and data that come
in time, with a control byte that is not zero. -/
def Packet.Harmless (pk : Pack) : Packet → Prop
  | .init val => val ≠ 0 → pk.xcount + pk.writing.toNat ≤ val
  | .data fits c read => fits = true → pk.ipool ≠ [] →
      read ≠ none ∧ ((∃ x ∈ places pk.pr, pk.is x = 0) → c ≠ 0)
  | _ => True

theorem Inv.pkgetpack (h : Inv bufs pk) {p : Packet} (hp : p.Harmless pk) :
    Inv bufs (Slots.pkgetpack pk p) := by
  have hin := h.receiver
  have hout := h.sender
  cases p with
  | timeout =>
    exact .of_both (hin.congr ⟨rfl, rfl, rfl, rfl, rfl, rfl⟩) (hout.congr ⟨rfl, rfl, rfl, rfl⟩)
  | init val =>
    rw [Slots.pkgetpack]
    split_ifs with hval
    · have hroom := hp hval
      refine .of_both (hin.congr ⟨rfl, rfl, rfl, rfl, rfl, rfl⟩) ⟨hout.xcount, ?_, ?_⟩
      · change pk.xcount ≤ (val : ℕ)
        omega
      · intro hw
        change pk.writing = true at hw
        change pk.xcount < (val : ℕ)
        rw [hw, Bool.toNat_true] at hroom
        omega
    · exact h
  | initb => exact h
  | rj val =>
    have hrpr : InvOut { pk with rxmit := true, rpr := val } := hout.congr ⟨rfl, rfl, rfl, rfl⟩
    obtain ⟨hsame, hout'⟩ := pksack_spec hrpr
    have hsame' : SameIn pk { pk with rxmit := true, rpr := val } := ⟨rfl, rfl, rfl, rfl, rfl, rfl⟩
    exact .of_both (hin.congr (hsame'.trans hsame)) hout'
  | rr val =>
    have hrpr : InvOut { pk with rpr := val } := hout.congr ⟨rfl, rfl, rfl, rfl⟩
    obtain ⟨hsame, hout'⟩ := pksack_spec hrpr
    have hsame' : SameIn pk { pk with rpr := val } := ⟨rfl, rfl, rfl, rfl, rfl, rfl⟩
    exact .of_both (hin.congr (hsame'.trans hsame)) hout'
  | close =>
    exact .of_both (hin.congr ⟨rfl, rfl, rfl, rfl, rfl, rfl⟩) (hout.congr ⟨rfl, rfl, rfl, rfl⟩)
  | data fits c read =>
    rw [Slots.pkgetpack]
    by_cases hfits : fits = true
    swap
    · rw [if_pos hfits]
      exact h
    rw [if_neg (not_not.mpr hfits)]
    have hrpr : InvOut { pk with rpr := valOf c } := hout.congr ⟨rfl, rfl, rfl, rfl⟩
    obtain ⟨hsame, hout'⟩ := pksack_spec hrpr
    have hsame' : SameIn pk { pk with rpr := valOf c } :=
      ⟨rfl, rfl, rfl, rfl, rfl, rfl⟩
    have hsame := hsame'.trans hsame
    have hin' := hin.congr hsame
    generalize pksack { pk with rpr := valOf c } = acked at hsame hin' hout' ⊢
    dsimp only
    split
    · exact .of_both hin' hout'
    · rename_i bp ipool hpool
      obtain ⟨hread, hc⟩ := hp hfits (by rw [← hsame.ipool, hpool]; exact nofun)
      rw [← hsame.pr, ← hsame.is] at hc
      cases read with
      | none => exact (hread rfl).elim
      | some frame =>
        have htaken : InvOut { acked with ipool } := hout'.congr ⟨rfl, rfl, rfl, rfl⟩
        exact .of_both (hin'.pkdata hpool hc) (htaken.congr pkdata_sameOut)

/-! ### Accepting -/

/-- No packet is to go into a slot where one is waiting to be examined, whose flags are those of
an empty slot. -/
def Pack.Clear (pk : Pack) : Prop :=
  ∀ x, pk.imap x = true → pk.is x &&& 128 ≠ 0 → (pk.frame (pk.ib x)).good = true →
    let seq := seqOf (pk.is x)
    window pk.rwindow pk.pr seq = true → x < seq → pk.imap seq = true →
      pk.is seq &&& (B_COPY ||| B_MARK) ≠ 0

/-- The state of the first loop, with the slots `rest` to come. -/
structure Examined (bufs : List Buf) (s : Pack) (rest : List (Fin 8)) (pk : Pack) : Prop where
  buffers : pk.buffers = bufs
  pending : ∀ y ∈ rest, s.imap y = true → pk.is y = s.is y ∧ pk.ib y = s.ib y
  done : ∀ y, ¬ (y ∈ rest ∧ s.imap y = true) → pk.is y = 0 ∨ pk.Accepted y
  imap : ∀ y, pk.imap y = false
  frame : pk.frame = s.frame
  pr : pk.pr = s.pr
  rwindow : pk.rwindow = s.rwindow
  out : SameOut s pk

theorem free_mark (pk : Pack) (x : Fin 8) (v : BitVec 8) :
    Pack.free { pk with is := Function.update pk.is x v } x = pk.free x := by
  unfold Pack.free
  rw [Function.update_idem]

variable {s : Pack} {rest : List (Fin 8)}

theorem Examined.free (h : Examined bufs s (x :: rest) pk) (hx : x ∉ rest) (hne : pk.is x ≠ 0) :
    Examined bufs s rest (pk.free x) := by
  constructor
  · rw [Pack.free_buffers pk hne]
    exact h.buffers
  · intro y hy hmask
    have hyx : y ≠ x := fun heq => hx (heq ▸ hy)
    unfold Pack.free
    dsimp only
    rw [Function.update_of_ne hyx]
    exact h.pending y (List.mem_cons_of_mem _ hy) hmask
  · intro y hy
    unfold Pack.free Pack.Accepted
    dsimp only
    by_cases hyx : y = x
    · exact .inl (hyx ▸ Function.update_self ..)
    · rw [Function.update_of_ne hyx]
      refine h.done y fun hmem => hy ⟨?_, hmem.2⟩
      exact (List.mem_cons.mp hmem.1).resolve_left hyx
  · exact h.imap
  · exact h.frame
  · exact h.pr
  · exact h.rwindow
  · exact h.out.trans ⟨rfl, rfl, rfl, rfl⟩

/-- The packet of `x` is put into its slot `seq`. -/
theorem Examined.put (h : Examined bufs s (x :: rest) pk) (hx : x ∉ rest) (hne : pk.is x ≠ 0)
    {seq : Fin 8} (hseq : x ≠ seq → pk.is seq = 0) (hpend : x ≠ seq → seq ∈ rest → s.imap seq = false)
    (hwin : window pk.rwindow pk.pr seq = true) {v : BitVec 8} (hv : v &&& (B_COPY ||| B_MARK) ≠ 0)
    (hpk : pk'.is = Function.update (Function.update pk.is x 0) seq v)
    (hib : ∀ y, y ≠ x → y ≠ seq → pk'.ib y = pk.ib y) (hseqib : pk'.ib seq = pk.ib x)
    (hpool : pk'.ipool = pk.ipool) (himap : pk'.imap = pk.imap) (hframe : pk'.frame = pk.frame)
    (hpr : pk'.pr = pk.pr) (hrwindow : pk'.rwindow = pk.rwindow) (hout : SameOut pk pk') :
    Examined bufs s rest pk' := by
  have hv0 := ne_zero_of_and hv
  constructor
  · have hslots : slot pk'.is pk'.ib =
        Function.update (Function.update (slot pk.is pk.ib) x 0) seq {pk.ib x} := by
      funext y
      unfold slot
      rw [hpk]
      by_cases hys : y = seq
      · rw [hys, Function.update_self, Function.update_self, if_neg hv0, hseqib]
      · rw [Function.update_of_ne hys, Function.update_of_ne hys]
        by_cases hyx : y = x
        · rw [hyx, Function.update_self, Function.update_self, if_pos rfl]
        · rw [Function.update_of_ne hyx, Function.update_of_ne hyx, hib y hyx hys]
    have hold : Function.update (slot pk.is pk.ib) x 0 seq = 0 := by
      by_cases hxs : seq = x
      · rw [hxs, Function.update_self]
      · rw [Function.update_of_ne hxs, slot_of_zero (hseq (Ne.symm hxs))]
    have h₁ := sum_update (Function.update (slot pk.is pk.ib) x 0) seq {pk.ib x}
    have h₂ := sum_update (slot pk.is pk.ib) x 0
    rw [hold, add_zero] at h₁
    rw [slot_of_ne hne, zero_add, add_comm] at h₂
    have hbuffers := h.buffers
    unfold Pack.buffers at hbuffers ⊢
    rw [hslots, h₁, h₂, hpool]
    exact hbuffers
  · intro y hy hmask
    have hyx : y ≠ x := fun heq => hx (heq ▸ hy)
    have hys : y ≠ seq := by
      rintro rfl
      have hno := hpend hyx.symm hy
      rw [hmask] at hno
      cases hno
    rw [hpk, Function.update_of_ne hys, Function.update_of_ne hyx, hib y hyx hys]
    exact h.pending y (List.mem_cons_of_mem _ hy) hmask
  · intro y hy
    unfold Pack.Accepted
    rw [hpk, hrwindow, hpr]
    by_cases hys : y = seq
    · rw [hys, Function.update_self]
      exact .inr ⟨hv, hwin⟩
    · rw [Function.update_of_ne hys]
      by_cases hyx : y = x
      · exact .inl (hyx ▸ Function.update_self ..)
      · rw [Function.update_of_ne hyx]
        refine h.done y fun hmem => hy ⟨?_, hmem.2⟩
        exact (List.mem_cons.mp hmem.1).resolve_left hyx
  · rw [himap]
    exact h.imap
  · exact hframe.trans h.frame
  · exact hpr.trans h.pr
  · exact hrwindow.trans h.rwindow
  · exact h.out.trans hout

theorem Examined.examine (h : Examined bufs s (x :: rest) pk) (hs : InvIn bufs s) (hclear : s.Clear)
    (hlt : ∀ y ∈ rest, x < y) : Examined bufs s rest (Slots.examine s.imap pk x) := by
  have hx : x ∉ rest := fun hmem => lt_irrefl _ (hlt x hmem)
  by_cases hmask : s.imap x = true
  swap
  · unfold Slots.examine
    rw [if_pos hmask]
    refine { h with pending := fun y hy => h.pending y (List.mem_cons_of_mem _ hy), done := ?_ }
    intro y hy
    refine h.done y fun hmem => hy ⟨(List.mem_cons.mp hmem.1).resolve_left ?_, hmem.2⟩
    rintro rfl
    exact hmask hmem.2
  obtain ⟨his, hib⟩ := h.pending x (List.mem_cons_self ..) hmask
  have hne : pk.is x ≠ 0 := his ▸ hs.imap x hmask
  unfold Slots.examine
  rw [if_neg (not_not.mpr hmask)]
  dsimp only
  generalize hseq : seqOf (pk.is x) = seq
  split_ifs with hdata hgood hwin hdup
  · exact h.free hx hne
  · rw [free_mark]
    exact h.free hx hne
  rotate_left
  · rw [free_mark]
    exact h.free hx hne
  · rw [free_mark]
    exact h.free hx hne
  · -- the slot is empty, or it is `x` itself
    have hempty : x ≠ seq → pk.is seq &&& (B_COPY ||| B_MARK) = 0 := by
      intro hxs
      rw [Function.update_of_ne (Ne.symm hxs)] at hdup
      exact not_not.mp hdup
    have hwait : x ≠ seq → seq ∈ rest → s.imap seq = false := by
      intro hxs hmem
      rw [Bool.eq_false_iff]
      intro hmask'
      have hsame := (h.pending seq (List.mem_cons_of_mem _ hmem) hmask').1
      refine hclear x hmask (his ▸ hdata) ?_ ?_ ?_ ?_ ?_
      · rw [← hib, ← h.frame]
        exact hgood
      all_goals rw [← his, hseq]
      · rw [← h.rwindow, ← h.pr]
        exact hwin
      · exact hlt seq hmem
      · exact hmask'
      · rw [← hsame]
        exact hempty hxs
    have hzero : x ≠ seq → pk.is seq = 0 := by
      intro hxs
      refine (h.done seq fun hmem => ?_).resolve_right fun hacc => hacc.1 (hempty hxs)
      have hmem' := (List.mem_cons.mp hmem.1).resolve_left (Ne.symm hxs)
      have hno := hwait hxs hmem'
      rw [hmem.2] at hno
      cases hno
    have hflags : (if isShort (pk.is x) then B_MARK + B_SHORT else B_MARK) &&&
        (B_COPY ||| B_MARK) ≠ 0 := by
      split_ifs <;> decide
    by_cases hxs : x = seq
    · subst hxs
      unfold Pack.exchange
      rw [if_neg (not_not.mpr rfl)]
      refine h.put hx hne hzero hwait hwin hflags ?_ (fun _ _ _ => rfl) rfl rfl rfl
        rfl rfl rfl ⟨rfl, rfl, rfl, rfl⟩
      unfold Pack.mark
      dsimp only
      rw [Function.update_idem, Function.update_idem]
    · unfold Pack.exchange
      rw [if_pos hxs]
      refine h.put hx hne hzero hwait hwin hflags ?_ ?_ ?_ rfl rfl rfl rfl rfl
        ⟨rfl, rfl, rfl, rfl⟩
      · unfold Pack.mark
        dsimp only
        rw [Function.update_idem, Function.update_of_ne (Ne.symm hxs), hzero hxs]
      · intro y hyx hys
        unfold Pack.mark
        dsimp only
        rw [Function.update_of_ne hys, Function.update_of_ne hyx]
      · exact Function.update_self ..

theorem Examined.foldl (h : Examined bufs s rest pk) (hs : InvIn bufs s) (hclear : s.Clear)
    (hlt : rest.Pairwise (· < ·)) : Examined bufs s [] (rest.foldl (Slots.examine s.imap) pk) := by
  induction rest generalizing pk with
  | nil => exact h
  | cons x rest ih =>
    obtain ⟨hx, hrest⟩ := List.pairwise_cons.mp hlt
    exact ih (h.examine hs hclear hx) hrest

/-- The first loop leaves no packet that has not been examined. -/
theorem InvIn.examined (hs : InvIn bufs s) (hclear : s.Clear) :
    Examined bufs s [] ((List.finRange 8).foldl (Slots.examine s.imap)
      { s with imap := fun _ => false }) := by
  have hall : ∀ y : Fin 8, y ∈ List.finRange 8 := List.mem_finRange
  refine Examined.foldl ⟨hs.buffers, fun y _ _ => ⟨rfl, rfl⟩, ?_, fun _ => rfl, rfl, rfl, rfl,
    ⟨rfl, rfl, rfl, rfl⟩⟩ hs hclear (by decide)
  intro y hy
  by_cases hzero : s.is y = 0
  · exact .inl hzero
  · exact .inr ((hs.slots y hzero).resolve_left fun hmask => hy ⟨hall y, hmask⟩)

theorem InvIn.or (h : InvIn bufs pk) (hne : pk.is x ≠ 0) (b : BitVec 8) :
    InvIn bufs { pk with is := Function.update pk.is x (pk.is x ||| b) } := by
  constructor
  · unfold Pack.buffers
    dsimp only
    rw [slot_mark hne (or_ne_zero hne)]
    exact h.buffers
  · intro y hy
    unfold Pack.Accepted
    dsimp only at hy ⊢
    by_cases hyx : y = x
    · subst hyx
      rw [Function.update_self]
      exact (h.slots y hne).imp_right fun hacc => ⟨or_and_ne_zero hacc.1, hacc.2⟩
    · rw [Function.update_of_ne hyx] at hy ⊢
      exact h.slots y hy
  · intro y hy
    dsimp only
    by_cases hyx : y = x
    · subst hyx
      rw [Function.update_self]
      exact or_ne_zero hne
    · rw [Function.update_of_ne hyx]
      exact h.imap y hy
  · exact h.rwindow

theorem InvIn.free (h : InvIn bufs pk) (hne : pk.is x ≠ 0) (himap : ∀ y, pk.imap y = false) :
    InvIn bufs (pk.free x) := by
  constructor
  · rw [Pack.free_buffers pk hne]
    exact h.buffers
  · intro y hy
    unfold Pack.free Pack.Accepted at *
    dsimp only at hy ⊢
    by_cases hyx : y = x
    · rw [hyx, Function.update_self] at hy
      exact (hy rfl).elim
    · rw [Function.update_of_ne hyx] at hy ⊢
      exact h.slots y hy
  · intro y hy
    cases (himap y).symm.trans hy
  · exact h.rwindow

/-- The receiver's half of the invariant when all slots have been examined. -/
structure Settled (bufs : List Buf) (pk : Pack) : Prop extends InvIn bufs pk where
  none : ∀ y, pk.imap y = false

theorem Settled.scanFrom (h : Settled bufs pk) (n : ℕ) (x : Fin 8) (gap : Bool) (accept : ℕ) :
    Settled bufs (Slots.scanFrom n x gap accept pk) ∧
      SameOut pk (Slots.scanFrom n x gap accept pk) := by
  induction n generalizing x gap accept pk with
  | zero => exact ⟨⟨h.congr ⟨rfl, rfl, rfl, rfl, rfl, rfl⟩, h.none⟩, ⟨rfl, rfl, rfl, rfl⟩⟩
  | succ n ih =>
    have hmark : Settled bufs (if pk.is x &&& B_MARK ≠ 0 then
        { pk with is := Function.update pk.is x (pk.is x ||| B_COPY) } else pk) := by
      split_ifs with hmark
      · exact ⟨h.or (ne_zero_of_and hmark) B_COPY, h.none⟩
      · exact h
    have hsame : SameOut pk (if pk.is x &&& B_MARK ≠ 0 then
        { pk with is := Function.update pk.is x (pk.is x ||| B_COPY) } else pk) := by
      split_ifs
      · exact ⟨rfl, rfl, rfl, rfl⟩
      · exact .refl pk
    rw [Slots.scanFrom]
    dsimp only
    generalize (if pk.is x &&& B_MARK ≠ 0 then
      { pk with is := Function.update pk.is x (pk.is x ||| B_COPY) } else pk) = marked
      at hmark hsame ⊢
    split_ifs with hwin hcopy hgap
    · have hfree : Settled bufs (marked.free x) :=
        ⟨hmark.free (ne_zero_of_and hcopy) hmark.none, hmark.none⟩
      have hfreed : SameOut marked (marked.free x) := ⟨rfl, rfl, rfl, rfl⟩
      obtain ⟨hset, hout⟩ := ih hfree (next x) gap accept
      exact ⟨hset, (hsame.trans hfreed).trans hout⟩
    · obtain ⟨hset, hout⟩ := ih hmark (next x) gap (accept + 1)
      exact ⟨hset, hsame.trans hout⟩
    · obtain ⟨hset, hout⟩ := ih hmark (next x) true accept
      exact ⟨hset, hsame.trans hout⟩
    · exact ⟨⟨h.congr ⟨rfl, rfl, rfl, rfl, rfl, rfl⟩, h.none⟩, ⟨rfl, rfl, rfl, rfl⟩⟩

theorem InvIn.pkaccept (h : InvIn bufs pk) (hclear : pk.Clear) :
    Settled bufs (Slots.pkaccept pk) ∧ SameOut pk (Slots.pkaccept pk) := by
  have hex := h.examined hclear
  have hset : Settled bufs ((List.finRange 8).foldl (Slots.examine pk.imap)
      { pk with imap := fun _ => false }) := by
    refine ⟨⟨hex.buffers, fun y hy => .inr ?_, fun y hy => ?_, hex.rwindow.trans h.rwindow⟩,
      hex.imap⟩
    · exact (hex.done y nofun).resolve_left hy
    · cases (hex.imap y).symm.trans hy
  obtain ⟨hscan, hout⟩ := hset.scanFrom 8 (next pk.pr) false 0
  exact ⟨hscan, hex.out.trans hout⟩

/-! ### Copying -/

/-- What is in the window and is not its first stays in it when it moves on by one. -/
theorem window_next : ∀ rwindow < 8, ∀ pr y, y ≠ next pr → window rwindow pr y = true →
    window rwindow (next pr) y = true := by
  decide +kernel

theorem Settled.take (h : Settled bufs pk) (hle : bufs.length ≤ 7)
    (hne : pk.is (next pk.pr) ≠ 0) (cc : ℤ) : Settled bufs (pk.take (next pk.pr) cc) ∧
      SameOut pk (pk.take (next pk.pr) cc) := by
  unfold Pack.take
  dsimp only
  split_ifs
  · refine ⟨⟨⟨?_, fun y hy => .inr ?_, fun y hy => ?_, h.rwindow⟩, h.none⟩, ⟨rfl, rfl, rfl, rfl⟩⟩
    · exact (h.free hne h.none).buffers
    · have hy' : (pk.free (next pk.pr)).is y ≠ 0 := hy
      obtain ⟨hflags, hwin⟩ := ((h.free hne h.none).slots y hy').resolve_left
        fun hmask => nomatch (h.none y).symm.trans hmask
      have hyx : y ≠ next pk.pr := by
        rintro rfl
        exact hy' (Function.update_self ..)
      have hlt : pk.rwindow < 8 := by
        rw [h.rwindow]
        omega
      exact ⟨hflags, window_next _ hlt _ _ hyx hwin⟩
    · cases (h.none y).symm.trans hy
  · exact ⟨⟨(h.or hne B_RESID).congr ⟨rfl, rfl, rfl, rfl, rfl, rfl⟩, h.none⟩,
      ⟨rfl, rfl, rfl, rfl⟩⟩

theorem Settled.readFrom (h : Settled bufs pk) (hle : bufs.length ≤ 7) (n : ℕ) (icount : ℤ)
    (xfr : Bool) : Settled bufs (Slots.readFrom n icount xfr pk) ∧
      SameOut pk (Slots.readFrom n icount xfr pk) := by
  induction n generalizing icount xfr pk with
  | zero => exact ⟨h, .refl pk⟩
  | succ n ih =>
    rw [Slots.readFrom]
    split_ifs with hstop hcc
    · exact ⟨h, .refl pk⟩
    · exact h.take hle (ne_zero_of_and fun hzero => hstop (.inr (.inl hzero))) _
    · obtain ⟨hset, hout⟩ :=
        h.take hle (ne_zero_of_and fun hzero => hstop (.inr (.inl hzero)))
          (min (pk.isum (next pk.pr)) icount)
      obtain ⟨hset', hout'⟩ := ih hset (icount - min (pk.isum (next pk.pr)) icount) true
      exact ⟨hset', hout.trans hout'⟩

theorem Inv.pkread (h : Inv bufs pk) (hclear : pk.Clear) (hle : bufs.length ≤ 7) (icount : ℤ) :
    Inv bufs (Slots.pkread icount pk) := by
  obtain ⟨hset, hout⟩ := h.receiver.pkaccept hclear
  unfold Slots.pkread
  dsimp only
  split_ifs
  · exact .of_both hset.toInvIn (h.sender.congr hout)
  · obtain ⟨hset', hout'⟩ := hset.readFrom hle 9 icount false
    exact .of_both hset'.toInvIn ((h.sender.congr hout).congr hout')

/-! ### Sending -/

theorem Inv.pkoutput (h : Inv bufs pk) (control : Bool) : Inv bufs (Slots.pkoutput control pk) := by
  have hnxtps : Inv bufs (if pk.rxmit then { pk with nxtps := next pk.rpr } else pk) := by
    split_ifs
    · exact .of_both (h.receiver.congr ⟨rfl, rfl, rfl, rfl, rfl, rfl⟩)
        (h.sender.congr ⟨rfl, rfl, rfl, rfl⟩)
    · exact h
  unfold Slots.pkoutput
  dsimp only
  generalize (if pk.rxmit then { pk with nxtps := next pk.rpr } else pk) = ready at hnxtps ⊢
  split_ifs with hstop
  · exact hnxtps
  have hbits : ready.os ready.nxtps &&& (B_READY ||| B_SENT) ≠ 0 :=
    fun hzero => hstop (.inr (.inr hzero))
  have hne := ne_zero_of_and hbits
  have hused : used (Function.update ready.os ready.nxtps (ready.os ready.nxtps ||| B_SENT)) =
      used ready.os := by
    rw [used_update, if_neg (or_ne_zero hne)]
    have hone : used ready.os ready.nxtps = 1 := if_neg hne
    rw [← hone, Function.update_eq_self]
  refine .of_both (hnxtps.receiver.congr ⟨rfl, rfl, rfl, rfl, rfl, rfl⟩)
    ⟨?_, hnxtps.xcount_le, hnxtps.writing⟩
  unfold Pack.waiting
  dsimp only
  rw [hused]
  exact hnxtps.xcount

theorem Inv.store (h : Inv bufs pk) (hwriting : pk.writing = true)
    (hzero : pk.os (next pk.pscopy) = 0) (short : Bool) : Inv bufs (Slots.store short pk) := by
  have hlt := h.writing hwriting
  have hsum := sum_update (used pk.os) (next pk.pscopy) 1
  have hused : used pk.os (next pk.pscopy) = 0 := if_pos hzero
  have hflags : (if short then B_READY + B_SHORT else B_READY) ≠ 0 := by
    cases short <;> decide
  have hxcount := h.xcount
  unfold Pack.waiting at hxcount
  refine .of_both (h.receiver.congr ⟨rfl, rfl, rfl, rfl, rfl, rfl⟩) ⟨?_, hlt, nofun⟩
  change pk.xcount + 1 = ∑ y, used (Function.update pk.os (next pk.pscopy) _) y
  rw [used_update, if_neg hflags]
  omega

/-! ### Runs -/

def Ok (pk : Pack) : Act → Prop
  | .getpack p => p.Harmless pk
  | .read _ => pk.Clear
  | _ => True

theorem Inv.step (h : Inv bufs pk) (hle : bufs.length ≤ 7) {a : Act} (hok : Ok pk a)
    (hstep : Slots.step pk a = some pk') : Inv bufs pk' := by
  cases a with
  | getpack p =>
    rw [Slots.step] at hstep
    split_ifs at hstep
    obtain rfl := Option.some.inj hstep
    exact h.pkgetpack hok
  | read icount =>
    rw [Slots.step] at hstep
    split_ifs at hstep
    obtain rfl := Option.some.inj hstep
    exact h.pkread hok hle icount
  | write =>
    rw [Slots.step] at hstep
    split_ifs at hstep with hfull
    obtain rfl := Option.some.inj hstep
    refine .of_both (h.receiver.congr ⟨rfl, rfl, rfl, rfl, rfl, rfl⟩)
      ⟨h.xcount, h.xcount_le, fun _ => ?_⟩
    exact Nat.lt_of_not_le fun hle => hfull (.inr hle)
  | store short =>
    rw [Slots.step] at hstep
    split_ifs at hstep with hroom
    obtain rfl := Option.some.inj hstep
    exact h.store hroom.1 hroom.2 short
  | output control =>
    obtain rfl := Option.some.inj hstep
    exact h.pkoutput control

theorem Inv.start (o : Opened) : Inv o.bufs (Slots.start o) := by
  refine .of_both ⟨?_, fun x hx => (hx rfl).elim, nofun, rfl⟩ ⟨?_, Nat.zero_le _, nofun⟩
  · have hempty : slot (Slots.start o).is (Slots.start o).ib = fun _ => 0 :=
      funext fun x => slot_of_zero rfl
    unfold Pack.buffers
    rw [hempty, Finset.sum_const_zero, add_zero]
    rfl
  · have hempty : used (Slots.start o).os = fun _ => 0 := funext fun x => if_pos rfl
    unfold Pack.waiting
    rw [hempty, Finset.sum_const_zero]
    rfl

/-- In a run of harmless packets, with no two packets in each other's way, every buffer is in
one place, every slot that is not empty is one that is looked at again, and the packets that are
being sent are counted and fit into the window. -/
theorem buffers_kept {o : Opened} (h : Reach step Ok (start o) pk) : pk.Kept o.bufs :=
  (h.invariant (Inv.start o) fun _ _ _ hinv hok hstep => hinv.step o.le hok hstep).toKept

/-- Three buffers, and packets of 64 bytes. -/
def three : Opened := ⟨[1, 2, 3], by decide, by decide, 64, 7⟩

theorem buffers_kept_data : ∃ pk, run step [.getpack (.data true 136 (some ⟨true, 0⟩))]
    (start three) = some pk ∧ pk.Kept three.bufs := by
  have hok : RunOk step Ok [.getpack (.data true 136 (some ⟨true, 0⟩))] (start three) :=
    ⟨fun _ _ => ⟨nofun, fun _ => by decide⟩, fun _ _ => trivial⟩
  have hrun : run step [.getpack (.data true 136 (some ⟨true, 0⟩))] (start three) = some _ := rfl
  exact ⟨_, hrun, buffers_kept (reach_of_run hrun hok)⟩

/-- The data behind a header do not come in time: their buffer is lost. -/
theorem buffer_lost :
    ∃ pk, Reach step (fun _ _ => True) (start three) pk ∧ ¬ pk.Kept three.bufs := by
  obtain ⟨pk, hrun, hpool⟩ := exists_of_run_any step [.getpack (.data true 136 none)] (start three)
    (fun pk => pk.ipool = [2, 3] ∧ ∀ x, pk.is x = 0) (by decide)
  obtain ⟨hpool, hempty⟩ := of_decide_eq_true hpool
  refine ⟨pk, reach_of_run hrun (runOk_of_forall (fun _ _ => trivial) _), fun h => ?_⟩
  have hbuffers := h.buffers
  have hslots : slot pk.is pk.ib = fun _ => 0 := funext fun x => slot_of_zero (hempty x)
  unfold Pack.buffers at hbuffers
  rw [hpool, hslots, Finset.sum_const_zero, add_zero] at hbuffers
  have hcard := congrArg Multiset.card hbuffers
  cases hcard

end Unitas.Bnu.Slots
