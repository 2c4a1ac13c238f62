import Unitas.Unpack.Expand
import Unitas.Lib.Simulation

/-! Decoding the older format from two states that differ in what other files have left. -/
namespace Unitas.Unpack
open Function Unitas.CInt Unitas.Simulation

section Input

/-- The same bytes are still to come. -/
structure SameInput (t s : State) : Prop where
  files : s.toFiles = t.toFiles
  inleft : s.inleft = t.inleft
  inp : s.inp = t.inp
  inbuff : ∀ i : ℕ, i < t.inleft → s.inbuff (t.inp + i) = t.inbuff (t.inp + i)

theorem overlay_of_lt {chunk : List UInt8} (buf buf' : ℕ → UInt8) {i : ℕ} (h : i < chunk.length) :
    overlay chunk buf i = overlay chunk buf' i := by
  simp [overlay, List.getElem?_eq_getElem h]

theorem SameInput.infile {t s : State} (h : SameInput t s) : s.infile = t.infile :=
  congrArg Files.infile h.files

theorem SameInput.readErr {t s : State} (h : SameInput t s) : s.readErr = t.readErr :=
  congrArg Files.readErr h.files

theorem SameInput.written {t s : State} (h : SameInput t s) : s.written = t.written :=
  congrArg Files.written h.files

theorem SameInput.writeErr {t s : State} (h : SameInput t s) : s.writeErr = t.writeErr :=
  congrArg Files.writeErr h.files

/-- A full read forgets what was in the buffer. -/
theorem SameInput.read {BUFSIZ : ℕ} {t s : State} (h : s.toFiles = t.toFiles) (inp : ℕ)
    (hinp : inp = 0) :
    SameInput { t.read BUFSIZ with inp } { s.read BUFSIZ with inp } := by
  have hinfile : s.infile = t.infile := congrArg Files.infile h
  have herr : s.readErr = t.readErr := congrArg Files.readErr h
  have hwritten : s.written = t.written := congrArg Files.written h
  have hwrite : s.writeErr = t.writeErr := congrArg Files.writeErr h
  subst hinp
  unfold State.read
  rw [hinfile, herr]
  split_ifs with hend
  · exact ⟨h, rfl, rfl, by simp⟩
  · refine ⟨by simp only [hwritten, hwrite], rfl, rfl, ?_⟩
    intro i hi
    apply overlay_of_lt
    simpa using hi

theorem SameInput.refill {t s : State} (h : SameInput t s) (BUFSIZ : ℕ) :
    SameInput (t.refill BUFSIZ) (s.refill BUFSIZ) := by
  unfold State.refill
  rw [h.inleft]
  split_ifs with hleft
  · exact SameInput.read h.files 0 rfl
  · exact h

theorem refill_frame (BUFSIZ : ℕ) (s : State) : ∃ inbuff inleft inp infile,
    s.refill BUFSIZ = { s with inbuff, inleft, inp, infile } := by
  unfold State.refill State.read
  split_ifs
  · exact ⟨_, _, _, _, rfl⟩
  · exact ⟨_, _, _, _, rfl⟩
  · exact ⟨_, _, _, _, rfl⟩

/-- One byte further. -/
theorem SameInput.next {t s : State} (h : SameInput t s) (hpos : 0 < t.inleft) :
    s.inbuff s.inp = t.inbuff t.inp ∧
      SameInput { t with inp := t.inp + 1, inleft := t.inleft - 1 }
        { s with inp := s.inp + 1, inleft := s.inleft - 1 } := by
  have hfirst := h.inbuff 0 hpos
  rw [Nat.add_zero] at hfirst
  refine ⟨by rw [h.inp, hfirst], h.files, by simp only [h.inleft], by simp only [h.inp], ?_⟩
  intro i hi
  have := h.inbuff (i + 1) (by dsimp only at hi; push_cast; omega)
  dsimp only
  rwa [Nat.add_assoc, Nat.add_comm 1]

/-- Writing the buffer out. -/
theorem SameInput.write {t s : State} (h : SameInput t s) (hout : s.outbuff = t.outbuff) :
    (t.write = none ∧ s.write = none) ∨
      (t.write = some { t with written := t.written ++ t.outbuff, outbuff := [] } ∧
        s.write = some { s with written := s.written ++ s.outbuff, outbuff := [] } ∧
        SameInput { t with written := t.written ++ t.outbuff, outbuff := [] }
          { s with written := s.written ++ s.outbuff, outbuff := [] }) := by
  unfold State.write
  rw [h.writeErr]
  by_cases hw : t.writeErr
  · exact .inl ⟨if_pos hw, if_pos hw⟩
  · refine .inr ⟨if_neg hw, if_neg hw, ?_, h.inleft, h.inp, h.inbuff⟩
    simp only [h.infile, h.readErr, h.written, hout]

end Input

section Expand

/-- The state of the older decoder, as far as it has been set up for the present file. In `t`
only those entries of `Tree` are there that the file has filled, and `sized` says whether its
size is known. -/
structure Known (sized : Prop) (t s : State) : Prop extends SameInput t s where
  isEof : s.isEof = t.isEof
  outbuff : s.outbuff = t.outbuff
  origsize : sized → s.origsize = t.origsize
  Tree : ∀ i v, t.Tree i = some v → s.Tree i = some v

theorem Known.refill {sized : Prop} {t s : State} (h : Known sized t s) (BUFSIZ : ℕ) :
    Known sized (t.refill BUFSIZ) (s.refill BUFSIZ) := by
  have hin := h.toSameInput.refill BUFSIZ
  obtain ⟨_, _, _, _, ht⟩ := refill_frame BUFSIZ t
  obtain ⟨_, _, _, _, hs⟩ := refill_frame BUFSIZ s
  refine ⟨hin, ?_, ?_, ?_, ?_⟩ <;> rw [ht, hs]
  · exact h.isEof
  · exact h.outbuff
  · exact h.origsize
  · exact h.Tree

variable (BUFSIZ : ℕ)

theorem getch_sim (sized : Prop) : Sim (Known sized) .undefined (getch BUFSIZ) (getch BUFSIZ) := by
  intro t s h
  unfold getch
  apply simAt_modify_bind
  have h := h.refill BUFSIZ
  apply simAt_get_bind
  apply simAt_ite (by rw [h.inleft])
  · intro _
    exact simAt_throw h
  · intro hneg
    apply simAt_ite (by rw [h.inleft])
    · intro _
      apply simAt_set_bind
      apply simAt_pure
      exact ⟨⟨h.files, h.inleft, h.inp, h.inbuff⟩, rfl, h.outbuff, h.origsize, h.Tree⟩
    · intro hzero
      obtain ⟨hbyte, hnext⟩ := h.toSameInput.next (by omega)
      unfold State.next
      dsimp only
      rw [hbyte]
      apply simAt_set_bind
      exact simAt_pure ⟨hnext, h.isEof, h.outbuff, h.origsize, h.Tree⟩

theorem getwdsize_sim (sized : Prop) :
    Sim (Known sized) .undefined (getwdsize BUFSIZ) (getwdsize BUFSIZ) := by
  intro t s h
  unfold getwdsize
  apply simAt_bind (getch_sim BUFSIZ _ t s h)
  intro c t s h
  apply simAt_bind (getch_sim BUFSIZ _ t s h)
  intro d t s h
  apply simAt_get_bind
  apply simAt_ite (by rw [h.isEof])
  · intro _
    exact simAt_pure h
  · intro _
    exact simAt_pure h

theorem lookup_sim (i : ℤ) : Sim (Known True) .undefined (lookup i) (lookup i) := by
  intro t s h
  unfold lookup
  apply simAt_get_bind
  cases ht : t.Tree i with
  | none => exact .unknown
  | some v =>
    rw [h.Tree i v ht]
    exact simAt_pure h

theorem store_sim (i v : ℤ) : Sim (Known True) .undefined (store i v) (store i v) := by
  intro t s h
  unfold store
  apply simAt_get_bind
  apply simAt_ite Iff.rfl
  · intro _
    apply simAt_set
    refine ⟨⟨h.files, h.inleft, h.inp, h.inbuff⟩, h.isEof, h.outbuff, h.origsize, ?_⟩
    intro j w hj
    dsimp only at hj ⊢
    by_cases hij : j = i
    · subst hij
      simpa using hj
    · rw [update_of_ne hij] at hj ⊢
      exact h.Tree j w hj
  · intro _
    exact simAt_throw h

theorem readKeys_sim (n : ℕ) :
    ∀ i, Sim (Known True) .undefined (readKeys BUFSIZ n i) (readKeys BUFSIZ n i) := by
  induction n with
  | zero => exact fun i t s h => simAt_pure h
  | succ n ih =>
    intro i t s h
    rw [readKeys]
    apply simAt_bind (getch_sim BUFSIZ _ t s h)
    intro c t s h
    apply simAt_ite Iff.rfl
    · intro _
      apply simAt_bind (getwdsize_sim BUFSIZ _ t s h)
      intro v t s h
      apply simAt_bind (store_sim i v t s h)
      intro _
      exact ih (i + 1)
    · intro _
      apply simAt_get_bind
      apply simAt_ite (by rw [h.isEof])
      · intro _
        exact simAt_throw_bind h
      · intro _
        apply simAt_bind (store_sim i _ t s h)
        intro _
        exact ih (i + 1)

theorem Known.write {t s : State} (h : Known True t s) :
    (t.write = none ∧ s.write = none) ∨
      ∃ t' s', t.write = some t' ∧ s.write = some s' ∧ Known True t' s' := by
  rcases h.toSameInput.write h.outbuff with hnone | ⟨ht, hs, hin⟩
  · exact .inl hnone
  · exact .inr ⟨_, _, ht, hs, hin, h.isEof, rfl, h.origsize, h.Tree⟩

theorem putch_sim (c : ℤ) : Sim (Known True) .undefined (putch BUFSIZ c) (putch BUFSIZ c) := by
  intro t s h
  unfold putch
  apply simAt_get_bind
  have hput : Known True { t with outbuff := t.outbuff ++ [UInt8.ofNat (mask c).toNat] }
      { s with outbuff := s.outbuff ++ [UInt8.ofNat (mask c).toNat] } :=
    ⟨⟨h.files, h.inleft, h.inp, h.inbuff⟩, h.isEof, by simp only [h.outbuff], h.origsize, h.Tree⟩
  apply simAt_ite
  · rw [hput.outbuff]
  · intro _
    rcases hput.write with ⟨ht, hs⟩ | ⟨t', s', ht, hs, hk⟩
    · rw [ht, hs]
      exact simAt_throw h
    · rw [ht, hs]
      exact simAt_set hk
  · intro _
    exact simAt_set hput

theorem expandBits_sim (n : ℕ) : ∀ word tp,
    Sim (Known True) .undefined (expandBits BUFSIZ n word tp) (expandBits BUFSIZ n word tp) := by
  induction n with
  | zero => exact fun _ _ t s h => simAt_pure h
  | succ n ih =>
    intro word tp t s h
    rw [expandBits]
    apply simAt_bind (lookup_sim _ t s h)
    intro d t s h
    apply simAt_bind (lookup_sim _ t s h)
    intro v t s h
    apply simAt_ite Iff.rfl
    · intro _
      apply simAt_bind (lookup_sim _ t s h)
      intro c t s h
      apply simAt_bind (putch_sim BUFSIZ c t s h)
      intro _ t s h
      apply simAt_get_bind
      have horig := h.origsize trivial
      apply simAt_set_bind
      have h : Known True { t with origsize := t.origsize - 1 }
          { s with origsize := s.origsize - 1 } :=
        ⟨⟨h.files, h.inleft, h.inp, h.inbuff⟩, h.isEof, h.outbuff, fun _ => by simp only [horig],
          h.Tree⟩
      apply simAt_ite (by rw [horig])
      · intro _
        apply simAt_modify_bind
        apply simAt_pure
        rcases h.write with ⟨ht, hs⟩ | ⟨t', s', ht, hs, hk⟩
        · rw [ht, hs]
          exact h
        · rw [ht, hs]
          exact hk
      · intro _
        exact ih _ _ _ _ h
    · intro _
      exact ih _ _ t s h

theorem expandWords_sim (fuel : ℕ) : ∀ tp,
    Sim (Known True) .undefined (expandWords BUFSIZ fuel tp) (expandWords BUFSIZ fuel tp) := by
  induction fuel with
  | zero => exact fun _ t s h => simAt_throw h
  | succ fuel ih =>
    intro tp t s h
    rw [expandWords]
    apply simAt_bind (getwdsize_sim BUFSIZ _ t s h)
    intro w t s h
    apply simAt_get_bind
    apply simAt_ite (by rw [h.isEof, h.origsize trivial])
    · intro _
      exact simAt_throw_bind h
    · intro _
      apply simAt_bind (expandBits_sim BUFSIZ 16 _ tp t s h)
      intro o t s h
      cases o with
      | none => exact simAt_pure h
      | some tp => exact ih tp t s h

/-- The older decoder needs nothing that it has not been told by the file. -/
theorem expand_sim {t s : State} (h : SameInput { t with inp := 0 } { s with inp := 0 })
    (heof : s.isEof = t.isEof) (hTree : ∀ i v, t.Tree i = some v → s.Tree i = some v) :
    SimAt (Known False) .undefined (expand BUFSIZ) (expand BUFSIZ) t s := by
  unfold expand
  apply simAt_modify_bind
  have hleft : s.inleft = t.inleft := h.inleft
  have h : Known False { t with outbuff := [], inp := 2, inleft := t.inleft - 2 }
      { s with outbuff := [], inp := 2, inleft := s.inleft - 2 } := by
    refine ⟨⟨h.files, by simp only [hleft], rfl, ?_⟩, heof, rfl, False.elim, hTree⟩
    intro i hi
    have := h.inbuff (2 + i) (by dsimp only at hi ⊢; push_cast; omega)
    simpa using this
  apply simAt_bind (getwdsize_sim BUFSIZ _ _ _ h)
  intro hi t s h
  apply simAt_bind (getwdsize_sim BUFSIZ _ t s h)
  intro lo t s h
  apply simAt_modify_bind
  apply simAt_mono (R := Known True)
  · intro t s h
    exact ⟨h.toSameInput, h.isEof, h.outbuff, False.elim, h.Tree⟩
  have h : Known True { t with origsize := hi * 256 * 256 + lo }
      { s with origsize := hi * 256 * 256 + lo } :=
    ⟨⟨h.files, h.inleft, h.inp, h.inbuff⟩, h.isEof, h.outbuff, fun _ => rfl, h.Tree⟩
  apply simAt_get_bind
  apply simAt_ite (by rw [h.isEof, h.origsize trivial])
  · intro _
    exact simAt_throw_bind h
  intro _
  apply simAt_bind (getwdsize_sim BUFSIZ _ _ _ h)
  intro keysize t s h
  apply simAt_bind (readKeys_sim BUFSIZ _ 0 t s h)
  intro _ t s h
  apply simAt_get_bind
  apply simAt_ite (by rw [h.isEof])
  · intro _
    exact simAt_throw_bind h
  intro _
  rw [h.inleft, h.infile]
  exact expandWords_sim BUFSIZ _ 0 t s h

end Expand

end Unitas.Unpack
