import Unitas.Unpack.Dictionary
import Unitas.Unpack.SameInput

/-! Decoding the present format from two states that differ in what other files have left. -/
namespace Unitas.Unpack
open Function

section Decode

/-- Every leaf that the counters can lead to is one of the dictionary, or `END`. -/
structure InTable (maxlev : ℕ) (s : State) : Prop where
  maxlev_le : maxlev ≤ 24
  bottom : s.intnodes maxlev = 0
  leaf : ∀ lev i, 1 ≤ lev → lev ≤ maxlev → (lev = 1 → i ≤ 1) →
    (2 ≤ lev → i < 2 * s.intnodes (lev - 1)) → s.intnodes lev ≤ i →
    ∃ t, s.tree lev = some t ∧ t + (i - s.intnodes lev) ≤ s.eof
  eof_le : s.eof ≤ 256

/-- The counters on the way down. -/
structure OnPath (maxlev : ℕ) (s : State) (lev i : ℕ) : Prop where
  pos : 1 ≤ lev
  le : lev ≤ maxlev
  first : lev = 1 → i = 0
  lt : 2 ≤ lev → i < s.intnodes (lev - 1)

/-- The same input and the same dictionary. -/
structure SameDict (maxlev : ℕ) (t s : State) : Prop extends SameInput t s where
  outbuff : s.outbuff = t.outbuff
  origsize : s.origsize = t.origsize
  eof : s.eof = t.eof
  intnodes : ∀ l, 1 ≤ l → l ≤ maxlev → s.intnodes l = t.intnodes l
  tree : ∀ l, 1 ≤ l → l ≤ maxlev → s.tree l = t.tree l
  characters : ∀ j < t.eof, s.characters j = t.characters j
  inTable : InTable maxlev t

/-- The outcome of decoding from two states that differ in what the file has not set. -/
inductive SameProgress (maxlev : ℕ) : Progress → Progress → Prop
  | done {r t s} (h : SameInput t s) (hr : r ≠ .undefined) :
      SameProgress maxlev (.done r t) (.done r s)
  | more {lev i t s} (h : SameDict maxlev t s) (hp : OnPath maxlev t lev i) :
      SameProgress maxlev (.more lev i t) (.more lev i s)

theorem finish_same {t s : State} (h : SameInput t s) (hout : s.outbuff = t.outbuff)
    (horig : s.origsize = t.origsize) :
    (finish s).1 = (finish t).1 ∧ (finish t).1 ≠ .undefined ∧
      SameInput (finish t).2 (finish s).2 := by
  unfold finish
  rcases h.write hout with ⟨ht, hs⟩ | ⟨ht, hs, hin⟩
  · rw [ht, hs]
    exact ⟨rfl, by simp, h⟩
  · rw [ht, hs]
    simp only [horig, hout] at hin ⊢
    split_ifs
    · exact ⟨rfl, by simp, hin.files, hin.inleft, hin.inp, hin.inbuff⟩
    · exact ⟨rfl, by simp, hin.files, hin.inleft, hin.inp, hin.inbuff⟩

variable (BUFSIZ : ℕ)

theorem emit_same {maxlev : ℕ} {t s : State} (h : SameDict maxlev t s) (c : UInt8) :
    (emit BUFSIZ c t = none ∧ emit BUFSIZ c s = none) ∨
      ∃ t' s', emit BUFSIZ c t = some t' ∧ emit BUFSIZ c s = some s' ∧ SameDict maxlev t' s' := by
  have hput : SameInput { t with outbuff := t.outbuff ++ [c] }
      { s with outbuff := s.outbuff ++ [c] } := ⟨h.files, h.inleft, h.inp, h.inbuff⟩
  unfold emit
  simp only [h.outbuff, h.origsize] at hput ⊢
  split_ifs with hfull
  · rcases hput.write rfl with ⟨ht, hs⟩ | ⟨ht, hs, hin⟩
    · left
      rw [ht, hs]
      exact ⟨rfl, rfl⟩
    · right
      rw [ht, hs]
      refine ⟨_, _, rfl, rfl, ⟨⟨hin.files, hin.inleft, hin.inp, hin.inbuff⟩, rfl, ?_, h.eof,
        h.intnodes, h.tree, h.characters, ?_⟩⟩
      · rfl
      · exact ⟨h.inTable.maxlev_le, h.inTable.bottom, h.inTable.leaf, h.inTable.eof_le⟩
  · right
    refine ⟨_, _, rfl, rfl, ⟨hput, rfl, rfl, h.eof, h.intnodes, h.tree, h.characters, ?_⟩⟩
    exact ⟨h.inTable.maxlev_le, h.inTable.bottom, h.inTable.leaf, h.inTable.eof_le⟩

theorem decodeBit_same {maxlev bit lev i : ℕ} {t s : State} (h : SameDict maxlev t s)
    (hbit : bit ≤ 1) (hp : OnPath maxlev t lev i) :
    SameProgress maxlev (decodeBit BUFSIZ bit lev i t) (decodeBit BUFSIZ bit lev i s) := by
  have hmax := h.inTable.maxlev_le
  have hpos := hp.pos
  have hle := hp.le
  have hlev : ¬ 24 < lev := by omega
  unfold decodeBit
  simp only [hlev, if_false, h.intnodes lev hpos hle]
  by_cases hinner : 2 * i + bit < t.intnodes lev
  · rw [if_pos hinner, if_pos hinner]
    refine .more h ⟨by omega, ?_, by omega, fun _ => hinner⟩
    have hne : lev ≠ maxlev := by
      rintro rfl
      rw [h.inTable.bottom] at hinner
      omega
    omega
  · rw [if_neg hinner, if_neg hinner]
    obtain ⟨p, hp', hpe⟩ := h.inTable.leaf lev (2 * i + bit) hpos hle
      (fun h1 => by have := hp.first h1; omega) (fun h2 => by have := hp.lt h2; omega) (by omega)
    have heof := h.inTable.eof_le
    rw [h.tree lev hpos hle, hp']
    dsimp only
    rw [h.eof]
    by_cases hend : p + (2 * i + bit - t.intnodes lev) = t.eof
    · rw [if_pos hend, if_pos hend]
      obtain ⟨h1, h2, h3⟩ := finish_same h.toSameInput h.outbuff h.origsize
      rw [h1]
      exact .done h3 h2
    · rw [if_neg hend, if_neg hend, if_neg (by omega), if_neg (by omega),
        h.characters _ (by omega)]
      rcases emit_same BUFSIZ h (t.characters (p + (2 * i + bit - t.intnodes lev))) with
        ⟨ht, hs⟩ | ⟨t', s', ht, hs, hsame⟩
      · rw [ht, hs]
        exact .done h.toSameInput (by simp)
      · rw [ht, hs]
        exact .more hsame ⟨le_rfl, by omega, fun _ => rfl, by omega⟩

theorem decodeBits_same {maxlev : ℕ} (n : ℕ) : ∀ c lev i t s, SameDict maxlev t s →
    OnPath maxlev t lev i →
    SameProgress maxlev (decodeBits BUFSIZ n c lev i t) (decodeBits BUFSIZ n c lev i s) := by
  induction n with
  | zero => exact fun _ _ _ _ _ h hp => .more h hp
  | succ n ih =>
    intro c lev i t s h hp
    have hbit : c / 128 % 2 ≤ 1 := by omega
    have hbit := decodeBit_same BUFSIZ h hbit hp
    rw [decodeBits, decodeBits]
    generalize decodeBit BUFSIZ (c / 128 % 2) lev i t = pt at hbit ⊢
    generalize decodeBit BUFSIZ (c / 128 % 2) lev i s = ps at hbit ⊢
    cases hbit with
    | done h hr => exact .done h hr
    | more h hp => exact ih _ _ _ _ _ h hp

theorem SameDict.refill {maxlev : ℕ} {t s : State} (h : SameDict maxlev t s) (BUFSIZ : ℕ) :
    SameDict maxlev (t.refill BUFSIZ) (s.refill BUFSIZ) := by
  have hin := h.toSameInput.refill BUFSIZ
  obtain ⟨_, _, _, _, ht⟩ := refill_frame BUFSIZ t
  obtain ⟨_, _, _, _, hs⟩ := refill_frame BUFSIZ s
  refine ⟨hin, ?_, ?_, ?_, ?_, ?_, ?_, ?_⟩ <;> rw [ht]
  · rw [hs]
    exact h.outbuff
  · rw [hs]
    exact h.origsize
  · rw [hs]
    exact h.eof
  · rw [hs]
    exact h.intnodes
  · rw [hs]
    exact h.tree
  · rw [hs]
    exact h.characters
  · exact ⟨h.inTable.maxlev_le, h.inTable.bottom, h.inTable.leaf, h.inTable.eof_le⟩

theorem OnPath.refill {maxlev : ℕ} {t : State} {lev i : ℕ} (h : OnPath maxlev t lev i)
    (BUFSIZ : ℕ) :
    OnPath maxlev (t.refill BUFSIZ) lev i := by
  obtain ⟨_, _, _, _, ht⟩ := refill_frame BUFSIZ t
  rw [ht]
  exact ⟨h.pos, h.le, h.first, h.lt⟩

theorem decodeBytes_same {maxlev : ℕ} (fuel : ℕ) : ∀ lev i t s, SameDict maxlev t s →
    OnPath maxlev t lev i →
    (decodeBytes BUFSIZ fuel lev i s).1 = (decodeBytes BUFSIZ fuel lev i t).1 ∧
      (decodeBytes BUFSIZ fuel lev i s).2.toFiles =
        (decodeBytes BUFSIZ fuel lev i t).2.toFiles := by
  induction fuel with
  | zero => exact fun _ _ _ _ h _ => ⟨rfl, h.files⟩
  | succ fuel ih =>
    intro lev i t s h hp
    have h := h.refill BUFSIZ
    have hp := hp.refill BUFSIZ
    rw [decodeBytes, decodeBytes]
    dsimp only
    generalize t.refill BUFSIZ = t at h hp ⊢
    generalize s.refill BUFSIZ = s at h hp ⊢
    rw [h.inleft]
    split_ifs with hneg hzero
    · exact ⟨rfl, h.files⟩
    · exact ⟨rfl, h.files⟩
    · obtain ⟨hbyte, hnext⟩ := h.toSameInput.next (by omega)
      simp only [State.next]
      rw [hbyte]
      have hsame : SameDict maxlev { t with inp := t.inp + 1, inleft := t.inleft - 1 }
          { s with inp := s.inp + 1, inleft := t.inleft - 1 } := by
        rw [← h.inleft] at hnext ⊢
        refine ⟨hnext, h.outbuff, h.origsize, h.eof, h.intnodes, h.tree, h.characters, ?_⟩
        exact ⟨h.inTable.maxlev_le, h.inTable.bottom, h.inTable.leaf, h.inTable.eof_le⟩
      have hbits := decodeBits_same BUFSIZ 8 (t.inbuff t.inp).toNat lev i _ _ hsame
        ⟨hp.pos, hp.le, hp.first, hp.lt⟩
      generalize decodeBits BUFSIZ 8 (t.inbuff t.inp).toNat lev i
        { t with inp := t.inp + 1, inleft := t.inleft - 1 } = pt at hbits ⊢
      generalize decodeBits BUFSIZ 8 (t.inbuff t.inp).toNat lev i
        { s with inp := s.inp + 1, inleft := t.inleft - 1 } = ps at hbits ⊢
      cases hbits with
      | done h _ => exact ⟨rfl, h.files⟩
      | more h hp => exact ih _ _ _ _ h hp

end Decode

section Dictionary

/-- The inner nodes of a level are half of all the nodes one level down. -/
theorem innerNodes_frame (i : ℕ) : ∀ n intnodes l, i < l →
    innerNodes i n intnodes l = intnodes l := by
  induction i with
  | zero => exact fun _ _ _ _ => rfl
  | succ i ih =>
    intro n intnodes l hl
    rw [innerNodes, ih _ _ _ (by omega), update_of_ne (by omega)]

theorem innerNodes_top (i n : ℕ) (intnodes : ℕ → ℕ) :
    innerNodes (i + 1) n intnodes (i + 1) = n / 2 := by
  rw [innerNodes, innerNodes_frame _ _ _ _ (Nat.lt_succ_self i), update_self]

theorem innerNodes_level (i : ℕ) : ∀ n intnodes l, 1 ≤ l → l < i →
    innerNodes i n intnodes l = (innerNodes i n intnodes (l + 1) + intnodes (l + 1)) / 2 := by
  induction i with
  | zero => omega
  | succ i ih =>
    intro n intnodes l hpos hl
    rw [innerNodes]
    by_cases hi : l = i
    · subst hi
      obtain ⟨k, rfl⟩ : ∃ k, l = k + 1 := ⟨l - 1, by omega⟩
      rw [innerNodes_top, innerNodes_frame _ _ _ _ (Nat.lt_succ_self _), update_self]
    · rw [ih _ _ l hpos (by omega), update_of_ne (by omega)]

theorem innerNodes_congr (i : ℕ) : ∀ n f g, (∀ l, 1 ≤ l → l ≤ i → f l = g l) →
    ∀ l, 1 ≤ l → l ≤ i → innerNodes i n f l = innerNodes i n g l := by
  induction i with
  | zero => omega
  | succ i ih =>
    intro n f g h l hpos hl
    by_cases hi : l = i + 1
    · subst hi
      rw [innerNodes_top, innerNodes_top]
    · rw [innerNodes, innerNodes, h (i + 1) (by omega) le_rfl]
      refine ih _ _ _ (fun k hk hki => ?_) l hpos (by omega)
      rw [update_of_ne (by omega), update_of_ne (by omega)]
      exact h k hk (by omega)

theorem leavesUpTo_pred (leaves : ℕ → ℕ) {l : ℕ} (h : 1 ≤ l) :
    leavesUpTo leaves l = leavesUpTo leaves (l - 1) + leaves l := by
  obtain ⟨k, rfl⟩ : ∃ k, l = k + 1 := ⟨l - 1, by omega⟩
  rfl

/-- With at least one level the dictionary has a leaf for every code that can come up. -/
theorem Loaded.inTable {s d : State} (h : Loaded s d) (hfits : DictFits s)
    (hpos : 1 ≤ headerLevels s) : InTable (headerLevels s) d := by
  obtain ⟨hlev, htotal, _⟩ := hfits
  obtain ⟨leaves, hint, hlast, hother⟩ := h.intnodes
  obtain ⟨characters, tree, intnodes, hd⟩ := h.frame
  have heof : d.eof = headerTotal s + 1 := by rw [hd]
  rw [if_pos hpos] at hlast
  have hbottom : d.intnodes (headerLevels s) = 0 := by
    rw [hint]
    obtain ⟨k, hk⟩ : ∃ k, headerLevels s = k + 1 := ⟨headerLevels s - 1, by omega⟩
    rw [hk, innerNodes_top]
  refine ⟨hlev, hbottom, ?_, by omega⟩
  intro lev i hl1 hlmax hfirst hdown hge
  refine ⟨_, (h.tree lev).trans (if_pos ⟨hl1, hlmax⟩), ?_⟩
  rw [heof]
  by_cases h1 : lev = 1
  · subst h1
    have := hfirst rfl
    rw [Nat.sub_self, leavesUpTo]
    omega
  · have hi := hdown (by omega)
    have hlevel := innerNodes_level (headerLevels s) 0 leaves (lev - 1) (by omega) (by omega)
    rw [Nat.sub_add_cancel hl1, ← hint] at hlevel
    have hupto := leavesUpTo_pred (headerLeaves s) hl1
    by_cases hbot : lev = headerLevels s
    · have htot : headerTotal s = leavesUpTo (headerLeaves s) lev := by rw [hbot]; rfl
      rw [← hbot] at hlast
      omega
    · have hmono : leavesUpTo (headerLeaves s) lev ≤ headerTotal s :=
        leavesUpTo_mono (headerLeaves s) hlmax
      rw [hother lev hbot, if_pos ⟨hl1, hlmax⟩] at hlevel
      omega

/-- The same bytes in the first buffer. -/
structure SameHeader (t s : State) : Prop extends
    SameInput { t with inp := 0 } { s with inp := 0 } where
  levels : s.inbuff 6 = t.inbuff 6

theorem SameHeader.byte {t s : State} (h : SameHeader t s) {i : ℕ} (hi : i < t.inleft) :
    s.inbuff i = t.inbuff i := by
  have := h.inbuff i hi
  simpa using this

theorem SameHeader.levels_eq {t s : State} (h : SameHeader t s) :
    headerLevels s = headerLevels t := by
  rw [headerLevels, h.levels]
  rfl

theorem SameHeader.leaves_eq {t s : State} (h : SameHeader t s)
    (hleft : 7 + headerLevels t ≤ t.inleft) {l : ℕ} (hl : l ≤ headerLevels t) :
    headerLeaves s l = headerLeaves t l := by
  rw [headerLeaves, h.byte (by push_cast; omega)]
  rfl

theorem SameHeader.total_eq {t s : State} (h : SameHeader t s)
    (hleft : 7 + headerLevels t ≤ t.inleft) : headerTotal s = headerTotal t := by
  rw [headerTotal, h.levels_eq]
  exact leavesUpTo_congr fun l _ hl => h.leaves_eq hleft hl

theorem SameHeader.dictFits {t s : State} (h : SameHeader t s) : DictFits s ↔ DictFits t := by
  have hleft : s.inleft = t.inleft := h.inleft
  unfold DictFits headerEnd
  rw [h.levels_eq, hleft]
  by_cases hlong : 7 + (headerLevels t : ℤ) ≤ t.inleft
  · rw [h.total_eq hlong]
  · constructor <;> intro hfits <;> omega

/-- With at least one level, nothing of the dictionary before is used. -/
theorem SameHeader.loaded {t s d e : State} (h : SameHeader t s) (hfits : DictFits t)
    (hpos : 1 ≤ headerLevels t) (hd : Loaded t d) (he : Loaded s e) :
    SameDict (headerLevels t) { d with outbuff := [] } { e with outbuff := [] } := by
  have hin := hd.inTable hfits hpos
  obtain ⟨hlev, htotal, hend⟩ := hfits
  have hlong : 7 + (headerLevels t : ℤ) ≤ t.inleft := by
    unfold headerEnd at hend
    omega
  have hlevels := h.levels_eq
  have htot := h.total_eq hlong
  have hsize : headerSize s = headerSize t := by
    unfold headerSize
    rw [h.byte (i := 2) (by omega), h.byte (i := 3) (by omega), h.byte (i := 4) (by omega),
      h.byte (i := 5) (by omega)]
  have hE : headerEnd s = headerEnd t := by rw [headerEnd, hlevels, htot]; rfl
  have hleft : s.inleft = t.inleft := h.inleft
  obtain ⟨leaves, hdint, hdlast, hdother⟩ := hd.intnodes
  obtain ⟨leaves', heint, helast, heother⟩ := he.intnodes
  rw [hlevels] at helast heint
  simp only [hlevels] at heother
  have hleaves : ∀ l, 1 ≤ l → l ≤ headerLevels t → leaves' l = leaves l := by
    intro l h1 hl
    by_cases hlast : l = headerLevels t
    · rw [hlast, hdlast, helast, if_pos hpos, if_pos hpos, h.leaves_eq hlong le_rfl]
    · rw [hdother l hlast, heother l hlast, if_pos ⟨h1, hl⟩, if_pos ⟨h1, hl⟩,
        h.leaves_eq hlong hl]
  have hint : ∀ l, 1 ≤ l → l ≤ headerLevels t → e.intnodes l = d.intnodes l := by
    rw [hdint, heint]
    exact innerNodes_congr _ _ _ _ hleaves
  have htree : ∀ l, 1 ≤ l → l ≤ headerLevels t → e.tree l = d.tree l := by
    intro l h1 hl
    rw [hd.tree, he.tree, hlevels, if_pos ⟨h1, hl⟩, if_pos ⟨h1, hl⟩,
      leavesUpTo_congr fun k _ hk => h.leaves_eq hlong (by omega)]
  have hchars : ∀ j < headerTotal t + 1, e.characters j = d.characters j := by
    intro j hj
    rw [hd.characters j (by omega), he.characters j (by omega), hlevels,
      h.byte (by unfold headerEnd at hend; push_cast; omega)]
  obtain ⟨dcharacters, dtree, dintnodes, rfl⟩ := hd.frame
  obtain ⟨echaracters, etree, eintnodes, rfl⟩ := he.frame
  refine ⟨⟨h.files, by simp only [hleft, hE], hE, ?_⟩, rfl, hsize, by simp only [htot], hint, htree,
    hchars, ⟨hin.maxlev_le, hin.bottom, hin.leaf, hin.eof_le⟩⟩
  intro i hi
  have hleft' : ((headerEnd t + i : ℕ) : ℤ) < t.inleft := by
    dsimp only at hi
    push_cast
    omega
  rw [hE]
  exact h.byte hleft'

end Dictionary

end Unitas.Unpack
