import Unitas.Unpack.Dictionary

/-! `decode` on a file that was written with the codes of its dictionary, wherever the buffers
begin and end. -/
namespace Unitas.Unpack
open Function Unitas.LevelCode

variable {BUFSIZ : ℕ}

/-- The bytes that are still to be read, from the buffer and then from the file. -/
def State.unread (s : State) : List UInt8 :=
  (List.range s.inleft.toNat).map (fun i => s.inbuff (s.inp + i)) ++ s.infile

theorem unread_read (hB : 0 < BUFSIZ) {s : State} (hne : s.infile ≠ []) :
    ({ s.read BUFSIZ with inp := 0 } : State).unread = s.infile ∧ 0 < (s.read BUFSIZ).inleft := by
  have hread : s.read BUFSIZ = { s with
      inbuff := overlay (s.infile.take BUFSIZ) s.inbuff
      inleft := (s.infile.take BUFSIZ).length
      infile := s.infile.drop BUFSIZ } := by
    rw [State.read, if_neg (fun h => hne h.1)]
  rw [hread]
  constructor
  · have hbuf : (List.range (s.infile.take BUFSIZ).length).map
        (overlay (s.infile.take BUFSIZ) s.inbuff) = s.infile.take BUFSIZ := by
      apply List.ext_getElem
      · simp
      · intro i h1 h2
        simp [overlay, List.getElem?_eq_getElem h2]
    simp only [State.unread, Int.toNat_natCast, Nat.zero_add]
    rw [hbuf, List.take_append_drop]
  · have := List.length_pos_of_ne_nil hne
    simp only [List.length_take]
    omega

/-- The next byte of the file, whether or not the buffer has to be filled. -/
theorem refill_next (hB : 0 < BUFSIZ) {s : State} {c : UInt8} {rest : List UInt8}
    (h : s.unread = c :: rest) :
    ∃ inbuff inp infile, ∃ inleft : ℤ,
      s.refill BUFSIZ = { s with inbuff, inp, infile, inleft := inleft + 1 } ∧ 0 ≤ inleft ∧
      inbuff inp = c ∧ State.unread { s with inbuff, inp := inp + 1, infile, inleft } = rest := by
  have hsplit : ∀ t : State, t.unread = c :: rest → 0 < t.inleft →
      t.inbuff t.inp = c ∧
        State.unread { t with inp := t.inp + 1, inleft := t.inleft - 1 } = rest := by
    intro t ht hpos
    obtain ⟨n, hn⟩ : ∃ n : ℕ, t.inleft = n + 1 := ⟨(t.inleft - 1).toNat, by omega⟩
    have hn' : (t.inleft - 1).toNat = n := by omega
    have hn'' : t.inleft.toNat = n + 1 := by omega
    rw [State.unread, hn'', List.range_succ_eq_map, List.map_cons, List.cons_append,
      List.cons.injEq] at ht
    refine ⟨ht.1, ?_⟩
    rw [← ht.2, State.unread, hn', List.map_map]
    congr 1
    apply List.map_congr_left
    intro i _
    simp only [Function.comp_apply, Nat.add_assoc, Nat.add_comm 1]
  unfold State.refill
  split_ifs with hleft
  · have hnil : s.inleft.toNat = 0 := by omega
    have hinfile : s.infile = c :: rest := by
      rw [State.unread, hnil] at h
      exact h
    obtain ⟨hun, hpos⟩ := unread_read hB (s := s) (by rw [hinfile]; simp)
    obtain ⟨h1, h2⟩ := hsplit _ (hun.trans hinfile) hpos
    refine ⟨(s.read BUFSIZ).inbuff, 0, (s.read BUFSIZ).infile, (s.read BUFSIZ).inleft - 1,
      ?_, by omega, h1, ?_⟩
    · rw [Int.sub_add_cancel, State.read, if_neg (by rw [hinfile]; simp)]
    · rw [State.read, if_neg (by rw [hinfile]; simp)] at h2 ⊢
      exact h2
  · obtain ⟨h1, h2⟩ := hsplit s h (by omega)
    exact ⟨s.inbuff, s.inp, s.infile, s.inleft - 1, by simp, by omega, h1, h2⟩

/-- A code that the dictionary in memory is for: `inner` and `leaves` count the nodes of each
level, leaf `j` of level `l` is entry `start l + j`, and `END` is the entry at `eof`. -/
structure Table (inner leaves : ℕ → ℕ) (maxlev : ℕ) (start : ℕ → ℕ) (s : State) : Prop where
  levels : Levels inner leaves maxlev
  maxlev_le : maxlev ≤ 24
  intnodes : ∀ l, 1 ≤ l → l ≤ maxlev → s.intnodes l = inner l
  tree : ∀ l, 1 ≤ l → l ≤ maxlev → s.tree l = some (start l)
  eof_le : s.eof ≤ 256

/-- `s` with other bytes written. -/
def Emits (s s' : State) : Prop :=
  ∃ outbuff written origsize, s' = { s with outbuff, written, origsize }

/-- `out` has been put out, some of it still in the buffer, of `size` bytes in all. -/
structure Putting (BUFSIZ : ℕ) (size : ℤ) (out : List UInt8) (s : State) : Prop where
  out : s.written ++ s.outbuff = out
  lt : s.outbuff.length < BUFSIZ
  origsize : s.origsize + s.written.length = size
  writeErr : s.writeErr = false

theorem emit_spec {size : ℤ} {out : List UInt8} {s : State} (h : Putting BUFSIZ size out s)
    (hB : 0 < BUFSIZ) (c : UInt8) :
    ∃ s', emit BUFSIZ c s = some s' ∧ Emits s s' ∧ Putting BUFSIZ size (out ++ [c]) s' := by
  have hlt := h.lt
  unfold emit
  dsimp only
  rw [List.length_append, List.length_singleton]
  split_ifs with hfull
  · refine ⟨{ s with
      written := s.written ++ (s.outbuff ++ [c]), outbuff := []
      origsize := s.origsize - BUFSIZ }, ?_, ⟨_, _, _, rfl⟩, ?_⟩
    · simp [State.write, h.writeErr]
    · constructor
      · simp [← h.out]
      · simpa using hB
      · have := h.origsize
        simp only [List.length_append, List.length_singleton]
        push_cast
        omega
      · exact h.writeErr
  · refine ⟨_, rfl, ⟨_, _, _, rfl⟩, ?_⟩
    constructor
    · simp [← h.out]
    · simp only [List.length_append, List.length_singleton]
      omega
    · exact h.origsize
    · exact h.writeErr

theorem finish_spec {size : ℤ} {out : List UInt8} {s : State} (h : Putting BUFSIZ size out s)
    (hsize : size = out.length) :
    (finish s).1 = .success ∧ (finish s).2.written = out := by
  have hout := congrArg List.length h.out
  have horig := h.origsize
  rw [List.length_append] at hout
  have hzero : s.origsize - s.outbuff.length = 0 := by omega
  simp [finish, State.write, h.writeErr, hzero, h.out]

section Decoding
variable {inner leaves : ℕ → ℕ} {maxlev : ℕ} {start : ℕ → ℕ}

/-- The bits of leaf `j` of level `l`. -/
def leafBits (inner : ℕ → ℕ) (leaf : ℕ × ℕ) : List ℕ := toBits leaf.1 (inner leaf.1 + leaf.2)

/-- Inside the code of a leaf: `r` of its bits are still to come. -/
structure Inside (inner leaves : ℕ → ℕ) (maxlev : ℕ) (leaf : ℕ × ℕ) (r lev i : ℕ) : Prop where
  pos : 1 ≤ r
  lev_add : lev + r = leaf.1 + 1
  lev_pos : 1 ≤ lev
  le : leaf.1 ≤ maxlev
  lt : leaf.2 < leaves leaf.1
  prefix_eq : i = (inner leaf.1 + leaf.2) / 2 ^ r

theorem Inside.first {leaf : ℕ × ℕ} (h : Levels inner leaves maxlev) (h1 : 1 ≤ leaf.1)
    (hle : leaf.1 ≤ maxlev) (hlt : leaf.2 < leaves leaf.1) :
    Inside inner leaves maxlev leaf leaf.1 1 0 where
  pos := h1
  lev_add := by omega
  lev_pos := le_rfl
  le := hle
  lt := hlt
  prefix_eq := by
    rw [Nat.div_eq_of_lt]
    exact h.code_lt h1 (by omega)

/-- One bit leads down to an inner node, or to the leaf if it was the last. -/
theorem decodeBit_inside (BUFSIZ : ℕ) {s : State} {leaf : ℕ × ℕ} {r lev i : ℕ}
    (ht : Table inner leaves maxlev start s) (h : Inside inner leaves maxlev leaf r lev i) :
    let bit := (inner leaf.1 + leaf.2) / 2 ^ (r - 1) % 2
    (2 ≤ r → ∃ i', decodeBit BUFSIZ bit lev i s = .more (lev + 1) i' s ∧
      Inside inner leaves maxlev leaf (r - 1) (lev + 1) i') ∧
    (r = 1 → decodeBit BUFSIZ bit lev i s =
      let p := start leaf.1 + leaf.2
      if p = s.eof then .done (finish s).1 (finish s).2
      else if 256 ≤ p then .done .undefined s
      else
        match emit BUFSIZ (s.characters p) s with
        | none => .done (.failure .writeError) s
        | some s => .more 1 0 s) := by
  have hr := h.pos
  have hlev := h.lev_add
  have hlev1 := h.lev_pos
  have hle := h.le
  have hlt := h.lt
  have hmax := ht.maxlev_le
  obtain ⟨k, rfl⟩ : ∃ k, r = k + 1 := ⟨r - 1, by omega⟩
  have hi : 2 * i + (inner leaf.1 + leaf.2) / 2 ^ k % 2 = (inner leaf.1 + leaf.2) / 2 ^ k := by
    rw [h.prefix_eq, Nat.pow_succ, ← Nat.div_div_eq_div_mul]
    omega
  have hint : s.intnodes lev = inner lev := ht.intnodes lev hlev1 (by omega)
  dsimp only
  rw [Nat.add_sub_cancel, decodeBit]
  dsimp only
  rw [hi, if_neg (by omega), hint]
  constructor
  · intro h2
    obtain ⟨m, rfl⟩ : ∃ m, k = m + 1 := ⟨k - 1, by omega⟩
    have hlvl : leaf.1 = lev + m + 1 := by omega
    have hpre := ht.levels.prefix_lt lev m (inner leaf.1 + leaf.2) (by rw [← hlvl]; omega)
    exact ⟨_, if_pos hpre, by omega, by omega, by omega, hle, hlt, rfl⟩
  · intro h1
    have hk : k = 0 := by omega
    subst hk
    have hlvl : lev = leaf.1 := by omega
    have hrest : leaf.2 = inner leaf.1 + leaf.2 - inner leaf.1 := (Nat.add_sub_cancel_left ..).symm
    rw [hlvl, Nat.pow_zero, Nat.div_one, if_neg (by omega), ht.tree leaf.1 (by omega) hle]
    exact hrest ▸ rfl

/-- The bits to come are those of the rest of one leaf, of `leaves`, and of `END`, followed by
any `pad`; the leaves stand for `text`. -/
structure Pending (inner leaves : ℕ → ℕ) (maxlev : ℕ) (start : ℕ → ℕ) (s : State)
    (bits : List ℕ) (text : List UInt8) (lev i : ℕ) : Prop where
  exists_leaf : ∃ (leaf : ℕ × ℕ) (r : ℕ) (todo : List (ℕ × ℕ)) (pad : List ℕ),
    Inside inner leaves maxlev leaf r lev i ∧
    bits = toBits r (inner leaf.1 + leaf.2) ++ todo.flatMap (leafBits inner) ++ pad ∧
    (∀ l ∈ leaf :: todo, 1 ≤ l.1 ∧ l.1 ≤ maxlev ∧ l.2 < leaves l.1) ∧
    ∃ chars : List (ℕ × ℕ), ∃ last, leaf :: todo = chars ++ [last] ∧
      start last.1 + last.2 = s.eof ∧
      (∀ l ∈ chars, start l.1 + l.2 < s.eof) ∧
      chars.map (fun l => s.characters (start l.1 + l.2)) = text

theorem Table.emits {s s' : State} (h : Table inner leaves maxlev start s) (he : Emits s s') :
    Table inner leaves maxlev start s' := by
  obtain ⟨_, _, _, rfl⟩ := he
  exact ⟨h.levels, h.maxlev_le, h.intnodes, h.tree, h.eof_le⟩

theorem Pending.emits {s s' : State} {bits : List ℕ} {text : List UInt8} {lev i : ℕ}
    (h : Pending inner leaves maxlev start s bits text lev i) (he : Emits s s') :
    Pending inner leaves maxlev start s' bits text lev i := by
  obtain ⟨_, _, _, rfl⟩ := he
  exact ⟨h.exists_leaf⟩

theorem Emits.refl (s : State) : Emits s s := ⟨_, _, _, rfl⟩

theorem Emits.trans {s t u : State} (h : Emits s t) (h' : Emits t u) : Emits s u := by
  obtain ⟨_, _, _, rfl⟩ := h
  obtain ⟨_, _, _, rfl⟩ := h'
  exact ⟨_, _, _, rfl⟩

/-- What is known in the middle of the text. -/
structure Decoding (BUFSIZ : ℕ) (inner leaves : ℕ → ℕ) (maxlev : ℕ) (start : ℕ → ℕ)
    (file : List UInt8) (bits : List ℕ) (lev i : ℕ) (s : State) : Prop where
  table : Table inner leaves maxlev start s
  exists_text : ∃ out text, file = out ++ text ∧ Putting BUFSIZ file.length out s ∧
    Pending inner leaves maxlev start s bits text lev i

/-- One bit: still in the middle of the text, or done with it. -/
theorem decodeBit_spec (hB : 0 < BUFSIZ) {file : List UInt8} {b : ℕ} {bits : List ℕ}
    {lev i : ℕ} {s : State}
    (h : Decoding BUFSIZ inner leaves maxlev start file (b :: bits) lev i s) :
    (∃ lev' i' s', decodeBit BUFSIZ b lev i s = .more lev' i' s' ∧ Emits s s' ∧
      Decoding BUFSIZ inner leaves maxlev start file bits lev' i' s') ∨
    ∃ s', decodeBit BUFSIZ b lev i s = .done .success s' ∧ s'.written = file := by
  obtain ⟨out, text, hfile, hput, hpend⟩ := h.exists_text
  obtain ⟨leaf, r, todo, pad, hin, hbits, htodo, chars, last, hsplit, hlast, hchars, htext⟩ :=
    hpend.exists_leaf
  have ht := h.table
  have hr := hin.pos
  obtain ⟨hmore, hdone⟩ := decodeBit_inside BUFSIZ ht hin
  obtain ⟨k, rfl⟩ : ∃ k, r = k + 1 := ⟨r - 1, by omega⟩
  rw [toBits_succ, List.cons_append, List.cons_append, List.cons.injEq] at hbits
  obtain ⟨hb, hbits⟩ := hbits
  rw [Nat.add_sub_cancel] at hmore hdone
  by_cases hk : k = 0
  · subst hk
    have heof := ht.eof_le
    rw [← hb] at hdone
    cases chars with
    | nil =>
      rw [List.nil_append, List.cons.injEq] at hsplit
      rw [hsplit.1] at hdone
      have hnil : text = [] := by rw [← htext, List.map_nil]
      rw [hnil, List.append_nil] at hfile
      obtain ⟨h1, h2⟩ := finish_spec hput (by rw [hfile])
      right
      refine ⟨(finish s).2, ?_, by rw [h2, hfile]⟩
      rw [hdone rfl]
      simp only [hlast, if_true, h1]
    | cons c chars =>
      rw [List.cons_append, List.cons.injEq] at hsplit
      obtain ⟨rfl, hsplit⟩ := hsplit
      have hlt := hchars leaf (by simp)
      obtain ⟨s', hs', hemits, hput'⟩ := emit_spec hput hB (s.characters (start leaf.1 + leaf.2))
      left
      refine ⟨1, 0, s', ?_, hemits, ht.emits hemits, ?_⟩
      · rw [hdone rfl]
        simp only [show start leaf.1 + leaf.2 ≠ s.eof by omega, if_false,
          show ¬ 256 ≤ start leaf.1 + leaf.2 by omega, hs']
      · refine ⟨_, chars.map (fun l => s.characters (start l.1 + l.2)), ?_, hput', ?_⟩
        · rw [hfile, ← htext, List.map_cons, List.append_assoc]
          rfl
        · apply Pending.emits _ hemits
          have hne : todo ≠ [] := by rw [hsplit]; simp
          obtain ⟨leaf', todo', rfl⟩ := List.exists_cons_of_ne_nil hne
          have hleaf' := htodo leaf' (by simp)
          refine ⟨leaf', leaf'.1, todo', pad,
            Inside.first ht.levels hleaf'.1 hleaf'.2.1 hleaf'.2.2, ?_, ?_, ?_⟩
          · rw [hbits]
            simp [leafBits]
          · intro l hl
            exact htodo l (List.mem_cons_of_mem _ hl)
          · exact ⟨chars, last, hsplit, hlast, fun l hl => hchars l (by simp [hl]), rfl⟩
  · obtain ⟨i', hi', hin'⟩ := hmore (by omega)
    left
    refine ⟨lev + 1, i', s, ?_, Emits.refl s, ht, out, text, hfile, hput, ?_⟩
    · rw [hb, hi']
    · exact ⟨leaf, k, todo, pad, hin', by rw [hbits], htodo, chars, last, hsplit, hlast, hchars,
        htext⟩

/-- The lowest `n` bits of a byte, of which the others have been shifted out. -/
theorem decodeBits_spec (hB : 0 < BUFSIZ) {file : List UInt8} {bits : List ℕ} {c : ℕ} :
    ∀ n ≤ 8, ∀ lev i s,
      Decoding BUFSIZ inner leaves maxlev start file (toBits n c ++ bits) lev i s →
      (∃ lev' i' s', decodeBits BUFSIZ n (c * 2 ^ (8 - n)) lev i s = .more lev' i' s' ∧
        Emits s s' ∧ Decoding BUFSIZ inner leaves maxlev start file bits lev' i' s') ∨
      ∃ s', decodeBits BUFSIZ n (c * 2 ^ (8 - n)) lev i s = .done .success s' ∧
        s'.written = file := by
  intro n
  induction n with
  | zero =>
    intro _ lev i s h
    exact .inl ⟨lev, i, s, rfl, Emits.refl s, h⟩
  | succ n ih =>
    intro hn lev i s h
    rw [toBits_succ, List.cons_append] at h
    have hbit : c * 2 ^ (8 - (n + 1)) / 128 % 2 = c / 2 ^ n % 2 := by
      have h128 : 128 = 2 ^ n * 2 ^ (8 - (n + 1)) := by
        rw [← Nat.pow_add, show n + (8 - (n + 1)) = 7 by omega]
      rw [h128, Nat.mul_div_mul_right _ _ (Nat.two_pow_pos _)]
    have hshift : 2 * (c * 2 ^ (8 - (n + 1))) = c * 2 ^ (8 - n) := by
      rw [show 8 - n = 8 - (n + 1) + 1 by omega, Nat.pow_succ]
      ring
    rw [decodeBits, hbit, hshift]
    rcases decodeBit_spec hB h with ⟨lev', i', s', heq, hemits, h'⟩ | ⟨s', heq, hw⟩
    · rw [heq]
      rcases ih (by omega) lev' i' s' h' with ⟨lev'', i'', s'', heq', hemits', h''⟩ | hdone
      · exact .inl ⟨lev'', i'', s'', heq', hemits.trans hemits', h''⟩
      · exact .inr hdone
    · rw [heq]
      exact .inr ⟨s', rfl, hw⟩

theorem decodeBytes_spec (hB : 0 < BUFSIZ) {file : List UInt8} :
    ∀ fuel lev i s, s.unread.length < fuel → 0 ≤ s.inleft →
      Decoding BUFSIZ inner leaves maxlev start file
        (s.unread.flatMap fun b => toBits 8 b.toNat) lev i s →
      (decodeBytes BUFSIZ fuel lev i s).1 = .success ∧
        (decodeBytes BUFSIZ fuel lev i s).2.written = file := by
  intro fuel
  induction fuel with
  | zero =>
    intro lev i s hlt
    omega
  | succ fuel ih =>
    intro lev i s hfuel hleft h
    cases hun : s.unread with
    | nil =>
      -- There is always a bit to come.
      rw [hun] at h
      obtain ⟨out, text, _, _, hpend⟩ := h.exists_text
      obtain ⟨leaf, r, todo, pad, hin, hbits, _⟩ := hpend.exists_leaf
      have := congrArg List.length hbits
      simp only [List.flatMap_nil, List.length_nil, List.length_append, length_toBits] at this
      have := hin.pos
      omega
    | cons c rest =>
      obtain ⟨inbuff, inp, infile, inleft, hrefill, hnn, hc, hrest⟩ := refill_next hB hun
      rw [hun, List.flatMap_cons] at h
      have h' : Decoding BUFSIZ inner leaves maxlev start file
          (toBits 8 c.toNat ++ rest.flatMap fun b => toBits 8 b.toNat) lev i
          { s with inbuff, inp := inp + 1, infile, inleft } := by
        obtain ⟨out, text, hfile, hput, hpend⟩ := h.exists_text
        refine ⟨⟨h.table.levels, h.table.maxlev_le, h.table.intnodes, h.table.tree,
          h.table.eof_le⟩, out, text, hfile, ?_, ⟨hpend.exists_leaf⟩⟩
        exact ⟨hput.out, hput.lt, hput.origsize, hput.writeErr⟩
      rw [decodeBytes, hrefill]
      dsimp only
      rw [if_neg (by omega), Int.add_sub_cancel, if_neg (by omega)]
      simp only [State.next, hc]
      have hspec := decodeBits_spec hB 8 le_rfl lev i _ h'
      rw [Nat.sub_self, Nat.pow_zero, Nat.mul_one] at hspec
      rcases hspec with ⟨lev', i', s', heq, hemits, hdec⟩ | ⟨s', heq, hw⟩
      · rw [heq]
        obtain ⟨_, _, _, rfl⟩ := hemits
        apply ih
        · rw [hun, List.length_cons] at hfuel
          change (State.unread { s with inbuff, inp := inp + 1, infile, inleft }).length < fuel
          rw [hrest]
          omega
        · exact hnn
        · change Decoding _ _ _ _ _ _ (List.flatMap _
            (State.unread { s with inbuff, inp := inp + 1, infile, inleft })) _ _ _
          rw [hrest]
          exact hdec
      · rw [heq]
        exact ⟨rfl, hw⟩

end Decoding

end Unitas.Unpack
