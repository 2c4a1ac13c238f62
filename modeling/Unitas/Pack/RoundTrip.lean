import Unitas.Pack.Output
import Unitas.Unpack.Decode

/-! `unpack` gives back what `pack` was given. -/
namespace Unitas.Pack
open Function Unitas.LevelCode Unitas.Unpack

section Dictionary
variable {length : ℕ → ℕ}

theorem dictChars_succ (length : ℕ → ℕ) (n : ℕ) :
    dictChars length (n + 1) =
      dictChars length n ++ (List.range END).filter (length · = n + 1) := by
  rw [dictChars, dictChars, List.range'_concat, List.flatMap_append]
  simp [Nat.add_comm]

theorem onLevel_eq_append (length : ℕ → ℕ) (l : ℕ) :
    onLevel length l =
      (List.range END).filter (length · = l) ++ if length END = l then [END] else [] := by
  rw [onLevel, List.range_succ, List.filter_append]
  simp [List.filter_cons]

/-- Below the level of `END` all leaves of a level are in the dictionary. -/
theorem length_dictChars_succ (length : ℕ → ℕ) {n : ℕ} (hn : n + 1 ≠ length END) :
    (dictChars length (n + 1)).length = (dictChars length n).length + leafCount length (n + 1) := by
  rw [dictChars_succ, List.length_append, leafCount, if_neg (by omega), onLevel_eq_append,
    if_neg (Ne.symm hn), List.append_nil]

theorem length_dictChars_last (length : ℕ → ℕ) {n : ℕ} (hn : n + 1 = length END) :
    (dictChars length (n + 1)).length + 1 =
      (dictChars length n).length + leafCount length (n + 1) := by
  rw [dictChars_succ, List.length_append, leafCount, if_neg (by omega), onLevel_eq_append,
    if_pos hn.symm, List.length_append, List.length_singleton]
  omega

theorem rank_end (h : 1 ≤ length END) : rank length END + 1 = leafCount length (length END) := by
  rw [leafCount, if_neg (by omega), onLevel_eq_append, if_pos rfl, List.length_append, rank]
  rfl

/-- A character stands in the dictionary after the levels above and those before it on its
own level. -/
theorem dictChars_getElem? {c maxlev : ℕ} (hc : c < END) (h1 : 1 ≤ length c)
    (hle : length c ≤ maxlev) :
    (dictChars length maxlev)[(dictChars length (length c - 1)).length + rank length c]? =
      some c := by
  obtain ⟨n, hn⟩ : ∃ n, length c = n + 1 := ⟨length c - 1, by omega⟩
  obtain ⟨k, hk⟩ : ∃ k, maxlev = n + 1 + k := ⟨maxlev - (n + 1), by omega⟩
  obtain ⟨d, hd⟩ : ∃ d, END = c + 1 + d := ⟨END - (c + 1), by omega⟩
  have hsplit : ∃ rest, dictChars length maxlev = dictChars length (n + 1) ++ rest := by
    rw [hk, dictChars, ← List.range'_append_1, List.flatMap_append]
    exact ⟨_, rfl⟩
  have hlevel : ∃ rest, (List.range END).filter (length · = n + 1) =
      (List.range c).filter (length · = n + 1) ++ c :: rest := by
    rw [hd, List.range_add, List.range_succ, List.filter_append, List.filter_append]
    simp [hn]
  obtain ⟨rest, hrest⟩ := hsplit
  obtain ⟨rest', hrest'⟩ := hlevel
  rw [hrest, dictChars_succ, hrest', rank, hn, Nat.add_sub_cancel, List.append_assoc,
    List.append_assoc, List.getElem?_append_right (by omega), Nat.add_sub_cancel_left,
    List.getElem?_append_right le_rfl, Nat.sub_self]
  rfl

end Dictionary

section Header
variable {file : List UInt8} {g : Globals} {inner : ℕ → ℕ}

/-- The level counts of the header, of which the last one is two less. -/
def countBytes (g : Globals) : List UInt8 :=
  (List.range' 1 (g.maxlev - 1)).map (fun i => UInt8.ofNat (g.levcount i)) ++
    [UInt8.ofNat (g.levcount g.maxlev) - 2]

theorem header_eq (g : Globals) : header g =
    [31, 30, UInt8.ofNat (g.insize >>> 24), UInt8.ofNat (g.insize >>> 16),
      UInt8.ofNat (g.insize >>> 8), UInt8.ofNat (g.insize >>> 0), UInt8.ofNat g.maxlev] ++
      (countBytes g ++ dictionary g) := by
  simp [header, countBytes]

theorem length_countBytes (h : Coded file g inner) : (countBytes g).length = g.maxlev := by
  have := h.maxlev_pos
  rw [countBytes, List.length_append, List.length_map, List.length_range', List.length_singleton]
  omega

theorem Coded.two_le_leafCount (h : Coded file g inner) :
    2 ≤ leafCount g.length g.maxlev := by
  obtain ⟨n, hn⟩ : ∃ n, g.maxlev = n + 1 := ⟨g.maxlev - 1, by have := h.maxlev_pos; omega⟩
  have hend := rank_lt le_rfl h.length_end_pos
  rw [h.length_end] at hend
  have hbottom := h.levels.bottom
  have hch := h.levels.children n
  rw [hn] at hend hbottom ⊢
  omega

theorem mono_dictChars (length : ℕ → ℕ) {m n : ℕ} (h : m ≤ n) :
    (dictChars length m).length ≤ (dictChars length n).length := by
  induction n, h using Nat.le_induction with
  | base => exact le_rfl
  | succ n _ ih =>
    rw [dictChars_succ, List.length_append]
    omega

/-- A count is stored whole, up to the two that are left out. -/
theorem countBytes_getElem (h : Coded file g inner) {l : ℕ} (hl : l + 1 ≤ g.maxlev) :
    ∃ b, (countBytes g)[l]? = some b ∧
      b.toNat + (if l + 1 = g.maxlev then 2 else 0) = leafCount g.length (l + 1) := by
  have hend := h.length_end
  have hdict := length_dictChars_le g.length g.maxlev
  have htwo := h.two_le_leafCount
  have hEND : END = 256 := rfl
  obtain ⟨m, hm⟩ : ∃ m, g.maxlev = m + 1 := ⟨g.maxlev - 1, by omega⟩
  have hlast := length_dictChars_last g.length (n := m) (by omega)
  rw [← hm] at hlast
  have hcount := h.levcount (l + 1) (by omega) hl
  by_cases hlm : l = m
  · subst hlm
    refine ⟨UInt8.ofNat (g.levcount g.maxlev) - 2, ?_, ?_⟩
    · rw [countBytes, List.getElem?_append_right]
      · simp [hm]
      · simp [hm]
    · rw [if_pos hm.symm, hm, hcount, UInt8.toNat_sub, UInt8.toNat_ofNat']
      rw [hm] at htwo hlast hdict
      have htwo' : (2 : UInt8).toNat = 2 := rfl
      rw [htwo']
      omega
  · have hstep := length_dictChars_succ g.length (n := l) (by omega)
    have hmono := mono_dictChars g.length (show l + 1 ≤ m by omega)
    refine ⟨UInt8.ofNat (g.levcount (l + 1)), ?_, ?_⟩
    · rw [countBytes, List.getElem?_append_left]
      · rw [List.getElem?_map, List.getElem?_range' (by omega)]
        simp [Nat.add_comm]
      · rw [List.length_map, List.length_range']
        omega
    · rw [if_neg (by omega), hcount, UInt8.toNat_ofNat']
      omega

end Header

/-- Where the leaves of a level begin in the dictionary. -/
def start (g : Globals) (l : ℕ) : ℕ := (dictChars g.length (l - 1)).length

def leafOf (g : Globals) (c : ℕ) : ℕ × ℕ := (g.length c, rank g.length c)

theorem codeBits_eq (g : Globals) (inner : ℕ → ℕ) (c : ℕ) :
    codeBits g inner c = leafBits inner (leafOf g c) := rfl

section Text
variable {file : List UInt8} {g : Globals} {inner : ℕ → ℕ}

/-- The first bit of the text belongs to the first code. -/
theorem Coded.pending (h : Coded file g inner) (pad : List ℕ) {s : State}
    (heof : s.eof = (dictChars g.length g.maxlev).length)
    (hchars : ∀ i < s.eof, s.characters i = (dictionary g).getD i 0) :
    Pending inner (leafCount g.length) g.maxlev (start g) s
      ((file.flatMap fun c => codeBits g inner c.toNat) ++ codeBits g inner END ++ pad)
      file 1 0 := by
  have hleaf : ∀ c ≤ END, 1 ≤ g.length c → 1 ≤ (leafOf g c).1 ∧ (leafOf g c).1 ≤ g.maxlev ∧
      (leafOf g c).2 < leafCount g.length (leafOf g c).1 :=
    fun c hc h1 => ⟨h1, h.length_le c hc, rank_lt hc h1⟩
  have hend : start g (leafOf g END).1 + (leafOf g END).2 = s.eof := by
    obtain ⟨m, hm⟩ : ∃ m, g.maxlev = m + 1 := ⟨g.maxlev - 1, by have := h.maxlev_pos; omega⟩
    have hlast := length_dictChars_last g.length (n := m) (by rw [h.length_end, hm])
    have hrank := rank_end h.length_end_pos
    rw [h.length_end, hm] at hrank
    simp only [leafOf, start, h.length_end, heof]
    rw [hm, Nat.add_sub_cancel]
    omega
  have hchar : ∀ c ∈ file, start g (leafOf g c.toNat).1 + (leafOf g c.toNat).2 < s.eof ∧
      s.characters (start g (leafOf g c.toNat).1 + (leafOf g c.toNat).2) = c := by
    intro c hc
    have hlt : c.toNat < END := c.toNat_lt
    have hget := dictChars_getElem? hlt (h.occurs c hc) (h.length_le c.toNat hlt.le)
    have hpos : start g (leafOf g c.toNat).1 + (leafOf g c.toNat).2 < s.eof := by
      rw [heof]
      exact (List.getElem?_eq_some_iff.mp hget).1
    refine ⟨hpos, ?_⟩
    rw [hchars _ hpos, List.getD_eq_getElem?_getD, dictionary_eq, List.getElem?_map]
    simp only [start, leafOf]
    rw [hget]
    simp
  have hall : ∀ l ∈ file.map (fun c => leafOf g c.toNat) ++ [leafOf g END],
      1 ≤ l.1 ∧ l.1 ≤ g.maxlev ∧ l.2 < leafCount g.length l.1 := by
    intro l hl
    rcases List.mem_append.mp hl with hl | hl
    · obtain ⟨c, hc, rfl⟩ := List.mem_map.mp hl
      have hlt : c.toNat < END := c.toNat_lt
      exact hleaf c.toNat hlt.le (h.occurs c hc)
    · rw [List.mem_singleton.mp hl]
      exact hleaf END le_rfl h.length_end_pos
  obtain ⟨leaf, todo, hcons⟩ : ∃ leaf todo, file.map (fun c => leafOf g c.toNat) ++ [leafOf g END] =
      leaf :: todo := List.exists_cons_of_ne_nil (by simp)
  rw [hcons] at hall
  have hfirst := hall leaf (by simp)
  refine ⟨leaf, leaf.1, todo, pad, Inside.first h.levels hfirst.1 hfirst.2.1 hfirst.2.2, ?_, hall,
    file.map (fun c => leafOf g c.toNat), leafOf g END, hcons.symm, hend, ?_, ?_⟩
  · have hbits : (file.flatMap fun c => codeBits g inner c.toNat) ++ codeBits g inner END =
        (leaf :: todo).flatMap (leafBits inner) := by
      rw [← hcons, List.flatMap_append, List.flatMap_map]
      simp only [codeBits_eq, List.flatMap_cons, List.flatMap_nil, List.append_nil]
    rw [hbits, List.flatMap_cons]
    rfl
  · intro l hl
    obtain ⟨c, hc, rfl⟩ := List.mem_map.mp hl
    exact (hchar c hc).1
  · rw [List.map_map]
    apply List.ext_getElem
    · simp
    · intro i h1 h2
      simp only [List.getElem_map, Function.comp_apply]
      exact (hchar _ (List.getElem_mem h2)).2

/-- The buffer holds the bytes that come next. -/
theorem unread_getElem? {s : State} {i : ℕ} (h : (i : ℤ) < s.inleft) :
    s.unread[i]? = some (s.inbuff (s.inp + i)) := by
  rw [State.unread, List.getElem?_append_left (by simp; omega), List.getElem?_map,
    List.getElem?_range (by omega)]
  rfl

theorem unread_drop {s : State} {n : ℕ} (h : (n : ℤ) ≤ s.inleft) :
    ({ s with inp := s.inp + n, inleft := s.inleft - n } : State).unread = s.unread.drop n := by
  obtain ⟨k, hk⟩ : ∃ k : ℕ, s.inleft = (n + k : ℕ) := ⟨s.inleft.toNat - n, by omega⟩
  have hk' : (s.inleft - n).toNat = k := by omega
  rw [State.unread, State.unread, hk', hk, Int.toNat_natCast, List.range_add, List.map_append,
    List.append_assoc, List.drop_left' (by simp), List.map_map]
  congr 1
  apply List.map_congr_left
  intro i _
  simp only [Function.comp_apply, Nat.add_assoc]

/-- The first buffer is a copy of the header. -/
theorem inbuff_header {s : State} {text : List UInt8}
    (hun : ({ s with inp := 0 } : State).unread = header g ++ text)
    (hleft : ((header g).length : ℤ) ≤ s.inleft) {i : ℕ} (hi : i < (header g).length) :
    (header g)[i]? = some (s.inbuff i) := by
  have := unread_getElem? (s := { s with inp := 0 }) (i := i) (by dsimp only; omega)
  rw [hun, List.getElem?_append_left hi, Nat.zero_add] at this
  exact this

/-- The first buffer, seen as a header. -/
structure Buffered (file : List UInt8) (g : Globals) (s : State) : Prop where
  size : headerSize s = file.length
  levels : headerLevels s = g.maxlev
  leaves : ∀ l, 1 ≤ l → l ≤ g.maxlev →
    headerLeaves s l + (if l = g.maxlev then 2 else 0) = leafCount g.length l
  dictionary : ∀ j < (dictChars g.length g.maxlev).length,
    s.inbuff (7 + g.maxlev + j) = (dictionary g).getD j 0

theorem Coded.buffered (h : Coded file g inner) (hsize : file.length < 2 ^ 32) {s : State}
    {text : List UInt8} (hun : ({ s with inp := 0 } : State).unread = header g ++ text)
    (hleft : ((header g).length : ℤ) ≤ s.inleft) : Buffered file g s := by
  have hlen := length_header h
  have hlenc := length_countBytes h
  have hmax := h.maxlev_le
  have hpos := h.maxlev_pos
  have hinsize := h.insize
  have hbuf := fun i (hi : i < (header g).length) => inbuff_header hun hleft hi
  have h2 := hbuf 2 (by omega)
  have h3 := hbuf 3 (by omega)
  have h4 := hbuf 4 (by omega)
  have h5 := hbuf 5 (by omega)
  have h6 := hbuf 6 (by omega)
  rw [header_eq] at h2 h3 h4 h5 h6
  simp only [List.cons_append, List.getElem?_cons_succ, List.getElem?_cons_zero,
    Option.some.injEq] at h2 h3 h4 h5 h6
  constructor
  · rw [headerSize, ← h2, ← h3, ← h4, ← h5, ← hinsize]
    simp only [UInt8.toNat_ofNat', Nat.shiftRight_eq_div_pow]
    omega
  · rw [headerLevels, ← h6, UInt8.toNat_ofNat']
    omega
  · intro l h1 hl
    obtain ⟨k, rfl⟩ : ∃ k, l = k + 1 := ⟨l - 1, by omega⟩
    obtain ⟨b, hb, hval⟩ := countBytes_getElem h hl
    have := hbuf (7 + k) (by omega)
    rw [header_eq, List.getElem?_append_right (by simp)] at this
    simp only [List.length_cons, List.length_nil, Nat.zero_add, Nat.reduceAdd,
      Nat.add_sub_cancel_left] at this
    rw [List.getElem?_append_left (by omega), hb, Option.some.injEq] at this
    rw [headerLeaves, show 6 + (k + 1) = 7 + k by omega, ← this]
    exact hval
  · intro j hj
    have := hbuf (7 + g.maxlev + j) (by omega)
    rw [header_eq, List.getElem?_append_right (by simp; omega)] at this
    simp only [List.length_cons, List.length_nil, Nat.zero_add, Nat.reduceAdd] at this
    rw [List.getElem?_append_right (by omega),
      show 7 + g.maxlev + j - 7 - (countBytes g).length = j by omega] at this
    rw [List.getD_eq_getElem?_getD, this]
    rfl

/-- Above the last level the counts add up to the length of the dictionary. -/
theorem Buffered.leavesUpTo_eq {s : State} (hb : Buffered file g s) (h : Coded file g inner)
    {l : ℕ} (hl : l < g.maxlev) :
    leavesUpTo (headerLeaves s) l = (dictChars g.length l).length := by
  have hend := h.length_end
  induction l with
  | zero => rfl
  | succ l ih =>
    have hcount := hb.leaves (l + 1) (by omega) (by omega)
    have hstep := length_dictChars_succ g.length (n := l) (by omega)
    rw [if_neg (by omega)] at hcount
    rw [leavesUpTo, ih (by omega)]
    omega

/-- The last count leaves out one character, and `END`. -/
theorem Buffered.headerTotal_eq {s : State} (hb : Buffered file g s) (h : Coded file g inner) :
    headerTotal s + 1 = (dictChars g.length g.maxlev).length := by
  have hpos := h.maxlev_pos
  have htwo := h.two_le_leafCount
  obtain ⟨m, hm⟩ : ∃ m, g.maxlev = m + 1 := ⟨g.maxlev - 1, by omega⟩
  have hlast := length_dictChars_last g.length (n := m) (by rw [h.length_end, hm])
  have hcount := hb.leaves g.maxlev hpos le_rfl
  rw [if_pos rfl] at hcount
  have hupto := hb.leavesUpTo_eq h (l := m) (by omega)
  rw [headerTotal, hb.levels]
  rw [hm] at hcount htwo ⊢
  rw [leavesUpTo]
  omega

/-- The dictionary of a packed file is read, and what follows it decoded. -/
theorem readDict_spec {BUFSIZ : ℕ} (hB : 0 < BUFSIZ) (h : Coded file g inner)
    (hsize : file.length < 2 ^ 32) {s : State} {text : List UInt8} {pad : List ℕ}
    (hun : ({ s with inp := 0 } : State).unread = header g ++ text)
    (hleft : ((header g).length : ℤ) ≤ s.inleft) (heof : s.eof = 0) (hwritten : s.written = [])
    (hwrite : s.writeErr = false)
    (htext : byteBits text = (file.flatMap fun c => codeBits g inner c.toNat) ++
      codeBits g inner END ++ pad) :
    (readDict BUFSIZ s).1 = .success ∧ (readDict BUFSIZ s).2.written = file := by
  have hlen := length_header h
  have hdict := length_dictChars_le g.length g.maxlev
  have hmax := h.maxlev_le
  have hEND : END = 256 := rfl
  have hbuf := h.buffered hsize hun hleft
  have hlevels := hbuf.levels
  have htotal := hbuf.headerTotal_eq h
  have hheader : headerEnd s = (header g).length := by
    rw [headerEnd]
    omega
  have hfits : DictFits s := ⟨by omega, by omega, by omega⟩
  obtain ⟨d, hread, hd⟩ := readDict_of_fits BUFSIZ heof hfits
  obtain ⟨characters, tree, intnodes, heq⟩ := hd.frame
  rw [hread, decode]
  have hdrop := unread_drop (s := { s with inp := 0 }) (n := (header g).length) hleft
  rw [hun, List.drop_left, Nat.zero_add] at hdrop
  have hunread : ({ d with outbuff := [] } : State).unread = text := by
    rw [← hdrop, heq, hheader]
    rfl
  have hdleft : d.inleft = s.inleft - (header g).length := by rw [heq, hheader]
  have heofd : d.eof = (dictChars g.length g.maxlev).length := by rw [heq, ← htotal]
  obtain ⟨leaves, hint, hlast, hleaves⟩ := hd.intnodes
  have hinner := innerNodes_spec h.levels g.maxlev leaves (by
    intro l h1 hl
    have hcount := hbuf.leaves l h1 hl
    by_cases hlm : l = g.maxlev
    · rw [hlm] at hcount ⊢
      rw [if_pos rfl] at hcount
      rw [← hcount, ← hlevels, hlast, if_pos (by omega)]
    · rw [if_neg hlm] at hcount
      rw [hleaves l (by omega), if_pos (by omega)]
      exact hcount)
  rw [h.levels.bottom, Nat.mul_zero, ← hlevels, ← hint] at hinner
  have hdec : Decoding BUFSIZ inner (leafCount g.length) g.maxlev (start g) file
      (({ d with outbuff := [] } : State).unread.flatMap fun b => toBits 8 b.toNat) 1 0
      { d with outbuff := [] } := by
    constructor
    · constructor
      · exact h.levels
      · exact hmax
      · intro l h1 hl
        exact (hinner l).trans (if_pos ⟨h1, by omega⟩)
      · intro l h1 hl
        refine (hd.tree l).trans ?_
        rw [if_pos ⟨h1, by omega⟩, hbuf.leavesUpTo_eq h (by omega)]
        rfl
      · dsimp only
        omega
    · refine ⟨[], file, rfl, ⟨?_, hB, ?_, ?_⟩, ?_⟩
      · rw [heq]
        simp [hwritten]
      · rw [heq]
        simp [hwritten, hbuf.size]
      · rw [heq]
        exact hwrite
      · have hpend := h.pending pad (s := { d with outbuff := [] }) heofd (by
          intro i hi
          have hi' : i < d.eof := hi
          refine (hd.characters i (by omega)).trans ?_
          rw [hlevels]
          exact hbuf.dictionary i (by omega))
        rw [← htext, ← hunread] at hpend
        exact hpend
  refine decodeBytes_spec hB _ 1 0 _ ?_ ?_ hdec
  · simp [State.unread]
  · dsimp only
    omega

/-- Whatever `unpack` did before, and wherever the buffers of either program end. -/
theorem getdict_output {BUFSIZ BUFSIZ' : ℕ} (hB : 288 ≤ BUFSIZ) (hB' : 288 ≤ BUFSIZ') {f : File}
    (h : Coded f.bytes g inner) (hsize : f.bytes.length < 2 ^ 32) (hread : f.outputErr = false)
    (hwrite : f.writeErr = false) :
    ∃ g' packed, output BUFSIZ f g = (.packed, g', packed) ∧
      ∀ (u : Statics) (readErr : Bool),
        let r := getdict BUFSIZ' { u with
          infile := packed, readErr, written := [], writeErr := false }
        r.1 = .success ∧ r.2.written = f.bytes := by
  obtain ⟨g', text, pad, hout, htext⟩ := output_spec hB h hread hwrite
  refine ⟨g', header g ++ text, hout, fun u readErr => ?_⟩
  have hlen := length_header h
  have hdict := length_dictChars_le g.length g.maxlev
  have hmax := h.maxlev_le
  have hEND : END = 256 := rfl
  dsimp only
  rw [getdict]
  dsimp only
  set s : State := { u with
    infile := header g ++ text, readErr, written := [], writeErr := false
    eof := 0, inbuff := update u.inbuff 6 25 } with hs
  have hne : s.infile ≠ [] := by
    rw [hs]
    simp [header]
  have hstep : s.read BUFSIZ' = { s with
      inbuff := overlay (s.infile.take BUFSIZ') s.inbuff
      inleft := (s.infile.take BUFSIZ').length
      infile := s.infile.drop BUFSIZ' } := by
    rw [State.read, if_neg (fun h => hne h.1)]
  obtain ⟨hun, hpos⟩ := unread_read (s := s) (show 0 < BUFSIZ' by omega) hne
  have hleft : ((header g).length : ℤ) ≤ (s.read BUFSIZ').inleft := by
    rw [hstep, hs]
    simp only [List.length_take, List.length_append]
    omega
  have h0 := inbuff_header hun hleft (i := 0) (by omega)
  have h1 := inbuff_header hun hleft (i := 1) (by omega)
  rw [header_eq] at h0 h1
  simp only [List.cons_append, List.getElem?_cons_succ, List.getElem?_cons_zero,
    Option.some.injEq] at h0 h1
  rw [if_neg (by omega), ← h0, ← h1, if_neg (by decide), if_neg (by decide), if_neg (by decide)]
  exact readDict_spec (by omega) h hsize hun hleft (by rw [hstep]) (by rw [hstep]) (by rw [hstep])
    htext

end Text

theorem getdict_output_prepare {BUFSIZ BUFSIZ' : ℕ} (hB : 288 ≤ BUFSIZ) (hB' : 288 ≤ BUFSIZ')
    {force : Bool} {bytes : List UInt8} {inputErr : Bool} {g₀ g : Globals}
    (htwo : ∃ a ∈ bytes, ∃ b ∈ bytes, a ≠ b) (hsize : bytes.length < 2 ^ 32)
    (hreach : prepare BUFSIZ force ⟨bytes, inputErr, false, false⟩ g₀ = (none, g)) :
    ∃ g' packed, packfile BUFSIZ force ⟨bytes, inputErr, false, false⟩ g₀ = (.packed, g', packed) ∧
      ∀ (u : Statics) (readErr : Bool),
        let r := getdict BUFSIZ' { u with
          infile := packed, readErr, written := [], writeErr := false }
        r.1 = .success ∧ r.2.written = bytes := by
  obtain ⟨a, ha, _⟩ := htwo
  obtain ⟨inner, hcoded⟩ := prepare_coded (List.ne_nil_of_mem ha) hreach
  rw [packfile, hreach]
  exact getdict_output hB hB' hcoded hsize rfl rfl

/-- Packing and unpacking. What reaches `output` is packed, and comes back byte by byte; the
header and the largest dictionary fit a buffer of 288 bytes. -/
theorem getdict_packfile (BUFSIZ BUFSIZ' : ℕ) (hB : 288 ≤ BUFSIZ) (hB' : 288 ≤ BUFSIZ')
    (force : Bool) (bytes : List UInt8) (inputErr : Bool) (g₀ g : Globals)
    (htwo : ∃ a ∈ bytes, ∃ b ∈ bytes, a ≠ b) (hsize : bytes.length < 2 ^ 32)
    (hreach : prepare BUFSIZ force ⟨bytes, inputErr, false, false⟩ g₀ = (none, g)) :
    ∃ g' packed, packfile BUFSIZ force ⟨bytes, inputErr, false, false⟩ g₀ = (.packed, g', packed) ∧
      ∀ (u : Statics) (readErr : Bool),
        let r := getdict BUFSIZ' { u with
          infile := packed, readErr, written := [], writeErr := false }
        r.1 = .success ∧ r.2.written = bytes :=
  getdict_output_prepare hB hB' htwo hsize hreach

/-- Two characters, packed with `-f` and read back through buffers of different sizes. -/
theorem getdict_packfile_ab :
    ∃ g' packed, packfile 512 true ⟨[97, 98], false, false, false⟩ Globals.loaded =
        (.packed, g', packed) ∧
      ∀ (u : Statics) (readErr : Bool),
        let r := getdict 1024 { u with
          infile := packed, readErr, written := [], writeErr := false }
        r.1 = .success ∧ r.2.written = [97, 98] := by
  have hreach : (prepare 512 true ⟨[97, 98], false, false, false⟩ Globals.loaded).1 = none := by
    decide +kernel
  have hpair : ∀ p : Option Outcome × Globals, p.1 = none → p = (none, p.2) := by
    rintro ⟨_, _⟩ rfl
    rfl
  exact getdict_packfile 512 1024 (by decide) (by decide) true [97, 98] false Globals.loaded _
    ⟨97, by decide, 98, by decide, by decide⟩ (by decide) (hpair _ hreach)

end Unitas.Pack
