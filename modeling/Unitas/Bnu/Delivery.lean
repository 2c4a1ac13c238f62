import Unitas.Bnu.Getpack

/-! A packet that `pkwrite` and `pkxstart` make comes out of `pkread` as it went in, and a control
message comes to `pkcntl`. -/
namespace Unitas.Bnu
open Function

/-! ### The header -/

theorem sum_eq (s : BitVec 16) :
    (s.setWidth 8).setWidth 16 ||| ((s >>> 8).setWidth 8).signExtend 16 <<< 8 = s := by
  ext i hi
  simp only [BitVec.getElem_or, BitVec.getElem_setWidth, BitVec.getElem_shiftLeft]
  by_cases h : i < 8
  · simp [h, BitVec.getLsbD_eq_getElem hi]
  · have h1 : i - 8 < 8 := by omega
    have h2 : 8 + (i - 8) = i := by omega
    simp [h, h1, h2, BitVec.getElem_signExtend, BitVec.getLsbD_eq_getElem hi]

theorem pkcget_append (pk : Pack) (l rest : List UInt8) :
    pkcget l.length ⟨pk, l ++ rest⟩ = (some l, ⟨pk, rest⟩) := by
  unfold pkcget
  rw [if_pos (by simp)]
  simp

theorem length_header (f : Frame) : (f.header.map UInt8.ofBitVec).length = HDRSIZ := rfl

theorem findHeader_bytes (fuel : ℕ) (pk : Pack) (f : Frame) (rest : List UInt8) :
    findHeader (fuel + 1) 0 ⟨pk, f.bytes ++ rest⟩ =
      (some (f.header.map UInt8.ofBitVec), ⟨pk, f.body ++ rest⟩) := by
  unfold findHeader Frame.bytes
  rw [List.append_assoc, ← length_header f, pkcget_append]
  rfl

/-- What `getHeader` makes of the header of a packet. -/
theorem getHeader_bytes (f : Frame) (hk : f.ksize < 10) (r : Reader) :
    getHeader (f.header.map UInt8.ofBitVec) r =
      let r := { r with pk := { r.pk with connodata := r.pk.connodata + 1 } }
      if f.ksize = 9 then
        (true, if f.sum + f.cntl.signExtend 16 = CHECK then { r with pk := pkcntl f.cntl r.pk }
          else r)
      else if f.ksize ≠ 0 ∧ pksizes.getD f.ksize 0 ≠ r.pk.rsize then (true, r)
      else getData f.cntl f.sum r := by
  have hk' : (BitVec.ofNat 8 f.ksize).toNat = f.ksize := by
    rw [BitVec.toNat_ofNat]
    omega
  unfold getHeader Frame.header
  simp only [List.map_cons, List.map_nil, List.getD_cons_zero, List.getD_cons_succ]
  rw [if_neg (not_not.mpr rfl), hk', sum_eq]

/-- A packet that is read at the first try. -/
theorem pkgetpack_bytes {pk : Pack} (hdown : pk.down = false) (hdata : pk.connodata ≤ CONNODATA)
    (htime : pk.ntimeout ≤ NTIMEOUT) {f : Frame} {rest : List UInt8} {r : Reader}
    (hget : getHeader (f.header.map UInt8.ofBitVec) ⟨pk, f.body ++ rest⟩ = (true, r)) :
    pkgetpack ⟨pk, f.bytes ++ rest⟩ = some r := by
  have hup : ¬ (pk.down ∨ CONNODATA < pk.connodata ∨ NTIMEOUT < pk.ntimeout) := by
    simp [hdown]
    omega
  unfold pkgetpack
  rw [if_neg hup]
  unfold GETRIES getTries
  rw [findHeader_bytes]
  dsimp only
  rw [hget]

/-- A control message comes to `pkcntl`. -/
theorem pkgetpack_cntl (pk : Pack) (hdown : pk.down = false) (hdata : pk.connodata ≤ CONNODATA)
    (htime : pk.ntimeout ≤ NTIMEOUT) (c : BitVec 8) (rest : List UInt8) :
    pkgetpack ⟨pk, (Frame.mk 9 (CHECK - c.signExtend 16) c []).bytes ++ rest⟩ =
      some ⟨pkcntl c { pk with connodata := pk.connodata + 1 }, rest⟩ := by
  apply pkgetpack_bytes hdown hdata htime
  rw [getHeader_bytes _ (by dsimp only; omega)]
  dsimp only
  rw [if_pos rfl, if_pos (BitVec.sub_add_cancel _ _), List.nil_append]

/-! ### The data -/

theorem pad_short {n : ℕ} (hn : n < 128) : (UInt8.ofNat n).toNat = n ∧ UInt8.ofNat n &&& 128 = 0 := by
  have hall : ∀ n : Fin 128, (UInt8.ofNat n).toNat = n ∧ UInt8.ofNat n &&& 128 = 0 := by decide
  exact hall ⟨n, hn⟩

theorem pad_long {n : ℕ} (hn : n < 128) : (UInt8.ofNat n ||| 128) &&& 128 ≠ 0 ∧
    ((UInt8.ofNat n ||| 128) &&& 127).toNat = n := by
  have hall : ∀ n : Fin 128, (UInt8.ofNat n ||| 128) &&& 128 ≠ 0 ∧
      ((UInt8.ofNat n ||| 128) &&& 127).toNat = n := by decide
  exact hall ⟨n, hn⟩

theorem pad_high {n : ℕ} (hn : n < 128) : (UInt8.ofNat n).toBitVec.toInt = n := by
  have hall : ∀ n : Fin 128, (UInt8.ofNat n).toBitVec.toInt = n := by decide
  exact hall ⟨n, hn⟩

/-- The size of a packet is right, and what is in it can be found. -/
theorem pkfill_eq {xsize : ℕ} (hsize : xsize ≤ 4096) {ibuf : List UInt8}
    (hlen : ibuf.length ≤ xsize) (junk : ℕ → UInt8) :
    (pkfill xsize ibuf junk).length = xsize ∧
    (ibuf.length < xsize →
      (padCount (pkfill xsize ibuf junk)).1 = xsize - ibuf.length ∧
      ((pkfill xsize ibuf junk).drop (padCount (pkfill xsize ibuf junk)).2).take ibuf.length =
        ibuf) ∧
    (ibuf.length = xsize → pkfill xsize ibuf junk = ibuf) := by
  unfold pkfill
  by_cases hshort : ibuf.length < xsize
  · rw [if_pos hshort]
    dsimp only
    by_cases hlong : 127 < xsize - ibuf.length
    · rw [if_pos hlong]
      obtain ⟨hbit, hlow⟩ := @pad_long ((xsize - ibuf.length) % 128) (Nat.mod_lt _ (by decide))
      have hhigh := @pad_high ((xsize - ibuf.length) / 128) (by omega)
      obtain ⟨n, rfl⟩ : ∃ n, xsize = n + 2 := ⟨xsize - 2, by omega⟩
      refine ⟨?_, fun _ => ?_, fun h => absurd h (by omega)⟩
      · simp
        omega
      · unfold padCount
        simp only [List.cons_append, List.nil_append, List.take_succ_cons, List.getD_cons_zero,
          List.getD_cons_succ]
        rw [if_pos hbit, hlow, hhigh]
        refine ⟨by omega, ?_⟩
        simp only [List.drop_succ_cons, List.drop_zero]
        rw [List.take_take, min_eq_left (by omega), List.take_append_of_le_length le_rfl,
          List.take_length]
    · rw [if_neg hlong]
      obtain ⟨hlow, hbit⟩ := @pad_short ((xsize - ibuf.length) % 128) (Nat.mod_lt _ (by decide))
      obtain ⟨n, rfl⟩ : ∃ n, xsize = n + 1 := ⟨xsize - 1, by omega⟩
      refine ⟨?_, fun _ => ?_, fun h => absurd h (by omega)⟩
      · simp
        omega
      · unfold padCount
        simp only [List.cons_append, List.nil_append, List.take_succ_cons, List.getD_cons_zero]
        rw [if_neg (not_not.mpr hbit), hlow]
        refine ⟨by omega, ?_⟩
        simp only [List.drop_succ_cons, List.drop_zero]
        rw [List.take_take, min_eq_left (by omega), List.take_append_of_le_length le_rfl,
          List.take_length]
  · rw [if_neg hshort, List.take_of_length_le hlen]
    exact ⟨by omega, fun h => absurd h hshort, fun _ => rfl⟩

/-! ### The reader -/

/-- Nothing but what it sends is changed by an acknowledgement. -/
theorem pksack_eq (pk : Pack) : ∃ c o n s,
    pksack pk = { pk with connodata := c, os := o, xcount := n, ps := s } := by
  have hfrom : ∀ (n : ℕ) (x : Fin 8) (pk : Pack), ∃ c o n' s,
      pksackFrom n x pk = { pk with connodata := c, os := o, xcount := n', ps := s } := by
    intro n
    induction n with
    | zero => exact fun x pk => ⟨_, _, _, _, rfl⟩
    | succ n ih =>
      intro x pk
      unfold pksackFrom
      dsimp only
      split_ifs
      · obtain ⟨c, o, n', s, h⟩ := ih (x + 1) { pk with
          connodata := 0, os := update pk.os (x + 1) 0, xcount := pk.xcount - 1, ps := x + 1 }
        exact ⟨c, o, n', s, h⟩
      · exact ih (x + 1) pk
  exact hfrom _ _ pk

/-- The line is up, and no packet is waiting. -/
structure Idle (pk : Pack) : Prop where
  live : pk.live = true
  draino : pk.draino = false
  down : pk.down = false
  connodata : pk.connodata ≤ CONNODATA
  ntimeout : pk.ntimeout ≤ NTIMEOUT
  rwindow_pos : 1 ≤ pk.rwindow
  rwindow_le : pk.rwindow ≤ 7
  ipool : pk.ipool ≠ []
  imap : ∀ x, pk.imap x = false
  rcount : pk.rcount = 0
  is : ∀ x, pk.is x = 0

theorem window_first {w : ℕ} (hpos : 1 ≤ w) (hle : w ≤ 7) (pr : Fin 8) :
    Slots.window w pr (pr + 1) = true := by
  have hall : ∀ w : Fin 8, 1 ≤ w.val → ∀ pr : Fin 8, Slots.window w.val pr (pr + 1) = true := by
    decide
  exact hall ⟨w, by omega⟩ hpos pr

/-- The data packet that is behind a header goes into the slot before its own. -/
theorem getData_eq {pk : Pack} (h : Idle pk) (n : ℕ) (c : BitVec 8) (sum : BitVec 16) {body : List UInt8}
    (hbody : body.length = pk.rsize) (rest : List UInt8) :
    ∃ pk' bp, getData c sum ⟨{ pk with connodata := n }, body ++ rest⟩ = (true, ⟨pk', rest⟩) ∧
      pk'.rsize = pk.rsize ∧ pk'.rwindow = pk.rwindow ∧ pk'.pr = pk.pr ∧ pk'.rcount = 0 ∧
      pk'.imap = update (fun _ => false) pk.pr true ∧
      pk'.is = update (fun _ => 0) pk.pr c ∧ pk'.isum pk.pr = sum.toInt ∧
      pk'.ib pk.pr = ⟨bp, body⟩ := by
  obtain ⟨k, o, m, s, hsack⟩ := pksack_eq { pk with connodata := n, rpr := valOf c }
  unfold getData
  rw [hsack]
  dsimp only
  have his : pk.is = fun _ => 0 := funext h.is
  have himap : pk.imap = fun _ => false := funext h.imap
  cases hpool : pk.ipool with
  | nil => exact absurd hpool h.ipool
  | cons bp ipool =>
    dsimp only
    rw [← hbody, pkcget_append]
    dsimp only
    unfold pkdata
    rw [if_neg (by simp [h.live, h.draino])]
    have hfind : (Slots.places pk.pr).find? (fun x => decide (pk.is x = 0)) = some pk.pr := by
      rw [his]
      rfl
    dsimp only
    rw [hfind]
    dsimp only
    exact ⟨_, bp, rfl, rfl, rfl, rfl, h.rcount, by rw [himap], by rw [his],
      update_self _ _ _, update_self _ _ _⟩

/-! ### Accepting -/

theorem foldl_examine (m : Fin 8 → Bool) (x : Fin 8) {l : List (Fin 8)} (hl : l.Nodup)
    (a : Accept) : l.foldl (examine m (update (fun _ => false) x true)) a =
      if x ∈ l then examine m (update (fun _ => false) x true) a x else a := by
  induction l generalizing a with
  | nil => rfl
  | cons y l ih =>
    obtain ⟨hy, hl⟩ := List.nodup_cons.mp hl
    rw [List.foldl_cons, ih hl]
    by_cases hxy : x = y
    · rw [hxy, if_neg hy, if_pos List.mem_cons_self]
    · have hskip : examine m (update (fun _ => false) x true) a y = a := by
        unfold examine
        rw [update_of_ne (Ne.symm hxy), if_pos Bool.false_ne_true]
      rw [hskip]
      simp only [List.mem_cons, hxy, false_or]

theorem sub_ofNat {n : ℕ} (hn : n < 7) (seq : Fin 8) : seq - Fin.ofNat 8 (n + 1) ≠ seq ∧
    seq - Fin.ofNat 8 (n + 1) + 1 = seq - Fin.ofNat 8 n := by
  have hall : ∀ n : Fin 7, ∀ seq : Fin 8, seq - Fin.ofNat 8 (n.val + 1) ≠ seq ∧
      seq - Fin.ofNat 8 (n.val + 1) + 1 = seq - Fin.ofNat 8 n.val := by decide
  exact hall ⟨n, hn⟩ seq

/-- There is nothing after the only packet. -/
theorem scan_empty (m : Fin 8 → Bool) {seq : Fin 8} {a : Accept}
    (h : ∀ x, x ≠ seq → a.pk.is x = 0) (n : ℕ) : ∀ (gap : Bool) (accept : ℕ), n ≤ 7 →
    scan m n (seq - Fin.ofNat 8 n) gap accept a =
      { a with pk := { a.pk with rcount := accept } } := by
  induction n with
  | zero => exact fun _ _ _ => rfl
  | succ n ih =>
    intro gap accept hn
    obtain ⟨hne, hsucc⟩ := sub_ofNat (by omega : n < 7) seq
    unfold scan
    rw [h _ hne, hsucc]
    dsimp only
    rw [if_neg (by decide : ¬ (0 : BitVec 8) &&& B_MARK ≠ 0)]
    rw [h _ hne]
    rw [if_neg (by decide : ¬ (0 : BitVec 8) &&& B_COPY ≠ 0)]
    split_ifs
    · exact ih true accept (by omega)
    · rfl

theorem ne_next (x : Fin 8) : x ≠ x + 1 := by
  revert x
  decide

/-- The flags of a packet that has been marked. -/
def markFlags (c : BitVec 8) : BitVec 8 := if c &&& B_SHORT ≠ 0 then B_MARK + B_SHORT else B_MARK

/-- The only packet goes to the next slot. -/
theorem mark_eq (c f : BitVec 8) {pk : Pack} (his : pk.is = update (fun _ => 0) pk.pr f) :
    (pk.mark c pk.pr (pk.pr + 1)).pr = pk.pr ∧
      (pk.mark c pk.pr (pk.pr + 1)).ib (pk.pr + 1) = pk.ib pk.pr ∧
      (pk.mark c pk.pr (pk.pr + 1)).is = update (fun _ => 0) (pk.pr + 1) (markFlags c) ∧
      (pk.mark c pk.pr (pk.pr + 1)).isum (pk.pr + 1) =
        if c &&& B_SHORT ≠ 0 then pk.rsize - (padCount (pk.ib pk.pr).bytes).1 else pk.rsize := by
  have hne := ne_next pk.pr
  have hempty : pk.is (pk.pr + 1) = 0 := by
    rw [his, update_of_ne (Ne.symm hne)]
  have hflags (g : BitVec 8) : update (update pk.is pk.pr 0) (pk.pr + 1) g =
      update (fun _ => 0) (pk.pr + 1) g := by
    funext y
    by_cases hy : y = pk.pr + 1
    · rw [hy, update_self, update_self]
    · rw [update_of_ne hy, update_of_ne hy]
      by_cases hy' : y = pk.pr
      · rw [hy', update_self]
      · rw [update_of_ne hy', his, update_of_ne hy']
  unfold Pack.mark markFlags
  rw [if_pos hne, hempty]
  split_ifs
  · refine ⟨rfl, update_self _ _ _, hflags _, ?_⟩
    dsimp only
    rw [update_self, update_self]
  · exact ⟨rfl, update_self _ _ _, hflags _, update_self _ _ _⟩

/-- The flags of a packet that can be copied. -/
def copyFlags (c : BitVec 8) : BitVec 8 := markFlags c ||| B_COPY

theorem flags_eq (c : BitVec 8) : markFlags c &&& B_MARK ≠ 0 ∧ copyFlags c &&& B_COPY ≠ 0 ∧
    copyFlags c &&& B_RESID = 0 ∧ (copyFlags c &&& B_SHORT ≠ 0 ↔ c &&& B_SHORT ≠ 0) := by
  unfold copyFlags markFlags
  split_ifs with h
  · exact ⟨by decide, by decide, by decide, iff_of_true (by decide) h⟩
  · exact ⟨by decide, by decide, by decide, iff_of_false (by decide) h⟩

/-- A packet that has been marked can be copied. -/
theorem scan_eq {m : Fin 8 → Bool} {seq : Fin 8} (hm : m seq = true) {a : Accept} {c : BitVec 8}
    (his : a.pk.is = update (fun _ => 0) seq (markFlags c)) :
    scan m 8 seq false 0 a = { a with pk := { a.pk with
      rcount := 1, is := update (fun _ => 0) seq (copyFlags c) } } := by
  obtain ⟨hmark, hcopy, -, -⟩ := flags_eq c
  have hself : a.pk.is seq = markFlags c := by
    rw [his]
    exact update_self _ _ _
  have hupd : update a.pk.is seq (markFlags c ||| B_COPY) =
      update (fun _ => 0) seq (copyFlags c) := by
    rw [his, update_idem]
    rfl
  have hstart : ∀ x : Fin 8, x + 1 = x - Fin.ofNat 8 7 := by decide
  have hset : update (fun _ => (0 : BitVec 8)) seq (copyFlags c) seq &&& B_COPY ≠ 0 := by
    rw [update_self]
    exact hcopy
  unfold scan
  rw [hm, if_neg (not_not.mpr rfl), hself, if_pos hmark, hupd]
  dsimp only
  rw [if_pos hset, if_neg Bool.false_ne_true, hstart]
  refine scan_empty m (fun x hx => ?_) 7 false (0 + 1) le_rfl
  dsimp only
  rw [update_of_ne hx]

theorem accept_eq {pk : Pack} {c : BitVec 8} (hpos : 1 ≤ pk.rwindow) (hle : pk.rwindow ≤ 7)
    (himap : pk.imap = update (fun _ => false) pk.pr true)
    (his : pk.is = update (fun _ => 0) pk.pr c) (hdata : c &&& DATA ≠ 0)
    (hseq : seqOf c = pk.pr + 1)
    (hsum : (chksum ((pk.ib pk.pr).bytes.take pk.rsize) ^^^ c.setWidth 16) +
      BitVec.ofInt 16 (pk.isum pk.pr) = CHECK) :
    (accept pk).rcount = 1 ∧ (accept pk).pr = pk.pr ∧
      (accept pk).ib (pk.pr + 1) = pk.ib pk.pr ∧
      (accept pk).is = update (fun _ => 0) (pk.pr + 1) (copyFlags c) ∧
      (accept pk).isum (pk.pr + 1) =
        if c &&& B_SHORT ≠ 0 then pk.rsize - (padCount (pk.ib pk.pr).bytes).1 else pk.rsize := by
  have hne := ne_next pk.pr
  have hc : pk.is pk.pr = c := by
    rw [his]
    exact update_self _ _ _
  have hfree : ¬ (¬ Slots.window pk.rwindow pk.pr (pk.pr + 1) = true ∨
      update pk.is pk.pr (~~~(B_COPY + B_MARK)) (pk.pr + 1) &&& (B_COPY ||| B_MARK) ≠ 0) := by
    rw [window_first hpos hle, his, update_of_ne (Ne.symm hne), update_of_ne (Ne.symm hne)]
    decide
  have hexamine : (List.finRange 8).foldl (examine (Slots.window pk.rwindow pk.pr) pk.imap)
      ⟨{ pk with imap := fun _ => false }, false, false⟩ =
      ⟨Pack.mark c pk.pr (pk.pr + 1) { pk with
        imap := fun _ => false, is := update pk.is pk.pr (~~~(B_COPY + B_MARK)) }, false, false⟩ := by
    rw [himap, foldl_examine _ _ (List.nodup_finRange 8), if_pos (List.mem_finRange _)]
    unfold examine
    rw [update_self, if_neg (by decide)]
    dsimp only
    rw [hc, if_neg hdata, if_neg (not_not.mpr hsum), hseq, if_neg hfree]
  obtain ⟨hpr, hib, hflags, hisum⟩ := @mark_eq c (~~~(B_COPY + B_MARK)) { pk with
    imap := fun _ => false, is := update pk.is pk.pr (~~~(B_COPY + B_MARK)) }
    (by rw [his, update_idem])
  unfold accept
  dsimp only
  rw [hexamine, scan_eq (window_first hpos hle pk.pr) hflags]
  exact ⟨rfl, hpr, hib, rfl, hisum⟩

/-! ### Copying -/

/-- The only packet is copied, as far as it is asked for. -/
theorem copyLoop_eq {pk : Pack} {flags : BitVec 8} {data : List UInt8}
    (his : pk.is = update (fun _ => 0) (pk.pr + 1) flags) (hcopy : flags &&& B_COPY ≠ 0)
    (hisum : pk.isum (pk.pr + 1) = data.length)
    (hdata : ((pk.ib (pk.pr + 1)).bytes.drop (pk.cp (pk.pr + 1))).take data.length = data)
    (icount : ℕ) : ∃ pk', copyLoop 9 icount false pk = some (data.take icount, pk') := by
  have hflags : pk.is (pk.pr + 1) = flags := by
    rw [his]
    exact update_self _ _ _
  unfold copyLoop
  dsimp only
  rw [hflags, hisum]
  by_cases hzero : icount = 0
  · rw [hzero]
    exact ⟨pk, rfl⟩
  · rw [if_neg]
    swap
    · rintro (h | h | h)
      · exact hzero h
      · exact hcopy h
      · exact absurd h.2 (by decide)
    by_cases hempty : data = []
    · rw [hempty, if_neg (by simp), if_pos (by simp), List.take_nil]
      exact ⟨_, rfl⟩
    · have hpos := List.length_pos_of_ne_nil hempty
      have hcc : min (data.length : ℤ) icount = ((min data.length icount : ℕ) : ℤ) := by omega
      rw [hcc, if_neg (by omega), if_neg (by omega), Int.toNat_natCast]
      have htake : ((pk.ib (pk.pr + 1)).bytes.drop (pk.cp (pk.pr + 1))).take
          (min data.length icount) = data.take icount := by
        rw [min_comm, ← List.take_take, hdata]
      rw [htake]
      -- the packet is done with, or the caller has all that it wants
      have hrest : ∃ pk', copyLoop 8 (icount - min data.length icount) true
          (pk.copied (pk.pr + 1) ((min data.length icount : ℕ) : ℤ)) = some ([], pk') := by
        refine ⟨pk.copied (pk.pr + 1) ((min data.length icount : ℕ) : ℤ), ?_⟩
        unfold copyLoop
        refine if_pos ?_
        by_cases hall : data.length ≤ icount
        · refine Or.inr (Or.inl ?_)
          unfold Pack.copied
          dsimp only
          rw [hisum, min_eq_left hall, if_pos (Int.sub_self _)]
          dsimp only
          unfold Pack.release
          dsimp only
          rw [his, update_idem, update_of_ne (Ne.symm (ne_next _))]
          decide
        · exact Or.inl (by omega)
      obtain ⟨pk', hpk'⟩ := hrest
      refine ⟨pk', ?_⟩
      rw [hpk']
      exact congrArg (fun l => some (l, pk')) (List.append_nil _)

/-! ### A packet and what comes of it -/

theorem cntl_eq (pr x : Fin 8) :
    let c := BitVec.ofNat 8 (128 + pr + x * 8)
    (c &&& DATA ≠ 0 ∧ seqOf c = x ∧ c &&& B_SHORT = 0) ∧
      (c ||| B_SHORT) &&& DATA ≠ 0 ∧ seqOf (c ||| B_SHORT) = x ∧ (c ||| B_SHORT) &&& B_SHORT ≠ 0 := by
  revert pr x
  decide

/-- The packet that has been stored, as it is sent. -/
theorem sendData_pkstore (pk : Pack) (ibuf : List UInt8) (junk : ℕ → UInt8) :
    ∃ c, (sendData (pk.pscopy + 1) (pkstore ibuf junk pk)).ofn = pk.ofn ++
        [⟨pk.lpsize, CHECK - (chksum (pkfill pk.xsize ibuf junk) ^^^ c.setWidth 16), c,
          (pkfill pk.xsize ibuf junk).take pk.xsize⟩] ∧
      c &&& DATA ≠ 0 ∧ seqOf c = pk.pscopy + 1 ∧
      (c &&& B_SHORT ≠ 0 ↔ ibuf.length < pk.xsize) := by
  obtain ⟨⟨hdata, hseq, hfull⟩, hdata', hseq', hshort'⟩ := cntl_eq pk.pr (pk.pscopy + 1)
  unfold sendData pkstore
  dsimp only
  rw [update_self]
  by_cases hshort : ibuf.length < pk.xsize
  · refine ⟨_, ?_, hdata', hseq', iff_of_true hshort' hshort⟩
    rw [if_pos hshort, if_pos (by decide)]
    unfold pkxstartData
    dsimp only
    rw [update_self, update_self]
  · refine ⟨_, ?_, hdata, hseq, iff_of_false (not_not.mpr hfull) hshort⟩
    rw [if_neg hshort, if_neg (by decide)]
    unfold pkxstartData
    dsimp only
    rw [update_self, update_self]

/-- A reader that has a packet of the right size and with the right sums. -/
theorem pkread_frame {pk : Pack} (h : Idle pk) {f : Frame} (hk : 1 ≤ f.ksize ∧ f.ksize ≤ 8)
    (hsize : pksizes.getD f.ksize 0 = pk.rsize) (hbody : f.body.length = pk.rsize)
    (hdata : f.cntl &&& DATA ≠ 0) (hseq : seqOf f.cntl = pk.pr + 1)
    (hsum : f.sum = CHECK - (chksum f.body ^^^ f.cntl.setWidth 16)) {data : List UInt8}
    (hshort : f.cntl &&& B_SHORT ≠ 0 → (padCount f.body).1 = pk.rsize - data.length ∧
      (f.body.drop (padCount f.body).2).take data.length = data)
    (hfull : f.cntl &&& B_SHORT = 0 → f.body = data) (icount : ℕ) (rest : List UInt8) :
    ∃ r', pkread 3 icount ⟨pk, f.bytes ++ rest⟩ = some (data.take icount, r') ∧ r'.ifn = rest := by
  obtain ⟨pk', bp, hget, hrsize, hrwindow, hpr, hrcount, himap, his, hisum, hib⟩ :=
    getData_eq h (pk.connodata + 1) f.cntl f.sum hbody rest
  have hpack : pkgetpack ⟨pk, f.bytes ++ rest⟩ = some ⟨pk', rest⟩ := by
    apply pkgetpack_bytes h.down h.connodata h.ntimeout
    rw [getHeader_bytes f (by omega)]
    dsimp only
    rw [if_neg (by omega), if_neg (fun hne => hne.2 hsize), hget]
  have hwait : waitInput 2 ⟨pk, f.bytes ++ rest⟩ = some ⟨pk', rest⟩ := by
    rw [waitInput, if_pos ⟨h.imap, h.rcount⟩, hpack, Option.bind_some, waitInput, if_neg]
    intro hnone
    have hnone' := hnone.1 pk.pr
    dsimp only at hnone'
    rw [himap, update_self] at hnone'
    exact absurd hnone' (by decide)
  have hlen : (pk'.ib pk'.pr).bytes.take pk'.rsize = f.body := by
    rw [hpr, hib, hrsize, ← hbody]
    exact List.take_length
  obtain ⟨haccept, hapr, haib, hais, haisum⟩ := @accept_eq pk' f.cntl (hrwindow ▸ h.rwindow_pos)
    (hrwindow ▸ h.rwindow_le) (by rw [hpr]; exact himap) (by rw [hpr]; exact his) hdata
    (by rw [hpr]; exact hseq) (by
      rw [hlen, hpr, hisum, BitVec.ofInt_toInt, hsum, BitVec.add_comm]
      exact BitVec.sub_add_cancel _ _)
  obtain ⟨-, hcopy, hresid, hshortflag⟩ := flags_eq f.cntl
  rw [hpr] at hapr hais
  rw [hpr, hib] at haib haisum
  have hself : (accept pk').is (pk.pr + 1) = copyFlags f.cntl := by
    rw [hais]
    exact update_self _ _ _
  have hcount : (accept pk').isum (pk.pr + 1) = data.length ∧
      (((accept pk').ib (pk.pr + 1)).bytes.drop ((accept pk').cp (pk.pr + 1))).take data.length =
        data := by
    unfold Pack.cp
    rw [haisum, haib, hself, if_neg (not_not.mpr hresid)]
    by_cases hs : f.cntl &&& B_SHORT ≠ 0
    · obtain ⟨hcc, htake⟩ := hshort hs
      rw [if_pos hs, if_pos (hshortflag.mpr hs), hrsize]
      exact ⟨by dsimp only; omega, htake⟩
    · rw [if_neg hs, if_neg fun h => hs (hshortflag.mp h), hrsize]
      have hfull' := hfull (not_not.mp hs)
      rw [hfull'] at hbody
      refine ⟨by omega, ?_⟩
      dsimp only
      rw [hfull', List.drop_zero, List.take_length]
  obtain ⟨pk'', hcopied⟩ := @copyLoop_eq { accept pk' with connodata := 0 } (copyFlags f.cntl) data
    (by dsimp only; rw [hapr]; exact hais) hcopy (by dsimp only; rw [hapr]; exact hcount.1)
    (by dsimp only; rw [hapr]; exact hcount.2) icount
  have haccepted : waitAccept 3 ⟨pk, f.bytes ++ rest⟩ = some ⟨accept pk', rest⟩ := by
    unfold waitAccept
    rw [hwait]
    refine (if_neg ?_ :)
    dsimp only
    rw [haccept]
    decide
  refine ⟨⟨pkoutput pk'', rest⟩, ?_, rfl⟩
  unfold pkread
  rw [haccepted]
  dsimp only [bind, Option.bind]
  rw [hcopied]

/-- What goes into a packet comes out of it, and a control message comes to `pkcntl`. The first part
is for a reader that waits for the number of the packet, and asks for `icount` bytes. -/
theorem pkread_pkwrite :
    (∀ (pk : Pack), 1 ≤ pk.lpsize → pk.lpsize ≤ 8 → pk.xsize = pksizes.getD pk.lpsize 0 →
      ∀ (ibuf : List UInt8) (junk : ℕ → UInt8), ibuf.length ≤ pk.xsize →
      ∃ f, (sendData (pk.pscopy + 1) (pkstore ibuf junk pk)).ofn = pk.ofn ++ [f] ∧
        ∀ r, Idle r → r.rsize = pk.xsize → r.pr + 1 = pk.pscopy + 1 →
        ∀ (icount : ℕ) (rest : List UInt8), ∃ fuel r',
          pkread fuel icount ⟨r, f.bytes ++ rest⟩ = some (ibuf.take icount, r') ∧ r'.ifn = rest) ∧
    ∀ (pk : Pack) (c : BitVec 8), ∃ f, (pkxstart c pk).ofn = pk.ofn ++ [f] ∧
      ∀ r : Pack, r.down = false → r.connodata ≤ CONNODATA → r.ntimeout ≤ NTIMEOUT →
      ∀ rest : List UInt8, pkgetpack ⟨r, f.bytes ++ rest⟩ =
        some ⟨pkcntl c { r with connodata := r.connodata + 1 }, rest⟩ := by
  constructor
  · intro pk hpos hle hxsize ibuf junk hlen
    have hmax : pk.xsize ≤ 4096 := by
      have hall : ∀ k : Fin 9, pksizes.getD k.val 0 ≤ 4096 := by decide
      rw [hxsize]
      exact hall ⟨pk.lpsize, by omega⟩
    obtain ⟨hfill, hshort, hfull⟩ := pkfill_eq hmax hlen junk
    have htake : (pkfill pk.xsize ibuf junk).take pk.xsize = pkfill pk.xsize ibuf junk :=
      List.take_of_length_le hfill.le
    obtain ⟨c, hofn, hdata, hseq, hc⟩ := sendData_pkstore pk ibuf junk
    rw [htake] at hofn
    refine ⟨_, hofn, fun r hr hrsize hpr icount rest => ?_⟩
    obtain ⟨r', hr', hrest⟩ := @pkread_frame r hr
      ⟨pk.lpsize, CHECK - (chksum (pkfill pk.xsize ibuf junk) ^^^ c.setWidth 16), c,
        pkfill pk.xsize ibuf junk⟩ ⟨hpos, hle⟩ (hxsize.symm.trans hrsize.symm)
      (hfill.trans hrsize.symm) hdata (hseq.trans hpr.symm) rfl ibuf
      (fun h => by rw [hrsize]; exact hshort (hc.mp h))
      (fun h => hfull (le_antisymm hlen (not_lt.mp fun hlt => hc.mpr hlt h))) icount rest
    exact ⟨3, r', hr', hrest⟩
  · intro pk c
    refine ⟨_, rfl, fun r hdown hdata htime rest => ?_⟩
    exact pkgetpack_cntl r hdown hdata htime c rest

/-- A line on which packets of 64 bytes go. -/
def openLine : Pack :=
  { Pack.zero with live := true, rsize := 64, xsize := 64, lpsize := 2, rwindow := 7, ipool := [0] }

theorem openLine_idle : Idle openLine :=
  ⟨rfl, rfl, rfl, by decide, by decide, by decide, by decide, by decide, fun _ => rfl, rfl,
    fun _ => rfl⟩

/-- Three bytes, and a message `RR`. -/
theorem pkread_pkwrite_three :
    (∃ f, (sendData 1 (pkstore [1, 2, 3] (fun _ => 0) openLine)).ofn = [f] ∧
      ∃ fuel r', pkread fuel 64 ⟨openLine, f.bytes ++ [16]⟩ = some ([1, 2, 3], r') ∧
        r'.ifn = [16]) ∧
    ∃ f, (pkxstart 33 openLine).ofn = [f] ∧ pkgetpack ⟨openLine, f.bytes ++ []⟩ =
      some ⟨pkcntl 33 { openLine with connodata := 1 }, []⟩ := by
  constructor
  · obtain ⟨f, hofn, hread⟩ := pkread_pkwrite.1 openLine (by decide) (by decide) (by decide)
      [1, 2, 3] (fun _ => 0) (by decide)
    exact ⟨f, hofn, hread openLine openLine_idle rfl rfl 64 [16]⟩
  · obtain ⟨f, hofn, hget⟩ := pkread_pkwrite.2 openLine 33
    exact ⟨f, hofn, hget openLine rfl (by decide) (by decide) []⟩

end Unitas.Bnu
