import Unitas.Pack.Code

/-! `output` writes the header and the codes of the characters, one bit after the other. -/
namespace Unitas.Pack
open Function Unitas.LevelCode

/-- The bits of a byte string. -/
def byteBits (bytes : List UInt8) : List ℕ := bytes.flatMap fun b => toBits 8 b.toNat

def byteValue (bytes : List UInt8) : ℕ := value 256 (bytes.map UInt8.toNat)

theorem byteValue_append (a b : List UInt8) :
    byteValue (a ++ b) = byteValue a * 256 ^ b.length + byteValue b := by
  rw [byteValue, List.map_append, value_append, List.length_map]
  rfl

theorem byteValue_lt (a : List UInt8) : byteValue a < 256 ^ a.length := by
  have := value_lt (b := 256) (l := a.map UInt8.toNat) (by
    intro d hd
    obtain ⟨c, _, rfl⟩ := List.mem_map.mp hd
    exact c.toNat_lt)
  rwa [List.length_map] at this

@[simp] theorem byteValue_singleton (b : UInt8) : byteValue [b] = b.toNat := by
  simp [byteValue, value]

theorem toBits_byteValue (a : List UInt8) : toBits (8 * a.length) (byteValue a) = byteBits a := by
  have := toBits_value (k := 8) (l := a.map UInt8.toNat) (by
    intro d hd
    obtain ⟨c, _, rfl⟩ := List.mem_map.mp hd
    exact c.toNat_lt)
  rw [List.length_map] at this
  rw [byteValue, byteBits]
  exact this.trans (List.flatMap_map ..)

/-- What is complete of the packed file. -/
def Coder.done (s : Coder) : List UInt8 := s.written ++ (List.range s.outp).map s.outbuff

/-- Of the number `V` all but the last `e` bits are out, or in the byte at `outp` and in `q`. -/
structure Spilling (head : List UInt8) (V L : ℕ) (q : List UInt8) (s : Coder) : Prop where
  exists_full : ∃ full : List UInt8, ∃ e : ℕ, s.done = head ++ full ∧
    (e : ℤ) = 8 * q.length + s.bitsleft ∧
    V * 2 ^ e = byteValue (full ++ [s.outbuff s.outp] ++ q) ∧
    (L : ℤ) + s.bitsleft = 8 * (full.length + 1)

/-- `outbuff` below `outp` is not touched by a write at or above `outp`. -/
theorem map_update_range {α : Type*} (f : ℕ → α) {k n : ℕ} (h : n ≤ k) (x : α) :
    (List.range n).map (update f k x) = (List.range n).map f := by
  apply List.map_congr_left
  intro i hi
  have := List.mem_range.mp hi
  rw [update_of_ne (by omega)]

theorem spill_spec {head : List UInt8} {V L : ℕ} :
    ∀ q s, Spilling head V L q s → s.bitsleft ≤ 7 →
      Spilling head V L [] (spill q s) ∧ 0 ≤ (spill q s).bitsleft ∧ (spill q s).bitsleft ≤ 7 ∧
        (spill q s).outp ≤ s.outp + q.length := by
  intro q
  induction q with
  | nil =>
    intro s h hle
    obtain ⟨full, e, hdone, he, hV, hL⟩ := h.exists_full
    have hnonneg : 0 ≤ s.bitsleft := by
      simp only [List.length_nil] at he
      omega
    exact ⟨h, hnonneg, hle, le_rfl⟩
  | cons b q ih =>
    intro s h hle
    obtain ⟨full, e, hdone, he, hV, hL⟩ := h.exists_full
    rw [List.length_cons] at he
    rw [spill]
    split_ifs with hneg
    · have hnext : Spilling head V L q { s with
          outbuff := update s.outbuff (s.outp + 1) b
          outp := s.outp + 1
          bitsleft := s.bitsleft + 8 } := by
        refine ⟨full ++ [s.outbuff s.outp], e, ?_, ?_, ?_, ?_⟩
        · rw [← List.append_assoc, ← hdone]
          simp only [Coder.done]
          rw [map_update_range _ le_rfl, List.range_succ, List.map_append, List.append_assoc]
          rfl
        · dsimp only
          push_cast at he ⊢
          omega
        · rw [hV]
          simp
        · dsimp only
          rw [List.length_append, List.length_singleton]
          push_cast
          omega
      obtain ⟨h1, h2, h3, h4⟩ := ih _ hnext (show s.bitsleft + 8 ≤ 7 by omega)
      refine ⟨h1, h2, h3, ?_⟩
      rw [List.length_cons]
      dsimp only at h4
      omega
    · refine ⟨⟨full, s.bitsleft.toNat, hdone, ?_, ?_, hL⟩, by omega, hle, by omega⟩
      · simp only [List.length_nil]
        omega
      · -- Nothing of the number is left for `q`.
        have hexp : e = s.bitsleft.toNat + 8 * (b :: q).length := by
          rw [List.length_cons]
          omega
        have hlt := byteValue_lt (b :: q)
        have h256 : 2 ^ (8 * (b :: q).length) = 256 ^ (b :: q).length := by rw [Nat.pow_mul]
        rw [hexp, Nat.pow_add, ← Nat.mul_assoc, byteValue_append, h256] at hV
        generalize 256 ^ (b :: q).length = m at hV hlt
        have hdiv := congrArg (· / m) hV
        rw [Nat.mul_div_cancel _ (by omega), Nat.add_comm, Nat.add_mul_div_right _ _ (by omega),
          Nat.div_eq_of_lt hlt, Nat.zero_add] at hdiv
        rw [List.append_nil]
        exact hdiv

/-- The bits in the byte at `outp`. Nothing has been put into it while it is all free. -/
def Coder.cur (s : Coder) : ℕ := if s.bitsleft = 8 then 0 else (s.outbuff s.outp).toNat

/-- The file so far is `head` and then `bits`. -/
structure Coding (BUFSIZ : ℕ) (head : List UInt8) (bits : List ℕ) (s : Coder) : Prop where
  outp_lt : s.outp < BUFSIZ
  bitsleft_nonneg : 0 ≤ s.bitsleft
  bitsleft_le : s.bitsleft ≤ 8
  exists_full : ∃ full : List UInt8, ∃ V, s.done = head ++ full ∧
    V * 2 ^ s.bitsleft.toNat = byteValue full * 256 + s.cur ∧
    bits.length + s.bitsleft.toNat = 8 * (full.length + 1) ∧ toBits bits.length V = bits

theorem maskBytes_value {mask : ℕ} (h : mask < 2 ^ 32) :
    (UInt8.ofNat (mask >>> 24)).toNat * 256 ^ 3 +
      byteValue [UInt8.ofNat (mask >>> 16), UInt8.ofNat (mask >>> 8), UInt8.ofNat (mask >>> 0)] =
      mask := by
  simp only [byteValue, value, List.map_cons, List.map_nil, List.foldl_cons, List.foldl_nil,
    UInt8.toNat_ofNat', Nat.shiftRight_eq_div_pow]
  omega

/-- The byte at `outp` has zeros where the next code goes. -/
theorem or_eq_add {cur b V full n : ℕ} (hn : n ≤ 8) (hV : V * 2 ^ n = full * 256 + cur)
    (hb : b < 2 ^ n) : cur ||| b = cur + b := by
  obtain ⟨x, hx⟩ : 2 ^ n ∣ cur := by
    have h256 : 2 ^ n ∣ full * 256 := by
      apply Dvd.dvd.mul_left
      exact pow_dvd_pow 2 hn
    have hsum : 2 ^ n ∣ full * 256 + cur := hV ▸ Dvd.intro_left V rfl
    exact (Nat.dvd_add_right h256).mp hsum
  rw [hx, ← Nat.two_pow_add_eq_or_of_lt hb]

/-- A whole buffer goes out; the few bytes above it are where the buffer starts again. -/
theorem flush_spec {BUFSIZ : ℕ} (hB : 8 ≤ BUFSIZ) {s : Coder} (hout : s.outp ≤ BUFSIZ + 3) :
    ∃ s', flush BUFSIZ false s = some s' ∧ s'.outp < BUFSIZ ∧ s'.done = s.done ∧
      s'.outbuff s'.outp = s.outbuff s.outp ∧ s'.bitsleft = s.bitsleft := by
  unfold flush
  by_cases hfull : BUFSIZ ≤ s.outp
  · rw [if_pos hfull]
    refine ⟨_, rfl, ?_, ?_, ?_, rfl⟩
    · dsimp only
      omega
    · obtain ⟨k, hk⟩ : ∃ k, s.outp = BUFSIZ + k := ⟨s.outp - BUFSIZ, by omega⟩
      simp only [Coder.done, hk, Nat.add_sub_cancel_left, List.range_add, List.map_append,
        List.map_map, List.append_assoc]
      congr 2
      apply List.map_congr_left
      intro i hi
      have := List.mem_range.mp hi
      simp [show i < 8 by omega]
    · simp [show s.outp - BUFSIZ < 8 by omega, show BUFSIZ + (s.outp - BUFSIZ) = s.outp by omega]
  · rw [if_neg hfull]
    exact ⟨s, rfl, by omega, rfl, rfl, rfl⟩

theorem encode_spec {BUFSIZ : ℕ} (hB : 8 ≤ BUFSIZ) {head : List UInt8} {bits : List ℕ}
    {g : Globals} {c code : ℕ} {s : Coder} (h : Coding BUFSIZ head bits s)
    (h1 : 1 ≤ g.length c) (h24 : g.length c ≤ 24) (hcode : code < 2 ^ g.length c)
    (hbits : g.bits c = code * 2 ^ (24 - g.length c)) :
    ∃ s', encode BUFSIZ false g c s = some s' ∧ s'.bitsleft ≤ 7 ∧
      Coding BUFSIZ head (bits ++ toBits (g.length c) code) s' := by
  obtain ⟨full, V, hdone, hV, hL, htoBits⟩ := h.exists_full
  have hnn := h.bitsleft_nonneg
  have hle := h.bitsleft_le
  have hlt := h.outp_lt
  obtain ⟨n, hn⟩ : ∃ n : ℕ, s.bitsleft = n := ⟨s.bitsleft.toNat, by omega⟩
  have hn8 : n ≤ 8 := by omega
  rw [hn, Int.toNat_natCast] at hV hL
  unfold encode
  dsimp only
  rw [hn, Int.toNat_natCast]
  set mask := g.bits c <<< n with hmask
  have hmaskeq : mask = code * 2 ^ (24 - g.length c + n) := by
    rw [hmask, hbits, Nat.shiftLeft_eq, Nat.mul_assoc, ← Nat.pow_add]
  have hmasklt : mask < 2 ^ (24 + n) := by
    have hexp : 24 + n = g.length c + (24 - g.length c + n) := by omega
    rw [hmaskeq, hexp, Nat.pow_add _ (g.length c)]
    exact Nat.mul_lt_mul_of_pos_right hcode (Nat.two_pow_pos _)
  have hmask32 : mask < 2 ^ 32 :=
    lt_of_lt_of_le hmasklt (Nat.pow_le_pow_right (by omega) (by omega))
  have hbytes := maskBytes_value hmask32
  have htop : (UInt8.ofNat (mask >>> 24)).toNat < 2 ^ n := by
    have hdiv : mask / 2 ^ 24 < 2 ^ n := by
      rw [Nat.div_lt_iff_lt_mul (by omega), ← Nat.pow_add, Nat.add_comm]
      exact hmasklt
    rw [UInt8.toNat_ofNat', Nat.shiftRight_eq_div_pow]
    exact lt_of_le_of_lt (Nat.mod_le _ _) hdiv
  generalize hfirst : (if (n : ℤ) = 8 then UInt8.ofNat (mask >>> 24)
    else s.outbuff s.outp ||| UInt8.ofNat (mask >>> 24)) = first
  have hsum : first.toNat = s.cur + (UInt8.ofNat (mask >>> 24)).toNat := by
    rw [← hfirst, Coder.cur, hn]
    split_ifs with h8
    · omega
    · rw [UInt8.toNat_or]
      rw [Coder.cur, hn, if_neg h8] at hV
      exact or_eq_add hn8 hV htop
  have hspill : Spilling head (V * 2 ^ g.length c + code) (bits.length + g.length c)
      [UInt8.ofNat (mask >>> 16), UInt8.ofNat (mask >>> 8), UInt8.ofNat (mask >>> 0)]
      { s with
        outbuff := update s.outbuff s.outp first
        bitsleft := (n : ℤ) - g.length c } := by
    refine ⟨full, 24 - g.length c + n, ?_, ?_, ?_, ?_⟩
    · rw [← hdone]
      simp only [Coder.done]
      rw [map_update_range _ le_rfl]
    · simp only [List.length_cons, List.length_nil]
      omega
    · have hexp : 24 + n = g.length c + (24 - g.length c + n) := by omega
      calc (V * 2 ^ g.length c + code) * 2 ^ (24 - g.length c + n)
          = V * 2 ^ (24 + n) + mask := by
            rw [Nat.add_mul, Nat.mul_assoc, ← Nat.pow_add, ← hexp, hmaskeq]
        _ = (V * 2 ^ n) * 256 ^ 3 + mask := by
            rw [Nat.add_comm 24 n, Nat.pow_add, Nat.mul_assoc]
            norm_num
        _ = _ := by
            rw [hV, byteValue_append, byteValue_append]
            simp only [update_self, byteValue_singleton, List.length_cons, List.length_nil, hsum]
            rw [Nat.add_mul (byteValue full * _ ^ _), Nat.add_mul s.cur, Nat.add_assoc _ _ (byteValue _),
              Nat.add_assoc _ _ (byteValue _), hbytes]
            ring
    · push_cast
      omega
  obtain ⟨hdone', hnn', hle', hout'⟩ := spill_spec _ _ hspill (by dsimp only; omega)
  generalize spill _ _ = s₁ at hdone' hnn' hle' hout'
  simp only [List.length_cons, List.length_nil] at hout'
  obtain ⟨s', hs', hlt', hdone'', hcur'', hbl''⟩ := flush_spec hB (s := s₁) (by omega)
  obtain ⟨full', e, hfull', he, hV', hL'⟩ := hdone'.exists_full
  refine ⟨s', hs', by omega, hlt', by omega, by omega, full', V * 2 ^ g.length c + code, ?_, ?_, ?_, ?_⟩
  · rw [hdone'', hfull']
  · have hee : e = s'.bitsleft.toNat := by
      simp only [List.length_nil] at he
      omega
    rw [← hee, hV', List.append_nil, byteValue_append, Coder.cur, if_neg (by omega), hcur'']
    simp
  · rw [List.length_append, length_toBits]
    omega
  · rw [List.length_append, length_toBits, toBits_append _ _ hcode, htoBits]

/-- The code of a character as a number. -/
def code (g : Globals) (inner : ℕ → ℕ) (c : ℕ) : ℕ := inner (g.length c) + rank g.length c

/-- The code of a character as bits. -/
def codeBits (g : Globals) (inner : ℕ → ℕ) (c : ℕ) : List ℕ :=
  toBits (g.length c) (code g inner c)

theorem rank_lt {length : ℕ → ℕ} {c : ℕ} (hc : c ≤ END) (h1 : 1 ≤ length c) :
    rank length c < leafCount length (length c) := by
  rw [leafCount, if_neg (by omega), onLevel, rank]
  obtain ⟨k, hk⟩ : ∃ k, END + 1 = c + 1 + k := ⟨END - c, by omega⟩
  rw [hk, List.range_add, List.filter_append, List.length_append, List.range_succ,
    List.filter_append, List.length_append]
  simp only [List.filter_cons, decide_true, if_true, List.filter_nil, List.length_cons,
    List.length_nil]
  omega

theorem Coded.code_lt {file : List UInt8} {g : Globals} {inner : ℕ → ℕ} (h : Coded file g inner)
    {c : ℕ} (hc : c ≤ END) (h1 : 1 ≤ g.length c) : code g inner c < 2 ^ g.length c := by
  apply h.levels.code_lt h1
  have := rank_lt hc h1
  rw [code]
  omega

theorem Coded.encode_spec {BUFSIZ : ℕ} (hB : 8 ≤ BUFSIZ) {file head : List UInt8}
    {bits : List ℕ} {g : Globals} {inner : ℕ → ℕ} {c : ℕ} {s : Coder} (hg : Coded file g inner)
    (hc : c ≤ END) (h1 : 1 ≤ g.length c) (h : Coding BUFSIZ head bits s) :
    ∃ s', encode BUFSIZ false g c s = some s' ∧ s'.bitsleft ≤ 7 ∧
      Coding BUFSIZ head (bits ++ codeBits g inner c) s' :=
  Pack.encode_spec hB h h1 (le_trans (hg.length_le c hc) hg.maxlev_le) (hg.code_lt hc h1)
    (hg.bits c hc h1)

theorem Coded.length_end_pos {file : List UInt8} {g : Globals} {inner : ℕ → ℕ}
    (h : Coded file g inner) : 1 ≤ g.length END := by
  rw [h.length_end]
  exact h.maxlev_pos

/-- Every round takes a character of what is unread, and the last one `END`. -/
theorem encodeAll_spec {BUFSIZ : ℕ} (hB : 8 ≤ BUFSIZ) {f : File} {head : List UInt8}
    {g : Globals} {inner : ℕ → ℕ} (hg : Coded f.bytes g inner) (hread : f.outputErr = false)
    (hwrite : f.writeErr = false) :
    ∀ fuel inbuff infile bits s, (inbuff ++ infile).length < fuel →
      (∀ c ∈ inbuff ++ infile, 1 ≤ g.length c.toNat) → Coding BUFSIZ head bits s →
      ∃ s', encodeAll BUFSIZ f g fuel inbuff infile s = (.packed, s') ∧ s'.bitsleft ≤ 7 ∧
        Coding BUFSIZ head (bits ++ ((inbuff ++ infile).flatMap fun c => codeBits g inner c.toNat) ++
          codeBits g inner END) s' := by
  intro fuel
  induction fuel with
  | zero =>
    intro inbuff infile bits s hlt
    omega
  | succ fuel ih =>
    intro inbuff infile bits s hfuel hocc hcoding
    rw [encodeAll, hread, hwrite]
    simp only [Bool.false_eq_true, and_false, if_false]
    generalize hchunk : (if inbuff = [] then infile.take BUFSIZ else inbuff) = chunk
    generalize hrest : (if inbuff = [] then infile.drop BUFSIZ else infile) = rest
    have hall : inbuff ++ infile = chunk ++ rest := by
      rw [← hchunk, ← hrest]
      split_ifs with he
      · rw [he, List.nil_append, List.take_append_drop]
      · rfl
    rw [hall] at hfuel hocc ⊢
    cases chunk with
    | nil =>
      have hnil : rest = [] := by
        by_cases he : inbuff = []
        · rw [if_pos he] at hchunk hrest
          have hinfile : infile = [] := by
            rcases List.take_eq_nil_iff.mp hchunk with h0 | h0
            · omega
            · exact h0
          rw [← hrest, hinfile, List.drop_nil]
        · rw [if_neg he] at hchunk
          exact absurd hchunk he
      obtain ⟨s', hs', hle, hcoding'⟩ := hg.encode_spec hB le_rfl hg.length_end_pos hcoding
      dsimp only
      rw [hs', hnil]
      exact ⟨s', rfl, hle, by simpa using hcoding'⟩
    | cons c chunk =>
      have hc : c.toNat ≤ END := c.toNat_lt.le
      obtain ⟨s', hs', _, hcoding'⟩ := hg.encode_spec hB hc (hocc c (by simp)) hcoding
      dsimp only
      rw [hs']
      obtain ⟨s'', hs'', hle, hcoding''⟩ := ih chunk rest _ s'
        (by simp only [List.cons_append, List.length_cons] at hfuel; omega)
        (fun d hd => hocc d (List.mem_cons_of_mem _ hd)) hcoding'
      refine ⟨s'', hs'', hle, ?_⟩
      simpa [List.append_assoc] using hcoding''

/-- The dictionary, as numbers. -/
def dictChars (length : ℕ → ℕ) (maxlev : ℕ) : List ℕ :=
  (List.range' 1 maxlev).flatMap fun i => (List.range END).filter (length · = i)

theorem dictionary_eq (g : Globals) :
    dictionary g = (dictChars g.length g.maxlev).map UInt8.ofNat := by
  rw [dictionary, dictChars, List.map_flatMap]

theorem length_dictChars_le (length : ℕ → ℕ) (maxlev : ℕ) :
    (dictChars length maxlev).length ≤ END := by
  have hnodup : (dictChars length maxlev).Nodup := by
    rw [dictChars, List.nodup_flatMap]
    refine ⟨fun i _ => List.nodup_range.filter _, ?_⟩
    apply List.Pairwise.imp _ (List.nodup_range' (s := 1) (n := maxlev))
    intro i j hij c hi hj
    simp only [List.mem_filter, decide_eq_true_eq] at hi hj
    omega
  have hsub : dictChars length maxlev ⊆ List.range END := by
    intro c hc
    obtain ⟨i, _, hi⟩ := List.mem_flatMap.mp hc
    exact (List.mem_filter.mp hi).1
  have := (hnodup.subperm hsub).length_le
  rwa [List.length_range] at this

theorem length_header {file : List UInt8} {g : Globals} {inner : ℕ → ℕ}
    (h : Coded file g inner) :
    (header g).length = 7 + g.maxlev + (dictChars g.length g.maxlev).length := by
  have := h.maxlev_pos
  simp only [header, dictionary_eq, List.length_append, List.length_map, List.length_cons,
    List.length_nil, List.length_range']
  omega

theorem output_spec {BUFSIZ : ℕ} (hB : 288 ≤ BUFSIZ) {f : File} {g : Globals} {inner : ℕ → ℕ}
    (hg : Coded f.bytes g inner) (hread : f.outputErr = false) (hwrite : f.writeErr = false) :
    ∃ g' text pad, output BUFSIZ f g = (.packed, g', header g ++ text) ∧
      byteBits text = (f.bytes.flatMap fun c => codeBits g inner c.toNat) ++
        codeBits g inner END ++ toBits pad 0 := by
  have hlen := length_header hg
  have hdict := length_dictChars_le g.length g.maxlev
  have hmax := hg.maxlev_le
  have hEND : END = 256 := rfl
  have hstart : Coding BUFSIZ (header g) []
      ⟨fun i => (header g).getD i (g.outbuff i), (header g).length, 8, []⟩ := by
    refine ⟨?_, by simp, by simp, [], 0, ?_, ?_, by simp, by simp⟩
    · dsimp only
      omega
    · simp only [Coder.done, List.nil_append, List.append_nil]
      apply List.ext_getElem
      · simp
      · intro i h1 h2
        simp [List.getElem?_eq_getElem h2]
    · simp [Coder.cur, byteValue]
  obtain ⟨s, hs, hle, hcoding⟩ := encodeAll_spec (by omega) hg hread hwrite (f.bytes.length + 1)
    [] f.bytes [] _ (by simp) (by simpa using hg.occurs) hstart
  obtain ⟨full, V, hdone, hV, hL, hbits⟩ := hcoding.exists_full
  simp only [List.nil_append] at hbits hL
  refine ⟨{ g with outbuff := s.outbuff }, full ++ [s.outbuff s.outp], s.bitsleft.toNat, ?_, ?_⟩
  · unfold output
    dsimp only
    rw [hs]
    simp only [hwrite, Bool.false_eq_true, if_false]
    rw [if_pos (by omega), List.range_succ, List.map_append, ← List.append_assoc,
      ← List.append_assoc, ← hdone]
    rfl
  · have hcur : byteValue (full ++ [s.outbuff s.outp]) = V * 2 ^ s.bitsleft.toNat := by
      rw [hV, byteValue_append, Coder.cur, if_neg (by omega)]
      simp
    rw [← toBits_byteValue, hcur, List.length_append, List.length_singleton, ← hL,
      toBits_mul_pow, hbits]

end Unitas.Pack
