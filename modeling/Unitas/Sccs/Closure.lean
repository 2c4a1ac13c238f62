import Unitas.Sccs.Checksum
import Unitas.Sccs.Reading

/-! The sum in the first line of the x-file. -/
namespace Unitas.Sccs
open Unitas.Hoare Unitas.Decimal Unitas.Lines

/-- The whole s-file is read, and its sum compared. -/
def readAll (file : Line) : M Unit := do
  sinit file
  modify fun pkt => { pkt with p_chkeof := true }
  copyRest (file.length + 1)

/-- The first line has the sum of the lines after it. -/
def Sealed (file : Line) : Prop :=
  ∃ pkt, readAll file (zero []) = some ((), pkt) ∧ pkt.p_ihash = pkt.p_chash % 65536

inductive Command
  | rmchg (c : Change)
  | delta (c : Checkin) (fuel : ℕ)

def Command.run (zone : Zone) (file : Line) : Command → Option Line
  | .rmchg c => rmchgFile zone c file
  | .delta c fuel => deltaFile zone c fuel file

def Command.IsDelta : Command → Prop
  | .rmchg _ => False
  | .delta _ _ => True

/-- What a new first line covers has the sum of what is in the old one's place. -/
def Aligned (file : Line) : Prop :=
  match readLines file with
  | [] => False
  | head :: ls =>
    (charSum ((head ++ ls.flatten).drop (headLine 0).length) - charSum ls.flatten) % 65536 = 0

instance (file : Line) : Decidable (Aligned file) := by
  unfold Aligned
  split
  · exact inferInstance
  · exact inferInstance

/-- The x-file has a first line that is not in the sum, and a beginning of the rest that is. -/
structure Writing (first pre : Line) (pkt : Packet) : Prop where
  upd : pkt.p_upd = true
  reopen : pkt.p_reopen = false
  create : pkt.Xcreate = true
  sum : ∃ rest, 0 ∉ rest ∧ pkt.Xiop = first ++ (pre ++ rest) ∧ pkt.p_nhash = charSum (pre ++ rest)

variable {first pre : Line}

/-- A string goes to the x-file and into the sum. -/
theorem Writing.put {pkt : Packet} (h : Writing first pre pkt) (p : Line) :
    Writing first pre (put pkt p) := by
  obtain ⟨rest, htext, hX, hsum⟩ := h.sum
  refine ⟨h.upd, h.reopen, rfl, rest ++ cstr p, ?_, ?_, ?_⟩
  · exact fun hmem => (List.mem_append.mp hmem).elim htext (not_mem_cstr p)
  · simp only [Sccs.put, h.create, if_true, hX, List.append_assoc]
  · simp only [Sccs.put, h.create, if_true, hsum, charSum_append, add_assoc]

instance : Stable (Writing first pre) where
  change pkt pkt' h1 h2 h3 h4 h5 h :=
    ⟨h1.trans h.upd, h2.trans h.reopen, h3.trans h.create, by rw [h4, h5]; exact h.sum⟩
  putline p := by
    refine keeps_modify fun pkt h => ?_
    rw [if_neg (by simp [h.upd])]
    cases p with
    | some p => exact h.put p
    | none =>
      dsimp only
      split_ifs
      · exact h.put []
      · exact @Writing.put first pre { pkt with p_wrttn := true } ⟨h.1, h.2, h.3, h.4⟩ pkt.p_line
  getlineEof := by
    refine keeps_get_bind fun pkt => keeps_bind keeps_fatalIf fun _ =>
      keeps_bind keeps_fatalIf fun _ => keeps_modify fun pkt h => ?_
    rw [if_neg (by simp [h.reopen])]
    exact ⟨h.1, h.2, h.3, h.4⟩

/-- Nothing has been written. -/
structure Idle (pkt : Packet) : Prop where
  upd : pkt.p_upd = false
  create : pkt.Xcreate = false
  sum : pkt.p_nhash = 0

instance : Stable Idle where
  change pkt pkt' h1 _ h3 _ h5 h := ⟨h1.trans h.upd, h3.trans h.create, h5.trans h.sum⟩
  putline p := by
    refine keeps_modify fun pkt h => ?_
    rw [if_pos (by simp [h.upd])]
    exact h
  getlineEof := by
    refine keeps_get_bind fun pkt => keeps_bind keeps_fatalIf fun _ =>
      keeps_bind keeps_fatalIf fun _ => keeps_modify fun pkt h => ?_
    split_ifs
    · exact ⟨h.1, h.2, rfl⟩
    · exact ⟨h.1, h.2, h.3⟩

/-- The lines that are left go into the sum. -/
theorem copyRest_sum {ls : List Line} {fuel : ℕ} (hfuel : ls.length < fuel) {pkt : Packet}
    (hupd : pkt.p_upd = false) (hreopen : pkt.p_reopen = false) (hchk : pkt.p_chkeof = true)
    (hiop : pkt.p_iop = some ls) :
    (∃ pkt', copyRest fuel pkt = some ((), pkt') ∧ pkt'.p_ihash = pkt'.p_chash % 65536) ↔
      pkt.p_ihash = (pkt.p_chash + charSum ls.flatten) % 65536 := by
  induction ls generalizing pkt fuel with
  | nil =>
    obtain ⟨fuel, rfl⟩ := Nat.exists_eq_add_one_of_ne_zero (Nat.ne_zero_of_lt hfuel)
    have hget := getline_eq pkt
    rw [flushed_of_upd hupd, hiop] at hget
    dsimp only at hget
    rw [getlineEof_eq hreopen] at hget
    have hsum : charSum [].flatten = 0 := rfl
    rw [hsum, add_zero]
    constructor
    · rintro ⟨pkt', hrun, hseal⟩
      obtain ⟨p, t, hp, hrest⟩ := bind_some.mp hrun
      rw [hget] at hp
      split_ifs at hp
      · cases hp
      · obtain ⟨rfl, rfl⟩ := Prod.mk.inj (Option.some.inj hp)
        obtain ⟨-, rfl⟩ := Prod.mk.inj (Option.some.inj hrest)
        exact hseal
    · intro hseal
      have hgood : ¬ (pkt.p_chkeof = false ∨ Corrupted pkt) := by
        rintro (h | ⟨-, h, -⟩)
        · simp [hchk] at h
        · omega
      rw [if_neg hgood] at hget
      exact ⟨_, bind_some.mpr ⟨none, _, hget, rfl⟩, hseal⟩
  | cons l ls ih =>
    obtain ⟨fuel, rfl⟩ := Nat.exists_eq_add_one_of_ne_zero (Nat.ne_zero_of_lt hfuel)
    have hget := getline_eq pkt
    rw [flushed_of_upd hupd, hiop] at hget
    have hrun : copyRest (fuel + 1) pkt = copyRest fuel (nextLine pkt l ls) := by
      change Option.bind (getline pkt) _ = _
      rw [hget]
      rfl
    have ih := @ih fuel (Nat.lt_of_succ_lt_succ hfuel) (nextLine pkt l ls) hupd hreopen hchk rfl
    rw [hrun, ih, List.flatten_cons, charSum_append, ← add_assoc]
    rfl

theorem readLines_headLine (n : ℕ) {rest : Line} (h : 0 ∉ rest) :
    readLines (headLine n ++ rest) = headLine n :: fileLines rest := by
  have hdigit : ∀ {c : UInt8}, c ≠ CTLCHAR → c ≠ HEAD → isDigit c = false →
      c ∉ [CTLCHAR, HEAD] ++ fiveDigits n := by
    intro c h1 h2 hc hmem
    rcases List.mem_append.mp hmem with hmem | hmem
    · simp [h1, h2] at hmem
    · exact not_mem_fiveDigits hc n hmem
  have hnot : 0 ∉ headLine n ++ rest := by
    rw [headLine, List.mem_append, List.mem_append, not_or, not_or]
    exact ⟨⟨hdigit (by decide) (by decide) (by decide), by decide⟩, h⟩
  rw [readLines_eq hnot, headLine, List.append_assoc, List.singleton_append,
    fileLines_ended (hdigit (by decide) (by decide) (by decide))]

/-- A file is sealed where its first line has the sum of the rest. -/
theorem sealed_headLine {n : ℕ} {rest : Line} (h : 0 ∉ rest) :
    Sealed (headLine n ++ rest) ↔ (n : ℤ) = charSum rest % 65536 := by
  have hlines := readLines_headLine n h
  have hlen : (fileLines rest).length < (headLine n ++ rest).length + 1 := by
    have hle : (readLines (headLine n ++ rest)).length ≤ _ := length_readLinesFrom _ _
    rw [hlines, List.length_cons] at hle
    omega
  have hsum := @copyRest_sum _ _ hlen
    { opened (headLine n) (fileLines rest) with p_chkeof := true } rfl rfl rfl rfl
  have hhash : (opened (headLine n) (fileLines rest)).p_ihash = n := by
    change ((satoi (fiveDigits n ++ [10])).1 : ℤ) = n
    rw [satoi_fiveDigits]
  have hzero : (opened (headLine n) (fileLines rest)).p_chash = 0 := rfl
  have hgoal : (n : ℤ) = charSum rest % 65536 ↔ (opened (headLine n) (fileLines rest)).p_ihash =
      ((opened (headLine n) (fileLines rest)).p_chash + charSum (fileLines rest).flatten) % 65536 := by
    rw [hhash, hzero, zero_add, flatten_fileLines]
  rw [hgoal, ← hsum, Sealed]
  refine exists_congr fun pkt => and_congr_left fun _ => ?_
  rw [readAll, bind_some]
  constructor
  · rintro ⟨_, t, ht, hrun⟩
    obtain ⟨l, ls, hl, -, rfl⟩ := sinit_some.mp ht
    rw [hlines] at hl
    obtain ⟨rfl, rfl⟩ := List.cons.inj hl
    obtain ⟨_, t, ht, hrun⟩ := bind_some.mp hrun
    rw [modify_some.mp ht] at hrun
    exact hrun
  · intro hrun
    exact ⟨_, _, sinit_some.mpr ⟨_, _, hlines, isHead_headLine n, rfl⟩,
      bind_some.mpr ⟨_, _, modify_some.mpr rfl, hrun⟩⟩

/-- The x-file once the first line is right. -/
theorem Writing.sealed {pkt : Packet} (h : Writing first pre pkt)
    (hlen : (headLine 0).length ≤ (first ++ pre).length) (h0 : 0 ∉ first ++ pre) :
    Sealed (overwrite pkt.Xiop (headLine (pkt.p_nhash % 65536).toNat)) ↔
      (charSum ((first ++ pre).drop (headLine 0).length) - charSum pre) % 65536 = 0 := by
  obtain ⟨rest, hrest, hX, hsum⟩ := h.sum
  have hn : (pkt.p_nhash % 65536).toNat < 65536 := by omega
  have hlen0 : (headLine 0).length = 8 := length_headLine (by decide)
  rw [hlen0] at hlen ⊢
  rw [overwrite, length_headLine hn, hX, ← List.append_assoc, List.drop_append_of_le_length hlen,
    sealed_headLine, charSum_append, hsum, charSum_append]
  · omega
  · rw [List.mem_append, not_or]
    exact ⟨fun hmem => h0 (List.mem_of_mem_drop hmem), hrest⟩

/-- A line has been read, and all before it is written. -/
structure Pending (first pre line : Line) (ls : List Line) (pkt : Packet) : Prop where
  upd : pkt.p_upd = true
  reopen : pkt.p_reopen = false
  wrttn : pkt.p_wrttn = false
  create : pkt.Xcreate = true
  line : pkt.p_line = line
  iop : pkt.p_iop = some ls
  idel : pkt.p_idel = none
  text : pkt.Xiop = first ++ pre
  sum : pkt.p_nhash = charSum pre

theorem Pending.flushed {line : Line} {ls : List Line} {pkt : Packet}
    (h : Pending first pre line ls pkt) :
    flushed pkt = Sccs.put { pkt with p_wrttn := true } line := by
  rw [Sccs.flushed, if_pos ⟨h.upd, h.wrttn⟩, h.line]

theorem getline_opened {l : Line} {ls : List Line} (hl : 0 ∉ l) {pkt' : Packet} {r : Option Line}
    (h : getline { opened l ls with p_upd := true, p_idel := none } = some (r, pkt')) {p : Line}
    (hr : r = some p) : ∃ ls', ls = p :: ls' ∧ Pending l [] p ls' pkt' := by
  rw [getline_eq] at h
  cases ls with
  | nil =>
    obtain ⟨t, -, heq⟩ := Option.map_eq_some_iff.mp h
    exact absurd ((Prod.mk.inj heq).1.trans hr) (by simp)
  | cons l' ls =>
    obtain ⟨rfl, rfl⟩ := Prod.mk.inj (Option.some.inj h)
    cases hr
    refine ⟨ls, rfl, rfl, rfl, rfl, rfl, rfl, rfl, rfl, ?_, rfl⟩
    change [] ++ cstr l = l ++ []
    rw [cstr_eq_self hl, List.append_nil, List.nil_append]

theorem getline_pending {line : Line} {ls : List Line} (hline : 0 ∉ line) {pkt pkt' : Packet}
    (hpkt : Pending first pre line ls pkt) {r : Option Line} (h : getline pkt = some (r, pkt'))
    {p : Line} (hr : r = some p) :
    ∃ ls', ls = p :: ls' ∧ Pending first (pre ++ line) p ls' pkt' := by
  rw [getline_eq, hpkt.iop, hpkt.flushed] at h
  cases ls with
  | nil =>
    obtain ⟨t, -, heq⟩ := Option.map_eq_some_iff.mp h
    exact absurd ((Prod.mk.inj heq).1.trans hr) (by simp)
  | cons l' ls =>
    obtain ⟨rfl, rfl⟩ := Prod.mk.inj (Option.some.inj h)
    cases hr
    refine ⟨ls, rfl, hpkt.upd, hpkt.reopen, rfl, rfl, rfl, rfl, hpkt.idel, ?_, ?_⟩
    · simp only [nextLine, Sccs.put, hpkt.create, if_true, hpkt.text, cstr_eq_self hline,
        List.append_assoc]
    · simp only [nextLine, Sccs.put, hpkt.create, if_true, hpkt.sum, cstr_eq_self hline,
        charSum_append]

/-- The line at hand begins as `mark` does. -/
structure Marked (first pre mark : Line) (pkt : Packet) : Prop where
  upd : pkt.p_upd = true
  reopen : pkt.p_reopen = false
  wrttn : pkt.p_wrttn = false
  create : pkt.Xcreate = true
  line : ∃ rest, pkt.p_line = mark ++ rest
  text : pkt.Xiop = first ++ pre
  sum : pkt.p_nhash = charSum pre

theorem getline_marked {mark : Line} (hmark : 0 ∉ mark) :
    Triple (Marked first pre mark) getline fun _ => Writing first (pre ++ mark) := by
  intro pkt r pkt' hpkt h
  have hflushed : Writing first (pre ++ mark) (flushed pkt) := by
    obtain ⟨rest, hline⟩ := hpkt.line
    have hcstr : cstr pkt.p_line = mark ++ cstr rest := by
      rw [hline, cstr, List.takeWhile_append_of_pos fun c hc => ?_, cstr]
      have hne : c ≠ 0 := fun h0 => hmark (h0 ▸ hc)
      simpa using hne
    rw [flushed, if_pos ⟨hpkt.upd, hpkt.wrttn⟩]
    refine ⟨hpkt.upd, hpkt.reopen, rfl, cstr rest, not_mem_cstr rest, ?_, ?_⟩
    · simp only [Sccs.put, hpkt.create, if_true, hpkt.text, hcstr, List.append_assoc]
    · simp only [Sccs.put, hpkt.create, if_true, hpkt.sum, hcstr, charSum_append, add_assoc]
  rw [getline_eq] at h
  cases hiop : pkt.p_iop with
  | none => simp [hiop] at h
  | some ls =>
    rw [hiop] at h
    cases ls with
    | nil =>
      obtain ⟨t, ht, heq⟩ := Option.map_eq_some_iff.mp h
      exact (Prod.mk.inj heq).2 ▸ Stable.getlineEof _ _ _ hflushed ht
    | cons l ls =>
      obtain ⟨rfl, rfl⟩ := Prod.mk.inj (Option.some.inj h)
      exact ⟨hflushed.1, hflushed.2, hflushed.3, hflushed.4⟩

/-- The two characters that the lines of a delta begin with. -/
def deltaMark : Line := [CTLCHAR, BDELTAB]

theorem markType_mark (type : UInt8) (rest : Line) :
    ∃ rest', markType type (deltaMark ++ rest) = deltaMark ++ rest' := by
  refine ⟨markType type rest, ?_⟩
  have h1 : ∀ c ∈ deltaMark, (decide (c ≠ 68)) = true := by
    rw [deltaMark, List.forall_mem_cons, List.forall_mem_singleton]
    decide
  rw [markType, List.takeWhile_append_of_pos h1, List.dropWhile_append_of_pos h1, List.append_assoc]
  rfl

theorem chr_eq {p : Line} {c : UInt8} (hc : c ≠ 0) (h : chr p = c) : p = c :: p.tail := by
  cases p with
  | nil => exact absurd h.symm hc
  | cons d p => exact congrArg (· :: p) h

theorem del_ab_mark {zone : Zone} {p : Line} {dt : Deltab} {r : UInt8 × Deltab}
    (h : del_ab zone p dt = some r) (hr : r.1 = BDELTAB) : ∃ rest, p = deltaMark ++ rest := by
  unfold del_ab at h
  split_ifs at h with h1 h2
  · cases h
    exact absurd hr h2
  · rw [not_not] at h1 h2
    exact ⟨p.tail.tail, by rw [chr_eq (by decide) h1, chr_eq (by decide) h2]; rfl⟩

theorem Pending.marked {rest : Line} {ls : List Line} {pkt : Packet}
    (h : Pending first pre (deltaMark ++ rest) ls pkt) : Marked first pre deltaMark pkt :=
  ⟨h.upd, h.reopen, h.wrttn, h.create, ⟨rest, h.line⟩, h.text, h.sum⟩

theorem deltaEntry_marked (type : UInt8) (dt : Deltab) (d : Dodelt) :
    Keeps (Marked first pre deltaMark) (deltaEntry type dt d) := by
  refine keeps_get_bind fun pkt => keeps_bind (keeps_doIf (keeps_modify fun pkt h => ?_)) fun _ =>
    keeps_ite (keeps_pure _) (keeps_bind (keeps_modify fun pkt h => ?_) fun _ =>
      keeps_bind (keeps_modify fun pkt h => ?_) fun _ => keeps_pure _)
  · exact ⟨h.1, h.2, h.3, h.4, h.5, h.6, h.7⟩
  · split_ifs
    · obtain ⟨rest, hline⟩ := h.line
      refine ⟨h.1, h.2, h.3, h.4, ?_, h.6, h.7⟩
      exact hline ▸ markType_mark type rest
    · exact ⟨h.1, h.2, h.3, h.4, h.5, h.6, h.7⟩
  · exact ⟨h.1, h.2, h.3, h.4, h.5, h.6, h.7⟩

/-- The first turn of the loop writes the statistics and begins to write a delta. -/
theorem dodeltLoop_pending (zone : Zone) {esc : Line → M Unit} {line : Line} {ls : List Line}
    (hline : 0 ∉ line) (hesc : ∀ p, Keeps (Writing first (pre ++ line ++ deltaMark)) (esc p))
    (type : UInt8) (fuel : ℕ) (d : Dodelt) :
    Triple (Pending first pre line ls) (dodeltLoop zone esc type fuel d) fun _ pkt =>
      pkt.p_idel = none ∨ ∃ rest ls', ls = (deltaMark ++ rest) :: ls' ∧
        Writing first (pre ++ line ++ deltaMark) pkt := by
  intro pkt d' pkt' hpkt h
  cases fuel with
  | zero => exact (lift_none_some.mp h).elim
  | succ fuel =>
    obtain ⟨⟨letter, dt⟩, t, ht, h⟩ := bind_some.mp h
    obtain ⟨p, t', hp, ht⟩ := bind_some.mp ht
    cases p with
    | none => exact (lift_none_some.mp ht).elim
    | some p =>
      obtain ⟨ls', rfl, hpend⟩ := getline_pending hline hpkt hp rfl
      dsimp only at ht
      cases hdel : del_ab zone p d.dt with
      | none =>
        rw [hdel] at ht
        exact (lift_none_some.mp ht).elim
      | some r =>
        rw [hdel] at ht
        obtain ⟨rfl, rfl⟩ := pure_some.mp ht
        dsimp only at h
        by_cases hletter : letter = BDELTAB
        · obtain ⟨rest, rfl⟩ := del_ab_mark hdel hletter
          refine Or.inr ⟨rest, ls', rfl, ?_⟩
          rw [if_neg (not_not.mpr hletter)] at h
          refine triple_bind (R := fun _ => Writing first (pre ++ line ++ deltaMark))
            (deltaEntry_marked type dt d) (fun d => ?_) _ _ _ hpend.marked h
          refine triple_bind (triple_deltaLines (getline_marked (by decide)) hesc d fuel) fun _ =>
            keeps_bind keeps_getline fun p => ?_
          cases p with
          | none => exact keeps_fatal
          | some p => exact keeps_ite (keeps_pure _) (keeps_dodeltLoop zone hesc type fuel d)
        · rw [if_pos hletter] at h
          rw [(pure_some.mp h).2]
          exact Or.inl hpend.idel

/-- What `dodelt` has written of the file when it comes to its end. -/
theorem dodelt_opened {zone : Zone} {esc : Line → M Unit}
    (hesc : ∀ first pre p, Keeps (Writing first pre) (esc p)) {sid : Option Sid} {type : UInt8}
    {fuel : ℕ} {l : Line} {ls : List Line} (hl : 0 ∉ l) (hls : ∀ l ∈ ls, 0 ∉ l) {d : Dodelt}
    {pkt : Packet}
    (h : dodelt zone esc sid type fuel { opened l ls with p_upd := true } = some (d, pkt)) :
    ∃ stats rest ls', ls = stats :: (deltaMark ++ rest) :: ls' ∧ chr stats = CTLCHAR ∧
      chr stats.tail = STATS ∧ Writing l (stats ++ deltaMark) pkt := by
  obtain ⟨_, t₁, ht₁, h₁⟩ := bind_some.mp h
  rw [modify_some.mp ht₁] at h₁
  obtain ⟨st, t₂, hst, h₂⟩ := bind_some.mp h₁
  obtain ⟨p, t₃, hp, h₃⟩ := bind_some.mp hst
  obtain ⟨d', t₄, hloop, h₄⟩ := bind_some.mp h₂
  obtain ⟨_, t₅, hget, h₅⟩ := bind_some.mp h₄
  obtain ⟨_, t₆, hfatal, h₆⟩ := bind_some.mp h₅
  cases p with
  | none => exact (lift_none_some.mp h₃).elim
  | some p =>
    obtain ⟨_, t₇, hform, h₇⟩ := bind_some.mp h₃
    obtain ⟨ls', hls', hpend⟩ := getline_opened hl hp rfl
    obtain ⟨hstats, ht₇⟩ := fatalIf_some.mp hform
    obtain ⟨-, rfl⟩ := pure_some.mp h₇
    obtain ⟨rfl, rfl⟩ := get_some.mp hget
    obtain ⟨hidel, rfl⟩ := fatalIf_some.mp hfatal
    obtain ⟨-, rfl⟩ := pure_some.mp h₆
    rw [not_or, not_not, not_not] at hstats
    rw [hls'] at hls ⊢
    rcases dodeltLoop_pending zone (hls p List.mem_cons_self) (hesc _ _) type fuel _ _ _ _ (ht₇ ▸ hpend)
      hloop with hnone | ⟨rest, ls'', rfl, hwriting⟩
    · simp [hnone] at hidel
    · exact ⟨p, rest, ls'', rfl, hstats.1, hstats.2, hwriting⟩

/-- The first line has been put over the file. -/
def Written (first pre : Line) (pkt : Packet) : Prop :=
  ∃ t, Writing first pre t ∧ pkt.Xiop = overwrite t.Xiop (headLine (t.p_nhash % 65536).toNat)

theorem flushline_none : Triple (Writing first pre) (flushline none) fun _ => Written first pre := by
  refine triple_get_bind fun pkt => ?_
  by_cases hupd : pkt.p_upd = false
  · exact fun t _ _ ht => absurd ht.2.upd (by rw [ht.1]; simp [hupd])
  · rw [if_neg hupd]
    exact triple_mono (triple_bind (keeps_putline none) fun _ =>
      triple_modify fun t ht => ⟨t, ht, rfl⟩) (fun _ h => h.2) fun _ _ h => h

/-- What `rmchg` does after `dodelt`. -/
theorem rmchg_rest (c : Change) (D_serial fuel : ℕ) (found : Prop) [Decidable found] :
    Triple (Writing first pre) (do
      fatalIf found
      finduser fuel
      doflags fuel
      fatalIf (c.permitted = false)
      if c.D_type = 82 then
        fatalIf ((← get).isLeaf D_serial = false)
        flushto EUSERTXT false fuel
        modify fun pkt => { pkt with p_chkeof := true }
        let r ← rmdelBody D_serial fuel ⟨true, false, 0⟩
        flushline none
        fatalIf (r.numdelts < 2 ∧ r.found)
      else
        modify fun pkt => { pkt with p_chkeof := true }
        copyRest fuel
        flushline none : M Unit) fun _ => Written first pre := by
  refine triple_bind (keeps_fatalIf) fun _ => triple_bind (keeps_finduser fuel) fun _ =>
    triple_bind (keeps_doflags fuel) fun _ => triple_bind keeps_fatalIf fun _ =>
      triple_ite (fun _ => ?_) fun _ => ?_
  · refine triple_get_bind fun pkt => triple_bind
      (triple_mono keeps_fatalIf (fun _ h => h.2) fun _ _ h => h) fun _ => ?_
    refine triple_bind (keeps_flushto _ _ _) fun _ => triple_bind
      (keeps_change fun _ => ⟨rfl, rfl, rfl, rfl, rfl⟩) fun _ => triple_bind
        (keeps_rmdelBody _ _ _) fun r => triple_bind flushline_none fun _ => keeps_fatalIf
  · exact triple_bind (keeps_change fun _ => ⟨rfl, rfl, rfl, rfl, rfl⟩) fun _ =>
      triple_bind (keeps_copyRest _) fun _ => flushline_none

theorem length_of_isHead {l : Line} (h : IsHead l) : 3 ≤ l.length := by
  obtain ⟨h1, h2, h3⟩ := h
  rw [chr_eq (by decide) h1, chr_eq (by decide) h2]
  cases hrest : l.tail.tail with
  | nil => simp [hrest, satoi, chr] at h3
  | cons c rest => simp

/-- A line that is not the last one has a newline after its two characters. -/
theorem length_of_ended {l : Line} {c d : UInt8} (hc : c ≠ 0 ∧ c ≠ 10) (hd : d ≠ 0 ∧ d ≠ 10)
    (h1 : chr l = c) (h2 : chr l.tail = d) (h : Ended l) : 3 ≤ l.length := by
  obtain ⟨text, -, rfl⟩ := h
  rcases text with _ | ⟨e, _ | ⟨f, text⟩⟩
  · exact absurd h1.symm hc.2
  · exact absurd h2.symm hd.2
  · simp

theorem rmchgFile_sealed {zone : Zone} {c : Change} {file x : Line}
    (h : rmchgFile zone c file = some x) : Sealed x ↔ Aligned file := by
  obtain ⟨r, hrun, rfl⟩ := Option.map_eq_some_iff.mp h
  obtain ⟨_, t₁, hsinit, h₁⟩ := bind_some.mp hrun
  obtain ⟨_, t₂, hupd, h₂⟩ := bind_some.mp h₁
  obtain ⟨d, t₃, hdodelt, h₃⟩ := bind_some.mp h₂
  obtain ⟨_, t₄, hget, h₄⟩ := bind_some.mp h₃
  obtain ⟨head, ls, hfile, hhead, rfl⟩ := sinit_some.mp hsinit
  rw [modify_some.mp hupd] at hdodelt
  have hnul : ∀ l ∈ head :: ls, 0 ∉ l := fun l hl => not_mem_readLines (hfile ▸ hl)
  obtain ⟨hhead0, hls0⟩ := List.forall_mem_cons.mp hnul
  obtain ⟨stats, rest, ls', rfl, hstats1, hstats2, hwriting⟩ :=
    dodelt_opened (fun _ _ p => keeps_escdodelt c p) hhead0 hls0 hdodelt
  obtain ⟨rfl, rfl⟩ := get_some.mp hget
  obtain ⟨t, ht, hx⟩ := rmchg_rest c _ _ _ _ _ _ hwriting h₄
  have hended : Ended stats := by
    have hisFile := hfile ▸ isFile_readLines file
    exact hisFile.2.1.resolve_right fun h => by simp at h
  have hlen : 8 ≤ (head ++ (stats ++ deltaMark)).length := by
    have h1 := length_of_isHead hhead
    have h2 := length_of_ended (by decide) (by decide) hstats1 hstats2 hended
    have h3 : deltaMark.length = 2 := rfl
    rw [List.length_append, List.length_append]
    omega
  have h0 : 0 ∉ head ++ (stats ++ deltaMark) := by
    rw [List.mem_append, List.mem_append, not_or, not_or]
    exact ⟨hhead0, hls0 stats List.mem_cons_self, by decide⟩
  have hlen0 : (headLine 0).length = 8 := length_headLine (by decide)
  rw [hx, ht.sealed (hlen0 ▸ hlen) h0, Aligned, hfile]
  have hflat : (stats :: (deltaMark ++ rest) :: ls').flatten =
      (stats ++ deltaMark) ++ (rest ++ ls'.flatten) := by simp
  have hdrop : (head ++ (stats ++ deltaMark) ++ (rest ++ ls'.flatten)).drop (headLine 0).length =
      (head ++ (stats ++ deltaMark)).drop (headLine 0).length ++ (rest ++ ls'.flatten) :=
    List.drop_append_of_le_length (hlen0 ▸ hlen)
  dsimp only
  rw [hflat, ← List.append_assoc head (stats ++ deltaMark) (rest ++ ls'.flatten), hdrop,
    charSum_append _ (rest ++ ls'.flatten), charSum_append _ (rest ++ ls'.flatten),
    add_sub_add_right_eq_sub]

/-- At the end of the file it is no longer to be opened again. -/
theorem getline_eof {I : Packet → Prop} [Stable I] :
    Triple I getline fun r pkt => I pkt ∧ (r = none → pkt.p_reopen = false) := by
  intro pkt r pkt' hpkt h
  refine ⟨keeps_getline _ _ _ hpkt h, fun hr => ?_⟩
  rw [getline_eq] at h
  cases hiop : pkt.p_iop with
  | none => simp [hiop] at h
  | some ls =>
    rw [hiop] at h
    cases ls with
    | nil =>
      obtain ⟨t, ht, heq⟩ := Option.map_eq_some_iff.mp h
      rw [← (Prod.mk.inj heq).2]
      obtain ⟨_, t₁, hget, h₁⟩ := bind_some.mp ht
      obtain ⟨rfl, rfl⟩ := get_some.mp hget
      obtain ⟨_, t₂, h₂, h₃⟩ := bind_some.mp h₁
      obtain ⟨_, t₃, h₄, h₅⟩ := bind_some.mp h₃
      rw [modify_some.mp h₅]
      split_ifs with hreopen
      · rfl
      · simpa using hreopen
    | cons l ls =>
      obtain ⟨rfl, -⟩ := Prod.mk.inj (Option.some.inj h)
      exact absurd hr (by simp)

theorem readmod_eof {I : Packet → Prop} [Stable I] (fuel : ℕ) :
    Triple I (readmod fuel) fun more pkt => I pkt ∧ (more = false → pkt.p_reopen = false) := by
  induction fuel with
  | zero => exact triple_fatal
  | succ fuel ih =>
    refine triple_bind getline_eof fun p => ?_
    cases p with
    | none =>
      refine triple_get_bind fun pkt => triple_bind (Q := fun _ t => I t ∧ t.p_reopen = false) ?_
        fun _ => triple_pure fun t ht => ⟨ht.1, fun _ => ht.2⟩
      intro t _ t' ht hfatal
      rw [(fatalIf_some.mp hfatal).2]
      exact ⟨ht.2.1, ht.2.2 rfl⟩
    | some p =>
      refine triple_mono (P := I) ?_ (fun _ h => h.1) fun _ _ h => h
      refine triple_ite (fun _ => triple_get_bind fun pkt => triple_ite (fun _ => ?_) fun _ => ?_)
        fun _ => triple_bind (keeps_control p) fun _ => ih
      · refine triple_mono (P := I) (triple_bind (keeps_change fun _ => ⟨rfl, rfl, rfl, rfl, rfl⟩)
          fun _ => triple_pure fun t ht => ⟨ht, fun h => ?_⟩) (fun _ h => h.2) fun _ _ h => h
        simp at h
      · exact triple_mono ih (fun _ h => h.2) fun _ _ h => h

theorem readRest_eof {I : Packet → Prop} [Stable I] (fuel k : ℕ) :
    Triple I (readRest fuel k) fun _ pkt => I pkt ∧ pkt.p_reopen = false := by
  induction k with
  | zero => exact triple_fatal
  | succ k ih =>
    refine triple_bind (readmod_eof fuel) fun more => ?_
    cases more with
    | false => exact triple_pure fun t ht => ⟨ht.1, ht.2 rfl⟩
    | true => exact triple_mono ih (fun _ h => h.1) fun _ _ h => h

/-- The first line and the statistics that `delta` writes before it knows them. -/
def headZero : Line := [CTLCHAR, HEAD] ++ List.replicate 5 48 ++ [10]

def statsZero : Line :=
  let fivech := List.replicate 5 48
  statsLine fivech fivech fivech

/-- An x-file is to be begun. -/
structure Restart (pkt : Packet) : Prop where
  reopen : pkt.p_reopen = false
  create : pkt.Xcreate = false
  sum : pkt.p_nhash = 0

theorem mkdelt_restart (c : Checkin) :
    Triple (fun pkt => Restart pkt ∧ pkt.p_upd = true) (mkdelt c) fun _ =>
      Writing headZero statsZero := by
  refine triple_bind (Q := fun _ pkt => pkt.p_upd = true ∧ pkt.p_reopen = false ∧
    pkt.Xcreate = true ∧ pkt.Xiop = headZero ∧ pkt.p_nhash = 0) (triple_modify ?_) fun _ =>
    triple_bind (Q := fun _ => Writing headZero statsZero) (triple_modify ?_)
      fun _ => triple_bind (keeps_putAll c.entry) fun _ => keeps_get_bind fun _ => keeps_pure _
  · rintro pkt ⟨hpkt, hupd⟩
    rw [if_neg (by simp [hupd])]
    refine ⟨hupd, hpkt.reopen, rfl, ?_, ?_⟩
    · simp only [put, hpkt.create]
      rfl
    · simp only [put, hpkt.create]
      exact hpkt.sum
  · rintro pkt ⟨hupd, hreopen, hcreate, htext, hsum⟩
    rw [if_neg (by simp [hupd])]
    refine ⟨hupd, hreopen, rfl, [], List.not_mem_nil, ?_, ?_⟩
    · simp only [put, hcreate, htext]
      rfl
    · simp only [put, hcreate, hsum]
      rfl

theorem attempt_restart (c : Checkin) (fuel : ℕ) (diff : Line) :
    Triple Restart (attempt c fuel diff) fun _ => Writing headZero statsZero := by
  refine triple_bind (Q := fun _ pkt => Restart pkt ∧ pkt.p_upd = true ∧ pkt.p_wrttn = true)
    (triple_modify fun pkt h => ⟨⟨h.1, h.2, h.3⟩, rfl, rfl⟩) fun _ =>
    triple_bind (Q := fun _ pkt => Restart pkt ∧ pkt.p_upd = true) ?_ fun _ =>
      triple_bind (Q := fun _ pkt => Restart pkt ∧ pkt.p_upd = true)
        (triple_modify fun pkt h => ⟨⟨h.1.1, h.1.2, h.1.3⟩, h.2⟩) fun _ =>
        triple_bind (mkdelt_restart c) fun newser => ?_
  · rintro pkt r pkt' ⟨hpkt, hupd, hwrttn⟩ h
    rw [getline_eq, flushed, if_neg (by simp [hwrttn])] at h
    cases hiop : pkt.p_iop with
    | none => simp [hiop] at h
    | some ls =>
      rw [hiop] at h
      cases ls with
      | nil =>
        obtain ⟨t, ht, heq⟩ := Option.map_eq_some_iff.mp h
        rw [getlineEof_eq hpkt.reopen] at ht
        split_ifs at ht
        obtain ⟨-, rfl⟩ := Prod.mk.inj heq
        exact Option.some.inj ht ▸ ⟨⟨hpkt.1, hpkt.2, hpkt.3⟩, hupd⟩
      | cons l ls =>
        obtain ⟨-, rfl⟩ := Prod.mk.inj (Option.some.inj h)
        exact ⟨⟨hpkt.1, hpkt.2, hpkt.3⟩, hupd⟩
  · refine triple_bind (keeps_flushto _ _ _) fun _ => triple_bind
      (keeps_change fun _ => ⟨rfl, rfl, rfl, rfl, rfl⟩) fun _ => triple_bind
        (keeps_hunks _ _ _ _) fun counts => keeps_get_bind fun pkt =>
          keeps_bind (keeps_doIf (keeps_readRest _ _)) fun _ => keeps_pure _

theorem attempts_restart (c : Checkin) (fuel : ℕ) (diffs : List (Line × Bool)) :
    ∀ difflim, Triple Restart (attempts c fuel difflim diffs) fun _ =>
      Writing headZero statsZero := by
  induction diffs with
  | nil =>
    intro difflim
    cases difflim with
    | zero => exact triple_fatal
    | succ difflim => exact triple_fatal
  | cons diff diffs ih =>
    intro difflim
    cases difflim with
    | zero => exact triple_fatal
    | succ difflim =>
      refine triple_bind (attempt_restart c fuel diff.1) fun counts => triple_ite (fun _ => ?_)
        fun _ => keeps_pure _
      exact triple_bind (triple_modify fun pkt h => ⟨h.reopen, rfl, rfl⟩) fun _ => ih difflim

theorem length_statsLine {ins del unc : Line} (h1 : ins.length = 5) (h2 : del.length = 5)
    (h3 : unc.length = 5) : (statsLine ins del unc).length = statsZero.length := by
  simp [statsLine, h1, h2, h3]
  rfl

theorem addDigits_eq (nhash : ℤ) (digits : Line) :
    addDigits nhash digits = nhash + charSum digits - charSum (List.replicate digits.length 48) := by
  have hsum : (digits.map fun c => schar c - 48).sum =
      charSum digits - charSum (List.replicate digits.length 48) := by
    induction digits with
    | nil => rfl
    | cons d digits ih =>
      have hd : schar 48 = 48 := rfl
      simp only [charSum, List.map_cons, List.sum_cons, List.length_cons, List.replicate_succ] at ih ⊢
      omega
  rw [addDigits, hsum]
  omega

theorem charSum_statsLine (ins del unc : Line) : charSum (statsLine ins del unc) =
    charSum ins + charSum del + charSum unc + charSum [CTLCHAR, STATS, 32, 47, 47, 10] := by
  simp only [statsLine, charSum_append]
  have h1 : charSum [CTLCHAR, STATS, 32, 47, 47, 10] =
    charSum [CTLCHAR, STATS, 32] + charSum [47] + charSum [47] + charSum [10] := by decide
  omega

theorem statDigits_some {n : ℤ} {pkt pkt' : Packet} {digits : Line}
    (h : statDigits n pkt = some (digits, pkt')) :
    pkt' = pkt ∧ digits.length = 5 ∧ ∀ c ∈ digits, isDigit c = true := by
  unfold statDigits at h
  split_ifs at h
  · exact (lift_none_some.mp h).elim
  · obtain ⟨rfl, rfl⟩ := pure_some.mp h
    have hmax : min n MAX_LINES ≤ 99999 := Int.min_le_right n MAX_LINES
    exact ⟨rfl, length_fiveDigits (by omega), fiveDigits_isDigit _⟩

theorem not_mem_statsLine {ins del unc : Line} (h1 : ∀ c ∈ ins, isDigit c = true)
    (h2 : ∀ c ∈ del, isDigit c = true) (h3 : ∀ c ∈ unc, isDigit c = true) :
    0 ∉ statsLine ins del unc := by
  have hzero : isDigit 0 = false := rfl
  have hnot : ∀ {digits : Line}, (∀ c ∈ digits, isDigit c = true) → 0 ∉ digits := fun h hmem => by
    simp [h 0 hmem] at hzero
  simp [statsLine, hnot h1, hnot h2, hnot h3, CTLCHAR, STATS]

/-- The digits that are put over the zeros are in the sum as well. -/
theorem flushline_some (stats : Stats) : Triple (Writing headZero statsZero)
    (flushline (some stats)) fun _ pkt => Sealed pkt.Xiop := by
  intro pkt _ pkt' hpkt h
  obtain ⟨_, t₁, hget, h₁⟩ := bind_some.mp h
  obtain ⟨rfl, rfl⟩ := get_some.mp hget
  rw [if_neg (by simp [hpkt.upd])] at h₁
  obtain ⟨_, t₂, hput, h₂⟩ := bind_some.mp h₁
  obtain ⟨ins, t₃, hins, h₃⟩ := bind_some.mp h₂
  obtain ⟨del, t₄, hdel, h₄⟩ := bind_some.mp h₃
  obtain ⟨unc, t₅, hunc, h₅⟩ := bind_some.mp h₄
  obtain ⟨rfl, hlen1, hdig1⟩ := statDigits_some hins
  obtain ⟨rfl, hlen2, hdig2⟩ := statDigits_some hdel
  obtain ⟨rfl, hlen3, hdig3⟩ := statDigits_some hunc
  have hwriting : Writing headZero statsZero t₅ := keeps_putline none _ _ _ hpkt hput
  obtain ⟨rest, hrest, hX, hsum⟩ := hwriting.sum
  rw [modify_some.mp h₅]
  dsimp only
  generalize hn : addDigits (addDigits (addDigits t₅.p_nhash ins) del) unc = nhash
  have hnhash : nhash = charSum (statsLine ins del unc ++ rest) := by
    have hz : charSum statsZero = charSum (List.replicate 5 48) + charSum (List.replicate 5 48) +
      charSum (List.replicate 5 48) + charSum [CTLCHAR, STATS, 32, 47, 47, 10] := by decide
    rw [← hn, addDigits_eq, addDigits_eq, addDigits_eq, hlen1, hlen2, hlen3, hsum, charSum_append,
      charSum_append, hz, charSum_statsLine]
    omega
  have hlt : (nhash % 65536).toNat < 65536 := by omega
  have hlen : (headLine (nhash % 65536).toNat ++ statsLine ins del unc).length =
      (headZero ++ statsZero).length := by
    rw [List.length_append, List.length_append, length_headLine hlt,
      length_statsLine hlen1 hlen2 hlen3]
    rfl
  rw [overwrite, hX, hlen, ← List.append_assoc headZero, List.drop_left, List.append_assoc,
    sealed_headLine, hnhash]
  · omega
  · rw [List.mem_append, not_or]
    exact ⟨not_mem_statsLine hdig1 hdig2 hdig3, hrest⟩

theorem deltaFile_sealed {zone : Zone} {c : Checkin} {fuel : ℕ} {file x : Line}
    (h : deltaFile zone c fuel file = some x) : Sealed x := by
  obtain ⟨r, hrun, rfl⟩ := Option.map_eq_some_iff.mp h
  have htriple : Triple (fun _ => True) (delta zone c fuel file) fun _ pkt => Sealed pkt.Xiop := by
    refine triple_bind (Q := fun _ => Idle) ?_ fun _ => triple_bind (Q := fun _ => Idle)
      (triple_modify fun pkt h => ⟨h.1, h.2, h.3⟩) fun _ => triple_bind
        (keeps_dodelt zone (fun _ => keeps_pure _) none 0 fuel) fun d => ?_
    · intro pkt _ pkt' _ hsinit
      obtain ⟨l, ls, -, -, rfl⟩ := sinit_some.mp hsinit
      exact ⟨rfl, rfl, rfl⟩
    · refine triple_get_bind fun pkt => triple_mono (P := Idle) ?_ (fun _ h => h.2) fun _ _ h => h
      refine triple_bind keeps_fatalIf fun _ => triple_bind
        (keeps_change fun _ => ⟨rfl, rfl, rfl, rfl, rfl⟩) fun _ => triple_bind (keeps_setup _)
          fun _ => triple_bind (keeps_finduser fuel) fun _ => triple_bind (keeps_doflags fuel)
            fun _ => triple_bind keeps_fatalIf fun _ => triple_bind (keeps_flushto _ _ _) fun _ =>
              triple_bind (keeps_change fun _ => ⟨rfl, rfl, rfl, rfl, rfl⟩) fun _ =>
                triple_bind (readRest_eof fuel fuel) fun _ => triple_get_bind fun pkt' => ?_
      refine triple_mono (P := Restart) (triple_bind (attempts_restart c fuel c.attempts 8)
        fun counts => flushline_some _) ?_ fun _ _ h => h
      exact fun t h => ⟨h.2.2, h.2.1.create, h.2.1.sum⟩
  exact htriple _ _ _ trivial hrun

/-- An s-file with one delta, after its first line. -/
def oneDelta : Line :=
  [1, 115, 32, 48, 48, 48, 48, 49, 47, 48, 48, 48, 48, 48, 47, 48, 48, 48, 48, 48, 10, 1, 100, 32,
    68, 32, 49, 46, 49, 32, 50, 52, 47, 48, 49, 47, 48, 49, 32, 48, 48, 58, 48, 48, 58, 48, 48,
    32, 109, 101, 32, 49, 32, 48, 10, 1, 99, 32, 120, 10, 1, 101, 10, 1, 117, 10, 1, 85, 10, 1,
    116, 10, 1, 84, 10, 1, 73, 32, 49, 10, 97, 10, 1, 69, 32, 49, 10]

/-- The comments of its delta are changed. -/
def oneChange : Change := ⟨68, ⟨1, 1, 0, 0⟩, true, false, [], [], [121], [100], [109, 101]⟩

def utc : Zone := ⟨0, fun _ => false⟩

/-- The new s-file has the right sum wherever the first line of the old one gives way to one that
is as long. `delta` writes its own. -/
theorem xfile_sealed (zone : Zone) (cmd : Command) (file x : Line)
    (h : cmd.run zone file = some x) : Sealed x ↔ cmd.IsDelta ∨ Aligned file := by
  cases cmd with
  | rmchg c =>
    rw [rmchgFile_sealed h]
    exact (or_iff_right id).symm
  | delta c fuel => exact iff_of_true (deltaFile_sealed h) (Or.inl trivial)

theorem xfile_sealed_oneDelta :
    ∃ x, (Command.rmchg oneChange).run utc (headLine 3874 ++ oneDelta) = some x ∧
      (Sealed x ↔ (Command.rmchg oneChange).IsDelta ∨ Aligned (headLine 3874 ++ oneDelta)) := by
  have hrun : ((Command.rmchg oneChange).run utc (headLine 3874 ++ oneDelta)).isSome = true := by
    decide +kernel
  obtain ⟨x, hx⟩ := Option.isSome_iff_exists.mp hrun
  exact ⟨x, hx, xfile_sealed utc _ _ x hx⟩

/-- A first line with six digits is a byte longer than the one that is put over it. -/
theorem not_xfile_sealed : ¬ ∀ (zone : Zone) (cmd : Command) (file x : Line),
    cmd.run zone file = some x → Sealed x := by
  intro h
  let file : Line := [1, 104, 48, 48, 51, 56, 55, 52, 10] ++ oneDelta
  have hrun : ((Command.rmchg oneChange).run utc file).isSome = true := by decide +kernel
  obtain ⟨x, hx⟩ := Option.isSome_iff_exists.mp hrun
  have haligned : ¬ Aligned file := by decide +kernel
  exact haligned ((rmchgFile_sealed hx).mp (h utc _ file x hx))

end Unitas.Sccs
