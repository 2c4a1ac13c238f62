import Unitas.Unpack.Main
import Unitas.Unpack.SameDict

/-! What a file makes of the static variables that the files before it have left. -/
namespace Unitas.Unpack
open Function Unitas.Simulation

section Getdict
variable (BUFSIZ : ℕ)

theorem overlay_nil (buf : ℕ → UInt8) : overlay [] buf = buf := rfl

theorem read_at_end {s : State} (hfile : s.infile = []) :
    s.read BUFSIZ = { s with inleft := if s.readErr then -1 else 0 } := by
  obtain ⟨statics, infile, readErr, written, writeErr⟩ := s
  obtain rfl : infile = [] := hfile
  cases readErr <;> simp [State.read, overlay_nil]

theorem refill_at_end {s : State} (hfile : s.infile = []) (hleft : s.inleft ≤ 0) :
    s.refill BUFSIZ = { s with inleft := if s.readErr then -1 else 0, inp := 0 } := by
  rw [State.refill, if_pos hleft, read_at_end BUFSIZ hfile]

/-- Without a byte after the header the dictionary is not used at all. -/
theorem decode_at_end {s : State} (hfile : s.infile = []) (hleft : s.inleft ≤ 0) :
    (decode BUFSIZ s).1 = .failure (if s.readErr then .readError else .unpackingError) ∧
      (decode BUFSIZ s).2.toFiles = s.toFiles := by
  rw [decode, decodeBytes, refill_at_end BUFSIZ (s := { s with outbuff := [] }) hfile hleft]
  by_cases herr : s.readErr
  · simp [herr]
  · simp [herr]

theorem decode_same {maxlev : ℕ} {d e : State} (hpos : 1 ≤ maxlev)
    (h : SameDict maxlev { d with outbuff := [] } { e with outbuff := [] }) :
    (decode BUFSIZ e).1 = (decode BUFSIZ d).1 ∧
      (decode BUFSIZ e).2.toFiles = (decode BUFSIZ d).2.toFiles := by
  have hleft : e.inleft = d.inleft := h.inleft
  have hinfile : e.infile = d.infile := h.infile
  rw [decode, decode, show e.inleft.toNat + e.infile.length + 1 =
    d.inleft.toNat + d.infile.length + 1 by rw [hleft, hinfile]]
  exact decodeBytes_same BUFSIZ _ 1 0 _ _ h ⟨le_rfl, hpos, fun _ => rfl, by omega⟩

/-- The present format: a file without levels must not have a code to decode. -/
theorem readDict_same {t s : State} (h : SameHeader t s) (ht : t.eof = 0) (hs : s.eof = 0)
    (hnone : headerLevels t = 0 → t.infile = [] ∧ t.inleft ≤ 8) :
    (readDict BUFSIZ s).1 = (readDict BUFSIZ t).1 ∧
      (readDict BUFSIZ s).2.toFiles = (readDict BUFSIZ t).2.toFiles := by
  have hfiles : s.toFiles = t.toFiles := h.files
  by_cases hfits : DictFits t
  · obtain ⟨d, hd, hloaded⟩ := readDict_of_fits BUFSIZ ht hfits
    obtain ⟨e, he, hloaded'⟩ := readDict_of_fits BUFSIZ hs (h.dictFits.mpr hfits)
    rw [hd, he]
    by_cases hpos : 1 ≤ headerLevels t
    · exact decode_same BUFSIZ hpos (h.loaded hfits hpos hloaded hloaded')
    · obtain ⟨hend, hleft8⟩ := hnone (by omega)
      have hleft : s.inleft = t.inleft := h.inleft
      have hE : 8 ≤ headerEnd t ∧ 8 ≤ headerEnd s := by
        unfold headerEnd
        omega
      obtain ⟨_, _, _, rfl⟩ := hloaded.frame
      obtain ⟨_, _, _, rfl⟩ := hloaded'.frame
      rw [(decode_at_end BUFSIZ (by exact h.infile.trans hend) (by dsimp only; omega)).1,
        (decode_at_end BUFSIZ (by exact h.infile.trans hend) (by dsimp only; omega)).2,
        (decode_at_end BUFSIZ (by exact hend) (by dsimp only; omega)).1,
        (decode_at_end BUFSIZ (by exact hend) (by dsimp only; omega)).2]
      exact ⟨by rw [show s.readErr = t.readErr from h.readErr], hfiles⟩
  · obtain ⟨t', ht', htfiles⟩ := readDict_of_not_fits BUFSIZ ht hfits
    obtain ⟨s', hs', hsfiles⟩ := readDict_of_not_fits BUFSIZ hs (fun h' => hfits (h.dictFits.mp h'))
    rw [ht', hs']
    exact ⟨rfl, hsfiles.trans (hfiles.trans htfiles.symm)⟩

/-- At the end of a file, of which `written` has gone out. -/
structure AtEnd (written : List UInt8) (s : State) : Prop where
  infile : s.infile = []
  inleft : s.inleft ≤ 0
  written : s.written = written

/-- A failure by which nothing more has gone out. -/
def FailsWith (out : List UInt8) (r : Result) (s : State) : Prop :=
  (∃ msg, r = .failure msg) ∧ s.written = out

theorem getch_at_end {out : List UInt8} {s : State} (h : AtEnd out s) :
    Ends (fun _ t => AtEnd out t ∧ t.isEof) (FailsWith out) (getch BUFSIZ) s := by
  unfold getch
  apply ends_modify_bind
  apply ends_get_bind
  rw [refill_at_end BUFSIZ h.infile h.inleft]
  by_cases herr : s.readErr
  · simp only [herr, if_true, Int.reduceNeg, Int.reduceLT]
    exact ends_throw ⟨⟨_, rfl⟩, h.written⟩
  · simp only [herr, Bool.false_eq_true, if_false, lt_self_iff_false, if_true]
    apply ends_set_bind
    exact ends_pure ⟨⟨h.infile, le_rfl, h.written⟩, rfl⟩

theorem getwdsize_at_end {out : List UInt8} {s : State} (h : AtEnd out s) :
    Ends (fun _ t => AtEnd out t ∧ t.isEof) (FailsWith out) (getwdsize BUFSIZ) s := by
  unfold getwdsize
  apply ends_bind (getch_at_end BUFSIZ h)
  rintro _ t ⟨h, _⟩
  apply ends_bind (getch_at_end BUFSIZ h)
  rintro _ t ⟨h, heof⟩
  apply ends_get_bind
  rw [if_pos heof]
  exact ends_pure ⟨h, heof⟩

/-- A file of less than two bytes that is taken for one of the older format, after what the
file before has left in the buffer. -/
theorem expand_short {s : State} (hfile : s.infile = []) (hleft : s.inleft ≤ 1) :
    Ends (fun _ _ => False) (FailsWith s.written) (expand BUFSIZ) s := by
  unfold expand
  apply ends_modify_bind
  have h : AtEnd s.written { s with outbuff := [], inp := 2, inleft := s.inleft - 2 } :=
    ⟨hfile, by dsimp only; omega, rfl⟩
  apply ends_bind (getwdsize_at_end BUFSIZ h)
  rintro _ t ⟨h, _⟩
  apply ends_bind (getwdsize_at_end BUFSIZ h)
  rintro _ t ⟨h, heof⟩
  apply ends_modify_bind
  apply ends_get_bind
  rw [if_pos (Or.inr heof)]
  exact ends_throw_bind ⟨⟨_, rfl⟩, h.written⟩

/-- The state after the first `read` of `getdict`. -/
def firstRead (s : State) : State :=
  State.read BUFSIZ { s with eof := 0, inbuff := update s.inbuff 6 25 }

/-- What `getdict` makes of a return or an exception of the older decoder. -/
def ended : EStateM.Result Result State Unit → Result × State
  | .ok _ s => (.success, s)
  | .error r s => (r, s)

theorem ended_agree {r r' : EStateM.Result Result State Unit}
    (h : Agree (Known False) .undefined r r') (hdef : (ended r).1 ≠ .undefined) :
    (ended r').1 = (ended r).1 ∧ (ended r').2.toFiles = (ended r).2.toFiles := by
  cases h with
  | ok h => exact ⟨rfl, h.files⟩
  | error h => exact ⟨rfl, h.files⟩
  | unknown => exact absurd rfl hdef

theorem getdict_eq (s : State) : getdict BUFSIZ s =
    if (firstRead BUFSIZ s).inleft < 0 then (.failure .readError, firstRead BUFSIZ s)
    else if (firstRead BUFSIZ s).inbuff 0 ≠ US then
      (.failure .notPackedFormat, firstRead BUFSIZ s)
    else if (firstRead BUFSIZ s).inbuff 1 = US then
      ended (expand BUFSIZ (firstRead BUFSIZ s))
    else if (firstRead BUFSIZ s).inbuff 1 ≠ RS then
      (.failure .notPackedFormat, firstRead BUFSIZ s)
    else readDict BUFSIZ (firstRead BUFSIZ s) := rfl

theorem firstRead_frame (s : State) : (firstRead BUFSIZ s).written = s.written ∧
    (firstRead BUFSIZ s).eof = 0 ∧ (firstRead BUFSIZ s).isEof = s.isEof ∧
    (firstRead BUFSIZ s).Tree = s.Tree := by
  unfold firstRead State.read
  split_ifs
  · exact ⟨rfl, rfl, rfl, rfl⟩
  · exact ⟨rfl, rfl, rfl, rfl⟩

theorem firstRead_buffer {s : State} (h : s.infile ≠ []) :
    (firstRead BUFSIZ s).inleft = min BUFSIZ s.infile.length ∧
      (firstRead BUFSIZ s).infile = s.infile.drop BUFSIZ ∧
      ∀ i, (firstRead BUFSIZ s).inbuff i =
        (s.infile.take BUFSIZ).getD i (update s.inbuff 6 25 i) := by
  unfold firstRead State.read
  rw [if_neg (fun hend => h hend.1)]
  refine ⟨by simp, rfl, fun i => rfl⟩

theorem firstRead_bytes {s : State} {a b : UInt8} {rest : List UInt8} (hB : 2 ≤ BUFSIZ)
    (h : s.infile = a :: b :: rest) : ¬ (firstRead BUFSIZ s).inleft < 0 ∧
      (firstRead BUFSIZ s).inbuff 0 = a ∧ (firstRead BUFSIZ s).inbuff 1 = b := by
  obtain ⟨hleft, _, hbuf⟩ := firstRead_buffer BUFSIZ (s := s) (by rw [h]; simp)
  obtain ⟨k, rfl⟩ : ∃ k, BUFSIZ = k + 2 := ⟨BUFSIZ - 2, by omega⟩
  rw [hbuf, hbuf, h, hleft]
  refine ⟨?_, by simp, by simp⟩
  omega

theorem firstRead_same {t s : State} (h : s.toFiles = t.toFiles) :
    SameHeader (firstRead BUFSIZ t) (firstRead BUFSIZ s) := by
  refine ⟨SameInput.read (t := { t with eof := 0, inbuff := update t.inbuff 6 25 })
    (s := { s with eof := 0, inbuff := update s.inbuff 6 25 }) h 0 rfl, ?_⟩
  have hinfile : s.infile = t.infile := congrArg Files.infile h
  have herr : s.readErr = t.readErr := congrArg Files.readErr h
  unfold firstRead State.read
  rw [hinfile, herr]
  split_ifs
  · simp only [update_self]
  · simp only [overlay, update_self]

theorem firstRead_levels {s : State} (h : s.infile.length ≤ 6) :
    (firstRead BUFSIZ s).inbuff 6 = 25 := by
  unfold firstRead State.read
  split_ifs
  · simp only [update_self]
  · have hshort : (s.infile.take BUFSIZ).length ≤ 6 := by
      rw [List.length_take]
      omega
    simp only [overlay, List.getD_eq_getElem?_getD, List.getElem?_eq_none hshort,
      Option.getD_none, update_self]

theorem firstRead_short {s : State} (hB : 1 ≤ BUFSIZ) (h : s.infile.length ≤ 1) :
    (firstRead BUFSIZ s).infile = [] ∧ (firstRead BUFSIZ s).inleft ≤ 1 := by
  unfold firstRead State.read
  split_ifs with hend
  · exact ⟨hend.1, by simp⟩
  · have hdrop : s.infile.drop BUFSIZ = [] := List.drop_eq_nil_of_le (by omega)
    refine ⟨hdrop, ?_⟩
    simp only [List.length_take]
    omega

/-- A file of less than two bytes fails, whatever is taken for its header. -/
theorem getdict_short {s : State} (hB : 1 ≤ BUFSIZ) (h : s.infile.length ≤ 1) :
    FailsWith s.written (getdict BUFSIZ s).1 (getdict BUFSIZ s).2 := by
  obtain ⟨hwritten, heof, _⟩ := firstRead_frame BUFSIZ s
  obtain ⟨hend, hleft⟩ := firstRead_short BUFSIZ hB h
  have hlevels := firstRead_levels BUFSIZ (s := s) (by omega)
  rw [getdict_eq]
  generalize firstRead BUFSIZ s = t at hwritten heof hend hleft hlevels ⊢
  by_cases hneg : t.inleft < 0
  · rw [if_pos hneg]
    exact ⟨⟨_, rfl⟩, hwritten⟩
  rw [if_neg hneg]
  by_cases hfirst : t.inbuff 0 ≠ US
  · rw [if_pos hfirst]
    exact ⟨⟨_, rfl⟩, hwritten⟩
  rw [if_neg hfirst]
  by_cases hold : t.inbuff 1 = US
  · rw [if_pos hold]
    have hends := expand_short BUFSIZ hend hleft
    unfold Ends at hends
    cases hexp : expand BUFSIZ t with
    | ok _ u =>
      rw [hexp] at hends
      exact hends.elim
    | error r u =>
      rw [hexp, hwritten] at hends
      exact hends
  rw [if_neg hold]
  by_cases hnew : t.inbuff 1 ≠ RS
  · rw [if_pos hnew]
    exact ⟨⟨_, rfl⟩, hwritten⟩
  rw [if_neg hnew]
  have hfits : ¬ DictFits t := by
    rintro ⟨hle, _⟩
    rw [headerLevels, hlevels] at hle
    exact absurd hle (by decide)
  obtain ⟨u, hu, hfiles⟩ := readDict_of_not_fits BUFSIZ heof hfits
  rw [hu]
  exact ⟨⟨_, rfl⟩, (congrArg Files.written hfiles).trans hwritten⟩

/-- The table of the older decoder with no entry in it. -/
def State.blank (s : State) : State := { s with Tree := fun _ => none }

/-- Decoding the file from two states. Of the state `t`, in which it is decoded alone, `blank`
is left with what an older file must not need. -/
theorem getdict_same {t s : State} (hB : 8 ≤ BUFSIZ) (h : s.toFiles = t.toFiles)
    (heof : [US, US] <+: t.infile → s.isEof = t.isEof)
    (htable : [US, US] <+: t.infile → (getdict BUFSIZ t.blank).1 ≠ .undefined)
    (hlevels : [US, RS] <+: t.infile → t.infile[6]? = some 0 → t.infile.length ≤ 8) :
    ((getdict BUFSIZ s).1 = .success ↔ (getdict BUFSIZ t).1 = .success) ∧
      (getdict BUFSIZ s).2.written = (getdict BUFSIZ t).2.written := by
  have hinfile : s.infile = t.infile := congrArg Files.infile h
  have hwritten : s.written = t.written := congrArg Files.written h
  by_cases hshort : t.infile.length ≤ 1
  · obtain ⟨⟨_, hs⟩, hsw⟩ := getdict_short BUFSIZ (s := s) (by omega) (by rw [hinfile]; omega)
    obtain ⟨⟨_, ht⟩, htw⟩ := getdict_short BUFSIZ (s := t) (by omega) hshort
    rw [hs, ht, hsw, htw]
    exact ⟨by simp, hwritten⟩
  suffices hsame : (getdict BUFSIZ s).1 = (getdict BUFSIZ t).1 ∧
      (getdict BUFSIZ s).2.toFiles = (getdict BUFSIZ t).2.toFiles by
    rw [hsame.1]
    exact ⟨Iff.rfl, congrArg Files.written hsame.2⟩
  obtain ⟨a, b, rest, hfile⟩ : ∃ a b rest, t.infile = a :: b :: rest := by
    match hfile : t.infile with
    | [] => simp [hfile] at hshort
    | [_] => simp [hfile] at hshort
    | a :: b :: rest => exact ⟨a, b, rest, rfl⟩
  obtain ⟨hs, hsa, hsb⟩ := firstRead_bytes BUFSIZ (by omega) (hinfile.trans hfile)
  obtain ⟨ht, hta, htb⟩ := firstRead_bytes BUFSIZ (by omega) hfile
  have hsame := firstRead_same BUFSIZ h
  rw [getdict_eq, getdict_eq, if_neg hs, if_neg ht, hsa, hta, hsb, htb]
  by_cases hUS : a ≠ US
  · rw [if_pos hUS, if_pos hUS]
    exact ⟨rfl, hsame.files⟩
  rw [if_neg hUS, if_neg hUS]
  rw [not_not] at hUS
  by_cases hold : b = US
  · have hprefix : [US, US] <+: t.infile := ⟨rest, by rw [hfile, hUS, hold]; rfl⟩
    obtain ⟨hb, hba, hbb⟩ := firstRead_bytes BUFSIZ (s := t.blank) (by omega) hfile
    have hdef := htable hprefix
    rw [getdict_eq, if_neg hb, hba, if_neg (not_not.mpr hUS), hbb, if_pos hold] at hdef
    have hsim : ∀ u : State, u.toFiles = t.toFiles → u.isEof = t.isEof →
        (ended (expand BUFSIZ (firstRead BUFSIZ u))).1 =
            (ended (expand BUFSIZ (firstRead BUFSIZ t.blank))).1 ∧
          (ended (expand BUFSIZ (firstRead BUFSIZ u))).2.toFiles =
            (ended (expand BUFSIZ (firstRead BUFSIZ t.blank))).2.toFiles := by
      intro u hu hueof
      apply ended_agree _ hdef
      have hread := firstRead_same BUFSIZ (t := t.blank) (s := u) hu
      apply expand_sim BUFSIZ hread.toSameInput
      · rw [(firstRead_frame BUFSIZ u).2.2.1, (firstRead_frame BUFSIZ t.blank).2.2.1]
        exact hueof
      · intro i v hv
        rw [(firstRead_frame BUFSIZ t.blank).2.2.2] at hv
        cases hv
    obtain ⟨hs1, hs2⟩ := hsim s h (heof hprefix)
    obtain ⟨ht1, ht2⟩ := hsim t rfl rfl
    rw [if_pos hold, if_pos hold, hs1, ht1, hs2, ht2]
    exact ⟨rfl, rfl⟩
  rw [if_neg hold, if_neg hold]
  by_cases hnew : b ≠ RS
  · rw [if_pos hnew, if_pos hnew]
    exact ⟨rfl, hsame.files⟩
  rw [if_neg hnew, if_neg hnew]
  rw [not_not] at hnew
  have hprefix : [US, RS] <+: t.infile := ⟨rest, by rw [hfile, hUS, hnew]; rfl⟩
  refine readDict_same BUFSIZ hsame (firstRead_frame BUFSIZ t).2.1 (firstRead_frame BUFSIZ s).2.1 ?_
  intro hzero
  obtain ⟨hleft, hrest, hbuf⟩ := firstRead_buffer BUFSIZ (s := t) (by rw [hfile]; simp)
  have hsix : t.infile[6]? = some 0 := by
    have hbyte : (firstRead BUFSIZ t).inbuff 6 = 0 := by
      rw [headerLevels] at hzero
      exact UInt8.toNat_inj.mp hzero
    rw [hbuf, update_self, List.getD_eq_getElem?_getD, List.getElem?_take_of_lt (by omega)] at hbyte
    cases hget : t.infile[6]? with
    | none =>
      rw [hget] at hbyte
      exact absurd hbyte (by decide)
    | some c =>
      rw [hget] at hbyte
      exact congrArg some hbyte
  have hlen := hlevels hprefix hsix
  refine ⟨hrest.trans (List.drop_eq_nil_of_le (by omega)), ?_⟩
  rw [hleft]
  omega

end Getdict

section Run

/-- The packed file of an operand for which `pcat` calls `getdict`. -/
def pcatCalled (sys : System) (arg : Path) (s : Main) : Option (List UInt8) :=
  let filename := packedName sys.MAXPATHLEN (stripSuffix arg)
  if sys.openErr filename then none else s.disk filename

theorem unpackOpened_pcat (sys : System) (argvk filename : Path) (packed : List UInt8) (s : Main)
    (herr : s.errflg = 0) :
    unpackOpened sys true argvk filename packed s =
      let r := getdict sys.BUFSIZ (opened sys argvk packed s)
      { s with
        toStatics := r.2.toStatics
        stdout := s.stdout ++ r.2.written
        fcount := if r.1 = .success then s.fcount - 1 else s.fcount } := by
  unfold unpackOpened
  dsimp only
  split_ifs <;> simp_all

/-- One operand of `pcat`. -/
theorem unpackFile_pcat (sys : System) (arg : Path) (s : Main) (herr : s.errflg = 0) :
    unpackFile sys true arg s =
      match pcatCalled sys arg s with
      | none => { s with fcount := s.fcount + 1 }
      | some packed =>
        let r := getdict sys.BUFSIZ (opened sys (stripSuffix arg) packed s)
        { s with
          toStatics := r.2.toStatics
          stdout := s.stdout ++ r.2.written
          fcount := if r.1 = .success then s.fcount else s.fcount + 1 } := by
  unfold unpackFile pcatCalled
  dsimp only
  rw [if_neg (by omega)]
  cases hdisk : s.disk (packedName sys.MAXPATHLEN (stripSuffix arg)) with
  | none => split_ifs <;> rfl
  | some packed =>
    dsimp only
    by_cases hopen : sys.openErr (packedName sys.MAXPATHLEN (stripSuffix arg))
    · rw [if_pos hopen, if_pos hopen]
    · rw [if_neg hopen, if_neg hopen, if_pos rfl]
      exact unpackOpened_pcat sys _ _ packed { s with fcount := s.fcount + 1 } herr

/-- What `pcat` writes for an operand, and whether it is counted as unpacked. -/
def report (sys : System) (arg : Path) (s : Main) : List UInt8 × Bool :=
  let s' := unpackFile sys true arg s
  (s'.stdout.drop s.stdout.length, s'.fcount = s.fcount)

theorem report_eq (sys : System) (arg : Path) (s : Main) (herr : s.errflg = 0) :
    report sys arg s =
      match pcatCalled sys arg s with
      | none => ([], false)
      | some packed =>
        let r := getdict sys.BUFSIZ (opened sys (stripSuffix arg) packed s)
        (r.2.written, r.1 = .success) := by
  unfold report
  rw [unpackFile_pcat sys arg s herr]
  cases pcatCalled sys arg s with
  | none => simp
  | some packed =>
    dsimp only
    rw [List.drop_left]
    split_ifs with hsuccess <;> simp [hsuccess]

/-- The variables left by the files before make no difference to the next one. An older file
comes while no end of file has been seen, and fills the entries of `Tree` that its text needs;
a file of the present format with text has at least one level. -/
structure Unaffected (sys : System) (arg : Path) (packed : List UInt8) (s : Main) : Prop where
  isEof : [US, US] <+: packed → s.isEof = false
  table : [US, US] <+: packed → (getdict sys.BUFSIZ (State.blank
    (opened sys (stripSuffix arg) packed { s with toStatics := Statics.loaded }))).1 ≠ .undefined
  levels : [US, RS] <+: packed → packed[6]? = some 0 → packed.length ≤ 8

theorem report_same {sys : System} (hB : 8 ≤ sys.BUFSIZ) {arg : Path} {s s₀ : Main}
    (hloaded : s₀.toStatics = Statics.loaded) (herr₀ : s₀.errflg = 0) (herr : s.errflg = 0)
    (hdisk : s.disk = s₀.disk)
    (h : ∀ packed ∈ pcatCalled sys arg s, Unaffected sys arg packed s) :
    report sys arg s = report sys arg s₀ := by
  have hcalled : pcatCalled sys arg s = pcatCalled sys arg s₀ := by
    unfold pcatCalled
    rw [hdisk]
  rw [report_eq _ _ _ herr, report_eq _ _ _ herr₀, ← hcalled]
  cases hpacked : pcatCalled sys arg s with
  | none => rfl
  | some packed =>
    obtain ⟨hisEof, htable, hlevels⟩ := h packed hpacked
    obtain ⟨hsuccess, hwritten⟩ := getdict_same sys.BUFSIZ
      (t := opened sys (stripSuffix arg) packed s₀) (s := opened sys (stripSuffix arg) packed s)
      hB rfl
      (fun hold => by
        unfold opened
        rw [hloaded]
        exact hisEof hold)
      (fun hold => by
        unfold opened at htable ⊢
        rw [hloaded]
        exact htable hold)
      hlevels
    dsimp only
    rw [hwritten]
    simp only [hsuccess]

theorem unpackFile_keeps (sys : System) (arg : Path) (s : Main) (herr : s.errflg = 0) :
    (unpackFile sys true arg s).disk = s.disk ∧ (unpackFile sys true arg s).errflg = 0 := by
  rw [unpackFile_pcat sys arg s herr]
  cases pcatCalled sys arg s with
  | none => exact ⟨rfl, herr⟩
  | some packed => exact ⟨rfl, herr⟩

theorem unpackFiles_keeps (sys : System) (args : List Path) :
    ∀ s : Main, s.errflg = 0 →
      (unpackFiles sys true args s).disk = s.disk ∧ (unpackFiles sys true args s).errflg = 0 := by
  induction args with
  | nil => exact fun s herr => ⟨rfl, herr⟩
  | cons arg args ih =>
    intro s herr
    obtain ⟨hdisk, herr'⟩ := unpackFile_keeps sys arg s herr
    obtain ⟨hdisks, herrs⟩ := ih (unpackFile sys true arg s) herr'
    exact ⟨hdisks.trans hdisk, herrs⟩

/-- In a run of `pcat` whose files are unaffected by those before, each is written and reported
as if it were alone. -/
theorem unpackFiles_independent (sys : System) (hB : 288 ≤ sys.BUFSIZ) (args : List Path)
    (s₀ : Main) (hloaded : s₀.toStatics = Statics.loaded) (herr : s₀.errflg = 0)
    (h : ∀ before arg after, args = before ++ arg :: after →
      ∀ packed ∈ pcatCalled sys arg (unpackFiles sys true before s₀),
        Unaffected sys arg packed (unpackFiles sys true before s₀)) :
    ∀ before arg after, args = before ++ arg :: after →
      report sys arg (unpackFiles sys true before s₀) = report sys arg s₀ := by
  intro before arg after hargs
  obtain ⟨hdisk, herr'⟩ := unpackFiles_keeps sys before s₀ herr
  exact report_same (by omega) hloaded herr herr' hdisk (h before arg after hargs)

/-- `a` in the older format. -/
def olderA : List UInt8 := [31, 31, 0, 0, 1, 0, 4, 0, 2, 2, 0, 97, 0, 0]

def startOlder (first : List UInt8) : Main :=
  { startA with
    disk := fun p => if p = [97, 46, 122] then some first
      else if p = [98, 46, 122] then some olderA else none }

theorem unpackFiles_independent_ab :
    report plainSystem [98] (unpackFiles plainSystem true [[97]] (startOlder packedA)) =
      report plainSystem [98] (startOlder packedA) := by
  refine unpackFiles_independent plainSystem (by decide) [[97], [98]] (startOlder packedA) rfl rfl
    ?_ [[97]] [98] [] rfl
  intro before arg after hargs packed hpacked
  match before, hargs with
  | [], hargs =>
    obtain ⟨rfl, -⟩ := List.cons.inj hargs
    obtain rfl : packedA = packed := Option.some.inj hpacked
    exact ⟨by decide, by decide, by decide⟩
  | [_], hargs =>
    obtain ⟨rfl, hrest⟩ := List.cons.inj hargs
    obtain ⟨rfl, -⟩ := List.cons.inj hrest
    have hcalled : pcatCalled plainSystem [98]
        (unpackFiles plainSystem true [[97]] (startOlder packedA)) = some olderA := by
      decide +kernel
    obtain rfl : olderA = packed := Option.some.inj (hcalled.symm.trans hpacked)
    exact ⟨by decide +kernel, by decide +kernel, by decide⟩
  | _ :: _ :: _, hargs => simp at hargs

/-- After a file of nothing but its two header bytes `b.z` fails. -/
theorem unpackFiles_not_independent :
    ¬ ∀ before arg after, [[97], [98]] = before ++ arg :: after →
      report plainSystem arg (unpackFiles plainSystem true before (startOlder [31, 31])) =
        report plainSystem arg (startOlder [31, 31]) := by
  intro h
  have hsame := h [[97]] [98] [] rfl
  revert hsame
  decide +kernel

end Run

end Unitas.Unpack
