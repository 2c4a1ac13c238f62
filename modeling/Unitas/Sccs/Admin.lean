import Unitas.Sccs.History

/-! `admin -n`: the s-file that it makes of a text, which `get` gives back. -/
namespace Unitas.Sccs
open Unitas.Decimal Unitas.Hoare Unitas.Lines Unitas.Weave

def BUSERNAM : UInt8 := 117
def BUSERTXT : UInt8 := 116
def LOCKFLAG : UInt8 := 108
def ENCODEFLAG : UInt8 := 101

/-- What `admin -n` has been told. `entry` has the strings of the first delta up to its last line,
and a flag is a letter that may have a value. -/
structure NewFile where
  permitted : Bool
  entry : List Line
  anames : List Line
  flags : List (UInt8 × Option Line)
  tfile : Option Line
  ifile : Option Line

/-- Newlines in the value of a flag, but for the last one, are turned into blanks. -/
def flushNewlines : Line → Line
  | [] => []
  | [c] => [c]
  | c :: cs => (if c = 10 then 32 else c) :: flushNewlines cs

/-- The line of a flag. Of a lock on all releases there is just the first letter. -/
def flagLine (k : UInt8) (value : Option Line) : Line :=
  match value with
  | none => [CTLCHAR, FLAG, 32, k, 10]
  | some v =>
    [CTLCHAR, FLAG, 32, k, 32] ++
      flushNewlines ((if k = LOCKFLAG ∧ chr v = 97 then [97] else v) ++ [10])

/-- `fgetchk` copies a text. It stops at a line that begins with a control character or has a null
byte, and in the end if there is no newline: with an error, or with `none` if `fflag` says so. -/
def fgetchk (fflag : Bool) : ℕ → Line → UInt8 → ℤ → M (Option ℤ)
  | 0, _, _, _ => fatal
  | fuel + 1, input, lastchar, nline =>
    if input = [] then
      if lastchar ≠ 10 then if fflag then return none else fatal
      else return some nline
    else
      let (line, input) := fgets (BUFSIZ - 1) input
      if chr line = CTLCHAR ∨ 0 ∈ line then if fflag then return none else fatal
      else do
        putline (some line)
        let lastchar := line.getLast?.getD 0
        fgetchk fflag fuel input lastchar (if lastchar = 10 then nline + 1 else nline)

def ctlstr (c : UInt8) : Line := [CTLCHAR, c, 10]

/-- The text of the descriptive part. -/
def description (fuel : ℕ) : Option Line → M Unit
  | none => return
  | some tfile => do
    let _ ← fgetchk false fuel tfile 10 0
    return

/-- The text of the body. A text that has to be encoded is left out. -/
def firstBody (fuel : ℕ) : Option Line → M ℤ
  | none => return 0
  | some ifile => do
    match ← fgetchk true fuel ifile 10 0 with
    | none => fatal
    | some s_ins => return s_ins

/-- The names and flags have room in `char line[BUFSIZ]`. -/
def NewFile.fits (n : NewFile) : Bool :=
  n.anames.all (·.length + 2 ≤ BUFSIZ) && n.flags.all fun f => (flagLine f.1 f.2).length < BUFSIZ

/-- What `admin` does for a new file once it has the lock and an empty packet. Nothing is said of a
name or a value that is stored past the end of `line`. -/
def adminNew (n : NewFile) (fuel : ℕ) : M Unit := do
  fatalIf (n.permitted = false)
  fatalIf (n.fits = false)
  modify fun pkt => { pkt with p_upd := true }
  putline (some ([CTLCHAR, HEAD] ++ List.replicate 5 48 ++ [10]))
  newstats 48
  putAll n.entry
  putline (some (ctlstr EDELTAB))
  putline (some (ctlstr BUSERNAM))
  putAll (n.anames.map (· ++ [10]))
  putline (some (ctlstr EUSERNAM))
  putAll (n.flags.map fun f => flagLine f.1 f.2)
  doIf n.ifile.isSome (putline (some (flagLine ENCODEFLAG (some [48]))))
  putline (some (ctlstr BUSERTXT))
  putline none
  description fuel n.tfile
  putline (some (ctlstr EUSERTXT))
  putline (some (ctlLine INS 1))
  let s_ins ← firstBody fuel n.ifile
  putline (some (ctlLine END 1))
  flushline (some ⟨s_ins, 0, 0⟩)

def adminFile (n : NewFile) (fuel : ℕ) : Option Line :=
  (adminNew n fuel (zero [])).map fun r => r.2.Xiop

/-! ### A text -/

variable {fuel : ℕ} {t : Line} {pkt : Packet}

/-- The lines of a text that need not be encoded. -/
def IsText (ls : List Line) : Prop := ∀ l ∈ ls, (Ended l ∧ 0 ∉ l) ∧ chr l ≠ CTLCHAR

/-- The x-file has the text `t` after its first line, and nothing is waiting. -/
structure Wrote (t : Line) (pkt : Packet) : Prop where
  upd : pkt.p_upd = true
  reopen : pkt.p_reopen = false
  create : pkt.Xcreate = true
  wrttn : pkt.p_wrttn = true
  text : pkt.Xiop = headZero ++ t
  sum : pkt.p_nhash = charSum t

theorem wrote_putline {l : Line} (hl : 0 ∉ l) :
    Triple (Wrote t) (putline (some l)) fun _ => Wrote (t ++ l) := by
  intro pkt _ pkt' h hrun
  rw [Pass.putline_some h.upd] at hrun
  obtain ⟨-, rfl⟩ := Prod.mk.inj (Option.some.inj hrun)
  refine ⟨h.upd, h.reopen, rfl, h.wrttn, ?_, ?_⟩
  · simp only [put, h.create, if_true, h.text, cstr_eq_self hl, List.append_assoc]
  · simp only [put, h.create, if_true, h.sum, cstr_eq_self hl, charSum_append]

theorem wrote_putNone : Keeps (Wrote t) (putline none) := by
  refine keeps_modify fun pkt h => ?_
  rw [if_neg (by simp [h.upd])]
  dsimp only
  rw [if_pos h.wrttn, Pass.put_nil h.create]
  exact h

theorem wrote_putAll {ls : List Line} (hls : ∀ l ∈ ls, 0 ∉ l) :
    Triple (Wrote t) (putAll ls) fun _ => Wrote (t ++ ls.flatten) := by
  induction ls generalizing t with
  | nil =>
    rw [List.flatten_nil, List.append_nil]
    exact triple_pure fun _ h => h
  | cons l ls ih =>
    obtain ⟨hl, hls⟩ := List.forall_mem_cons.mp hls
    rw [List.flatten_cons, ← List.append_assoc]
    exact triple_bind (wrote_putline hl) fun _ => ih hls

theorem fileLines_piece {line rest l : Line} {ls : List Line} (h : 10 ∉ line)
    (hrest : fileLines rest = l :: ls) : fileLines (line ++ rest) = (line ++ l) :: ls := by
  induction line with
  | nil => exact hrest
  | cons c line ih =>
    have hc : c ≠ 10 := fun hc => h (hc ▸ List.mem_cons_self)
    rw [List.cons_append, fileLines, if_neg hc, ih fun hmem => h (List.mem_cons_of_mem c hmem)]
    rfl

/-- The text is copied, and its lines are as they should be. -/
theorem wrote_fgetchk (fflag : Bool) (fuel : ℕ) : ∀ {input t : Line} {lastchar : UInt8} {nline : ℤ},
    Triple (Wrote t) (fgetchk fflag fuel input lastchar nline) fun r pkt =>
      (r = none → fflag = true) ∧ (r ≠ none →
        Wrote (t ++ input) pkt ∧ IsText (fileLines input) ∧ (input = [] → lastchar = 10)) := by
  have hstop : ∀ {t : Line} {Q : Packet → Prop},
      Triple (Wrote t) (if fflag then return none else fatal : M (Option ℤ)) fun r pkt =>
        (r = none → fflag = true) ∧ (r ≠ none → Q pkt) := fun {_ _} =>
    triple_ite (fun h => triple_pure fun _ _ => ⟨fun _ => h, fun h => absurd rfl h⟩)
      fun _ => triple_fatal
  induction fuel with
  | zero => exact triple_fatal
  | succ fuel ih =>
    intro input t lastchar nline
    refine triple_ite (fun hinput => ?_) fun hinput => ?_
    · refine triple_ite (fun _ => hstop) fun hlast => triple_pure ?_
      refine fun pkt hpkt => ⟨fun h => absurd h (Option.some_ne_none nline), fun _ => ?_⟩
      rw [hinput, List.append_nil]
      exact ⟨hpkt, fun l hl => absurd hl List.not_mem_nil, fun _ => not_not.mp hlast⟩
    · have happend := fgets_append (BUFSIZ - 1) input
      have hne : (fgets (BUFSIZ - 1) input).1 ≠ [] := fgets_ne_nil 8190 hinput
      have hended := fgets_ended (BUFSIZ - 1) input
      generalize fgets (BUFSIZ - 1) input = r at happend hne hended
      obtain ⟨line, rest⟩ := r
      dsimp only at happend hne hended ⊢
      refine triple_ite (fun _ => hstop) fun hgood => ?_
      rw [not_or] at hgood
      rw [cstr_eq_self hgood.2] at hended
      refine triple_bind (wrote_putline hgood.2) fun _ => triple_mono ih (fun _ h => h) ?_
      rintro r pkt ⟨hnone, hr⟩
      refine ⟨hnone, fun hsome => ?_⟩
      obtain ⟨hwrote, htext, hlast⟩ := hr hsome
      refine ⟨by rwa [List.append_assoc, happend] at hwrote, ?_, fun h => absurd h hinput⟩
      rw [← happend]
      rcases hended with ⟨text, hnot, rfl⟩ | hnot
      · rw [List.append_assoc, List.singleton_append, fileLines_ended hnot]
        exact List.forall_mem_cons.mpr ⟨⟨⟨⟨text, hnot, rfl⟩, hgood.2⟩, hgood.1⟩, htext⟩
      · -- a line that is longer than the buffer
        cases hlines : fileLines rest with
        | nil =>
          have hrest : rest = [] := by rw [← flatten_fileLines rest, hlines]; rfl
          have hlast := hlast hrest
          rw [List.getLast?_eq_some_getLast hne, Option.getD_some] at hlast
          exact absurd (hlast ▸ List.getLast_mem hne) hnot
        | cons l ls =>
          rw [hlines] at htext
          obtain ⟨⟨⟨⟨text, htext₁, rfl⟩, h0⟩, -⟩, hls⟩ := List.forall_mem_cons.mp htext
          rw [fileLines_piece hnot hlines]
          refine List.forall_mem_cons.mpr ⟨⟨⟨⟨line ++ text, ?_, ?_⟩, ?_⟩, ?_⟩, hls⟩
          · exact fun hmem => (List.mem_append.mp hmem).elim hnot htext₁
          · rw [List.append_assoc]
          · exact fun hmem => (List.mem_append.mp hmem).elim hgood.2 h0
          · obtain ⟨c, line, rfl⟩ := List.exists_cons_of_ne_nil hne
            exact hgood.1

theorem wrote_description (tfile : Option Line) :
    Triple (Wrote t) (description fuel tfile) fun _ pkt =>
      Wrote (t ++ tfile.getD []) pkt ∧ IsText (fileLines (tfile.getD [])) := by
  cases tfile with
  | none =>
    refine triple_pure fun pkt h => ⟨?_, fun l hl => absurd hl List.not_mem_nil⟩
    rw [Option.getD_none, List.append_nil]
    exact h
  | some tfile =>
    refine triple_bind (wrote_fgetchk false fuel) fun r => triple_pure fun pkt h => ?_
    obtain ⟨hwrote, htext, -⟩ := h.2 fun hnone => absurd (h.1 hnone) Bool.false_ne_true
    exact ⟨hwrote, htext⟩

theorem wrote_firstBody (ifile : Option Line) :
    Triple (Wrote t) (firstBody fuel ifile) fun _ pkt =>
      Wrote (t ++ ifile.getD []) pkt ∧ IsText (fileLines (ifile.getD [])) := by
  cases ifile with
  | none =>
    refine triple_pure fun pkt h => ⟨?_, fun l hl => absurd hl List.not_mem_nil⟩
    rw [Option.getD_none, List.append_nil]
    exact h
  | some ifile =>
    refine triple_bind (wrote_fgetchk true fuel) fun r => ?_
    cases r with
    | none => exact triple_fatal
    | some s_ins =>
      refine triple_pure fun pkt h => ?_
      obtain ⟨hwrote, htext, -⟩ := h.2 (Option.some_ne_none s_ins)
      exact ⟨hwrote, htext⟩

/-! ### The s-file -/

variable {zone : Zone} {n : NewFile} {e : TableEntry zone} {x : Line}

/-- What the arguments of `admin` are like, and `e` is the first delta. -/
structure NewFile.Proper (n : NewFile) (e : TableEntry zone) : Prop where
  live : e.Live
  serial : e.dt.d_serial = 1
  pred : e.dt.d_pred = 0
  rel_pos : 0 < e.dt.d_sid.s_rel
  lists : ∀ l ∈ e.lines, ¬ IsIxg l
  last : e.last = ctlstr EDELTAB
  entry : n.entry.flatten = (e.first :: e.lines).flatten
  entryNul : ∀ l ∈ n.entry, 0 ∉ l
  ended : ∀ l ∈ e.first :: e.lines, Ended l
  anames : ∀ a ∈ n.anames, 10 ∉ a ∧ 0 ∉ a ∧ chr (a ++ [10]) ≠ CTLCHAR
  flags : ∀ f ∈ n.flags, (f.1 ≠ 0 ∧ f.1 ≠ 10) ∧ ∀ v ∈ f.2, 0 ∉ v

def NewFile.nameLines (n : NewFile) : List Line := n.anames.map (· ++ [10])

def NewFile.flagLines (n : NewFile) : List Line :=
  (n.flags.map fun f => flagLine f.1 f.2) ++
    if n.ifile.isSome then [flagLine ENCODEFLAG (some [48])] else []

/-- The body of the first delta. -/
def NewFile.body (n : NewFile) : List Line :=
  ctlLine INS 1 :: (fileLines (n.ifile.getD []) ++ [ctlLine END 1])

/-- What comes after the first delta. -/
def NewFile.rest (n : NewFile) : List Line :=
  ctlstr BUSERNAM :: (n.nameLines ++ ctlstr EUSERNAM :: (n.flagLines ++ ctlstr BUSERTXT ::
    (fileLines (n.tfile.getD []) ++ ctlstr EUSERTXT :: n.body)))

theorem not_mem_ctlstr {c : UInt8} (hc : c ≠ 0) : 0 ∉ ctlstr c := by
  intro h
  rcases List.mem_cons.mp h with h | h
  · exact absurd h (by decide)
  · rcases List.mem_cons.mp h with h | h
    · exact hc h.symm
    · exact absurd h (by decide)

theorem wrote_encode {c : Prop} [Decidable c] {l : Line}
    (hl : ∀ l' ∈ if c then [l] else [], 0 ∉ l') :
    Triple (Wrote t) (doIf c (putline (some l)))
      fun _ => Wrote (t ++ (if c then [l] else []).flatten) := by
  refine triple_ite (fun h => ?_) fun h => ?_
  · rw [if_pos h, List.flatten_singleton]
    rw [if_pos h] at hl
    exact wrote_putline (hl l (List.mem_singleton_self l))
  · rw [if_neg h, List.flatten_nil, List.append_nil]
    exact triple_pure fun _ h => h

/-- What `admin` writes. -/
theorem adminNew_wrote {pkt' : Packet} (hentry : ∀ l ∈ n.entry, 0 ∉ l)
    (hnames : ∀ l ∈ n.nameLines, 0 ∉ l) (hflags : ∀ l ∈ n.flagLines, 0 ∉ l)
    (hrun : adminNew n fuel (zero []) = some ((), pkt')) :
    IsText (fileLines (n.tfile.getD [])) ∧ IsText (fileLines (n.ifile.getD [])) ∧
      ∃ pkt s_ins,
        Wrote (statsZero ++ (n.entry.flatten ++ (ctlstr EDELTAB ++ n.rest.flatten))) pkt ∧
        flushline (some ⟨s_ins, 0, 0⟩) pkt = some ((), pkt') := by
  obtain ⟨hflags, hencode⟩ := List.forall_mem_append.mp hflags
  unfold adminNew at hrun
  obtain ⟨_, t₀, hpermitted, h₀⟩ := bind_some.mp hrun
  obtain ⟨-, rfl⟩ := fatalIf_some.mp hpermitted
  obtain ⟨_, t₁, hroom, h₁⟩ := bind_some.mp h₀
  obtain ⟨-, rfl⟩ := fatalIf_some.mp hroom
  obtain ⟨_, t₂, hupd, h₂⟩ := bind_some.mp h₁
  obtain ⟨_, t₃, hhead, h₃⟩ := bind_some.mp h₂
  have hw₃ : Wrote [] t₃ := by
    rw [modify_some.mp hupd] at hhead
    rw [Pass.putline_some rfl] at hhead
    obtain ⟨-, rfl⟩ := Prod.mk.inj (Option.some.inj hhead)
    exact ⟨rfl, rfl, rfl, rfl, rfl, rfl⟩
  obtain ⟨_, t₄, hstats, h₄⟩ := bind_some.mp h₃
  have hw₄ : Wrote ([] ++ statsZero) t₄ := wrote_putline (by decide) _ _ _ hw₃ hstats
  obtain ⟨_, t₅, hentry', h₅⟩ := bind_some.mp h₄
  have hw₅ := wrote_putAll hentry _ _ _ hw₄ hentry'
  obtain ⟨_, t₆, hedeltab, h₆⟩ := bind_some.mp h₅
  have hw₆ := wrote_putline (not_mem_ctlstr (by decide)) _ _ _ hw₅ hedeltab
  obtain ⟨_, t₇, hbusernam, h₇⟩ := bind_some.mp h₆
  have hw₇ := wrote_putline (not_mem_ctlstr (by decide)) _ _ _ hw₆ hbusernam
  obtain ⟨_, t₈, hnames', h₈⟩ := bind_some.mp h₇
  have hw₈ := wrote_putAll hnames _ _ _ hw₇ hnames'
  obtain ⟨_, t₉, heusernam, h₉⟩ := bind_some.mp h₈
  have hw₉ := wrote_putline (not_mem_ctlstr (by decide)) _ _ _ hw₈ heusernam
  obtain ⟨_, t₁₀, hflags', h₁₀⟩ := bind_some.mp h₉
  have hw₁₀ := wrote_putAll hflags _ _ _ hw₉ hflags'
  obtain ⟨_, t₁₁, hencode', h₁₁⟩ := bind_some.mp h₁₀
  have hw₁₁ := wrote_encode hencode _ _ _ hw₁₀ hencode'
  obtain ⟨_, t₁₂, hbusertxt, h₁₂⟩ := bind_some.mp h₁₁
  have hw₁₂ := wrote_putline (not_mem_ctlstr (by decide)) _ _ _ hw₁₁ hbusertxt
  obtain ⟨_, t₁₃, hnone, h₁₃⟩ := bind_some.mp h₁₂
  have hw₁₃ := wrote_putNone _ _ _ hw₁₂ hnone
  obtain ⟨_, t₁₄, hdescription, h₁₄⟩ := bind_some.mp h₁₃
  obtain ⟨hw₁₄, htfile⟩ := wrote_description n.tfile _ _ _ hw₁₃ hdescription
  obtain ⟨_, t₁₅, heusertxt, h₁₅⟩ := bind_some.mp h₁₄
  have hw₁₅ := wrote_putline (not_mem_ctlstr (by decide)) _ _ _ hw₁₄ heusertxt
  obtain ⟨_, t₁₆, hins, h₁₆⟩ := bind_some.mp h₁₅
  have hw₁₆ := wrote_putline (Pass.not_mem_ctlLine (by decide) 1) _ _ _ hw₁₅ hins
  obtain ⟨s_ins, t₁₇, hbody, h₁₇⟩ := bind_some.mp h₁₆
  obtain ⟨hw₁₇, hifile⟩ := wrote_firstBody n.ifile _ _ _ hw₁₆ hbody
  obtain ⟨_, t₁₈, hend, h₁₈⟩ := bind_some.mp h₁₇
  have hw₁₈ := wrote_putline (Pass.not_mem_ctlLine (by decide) 1) _ _ _ hw₁₇ hend
  refine ⟨htfile, hifile, t₁₈, s_ins, ?_, h₁₈⟩
  have htext : (fileLines (n.tfile.getD [])).flatten = n.tfile.getD [] := flatten_fileLines _
  have hbody' : (fileLines (n.ifile.getD [])).flatten = n.ifile.getD [] := flatten_fileLines _
  simpa [NewFile.rest, NewFile.body, NewFile.nameLines, NewFile.flagLines, htext, hbody'] using hw₁₈

/-- The s-file of a text. -/
def Sfile.new (h : n.Proper e) (hnames : ∀ l ∈ n.nameLines, chr l ≠ CTLCHAR)
    (htfile : IsText (fileLines (n.tfile.getD []))) (ins del unc : Line) (hash : ℕ)
    (hhash : hash < 65536) : Sfile zone where
  hash := hash
  deltas := [e.count ins del unc]
  bUsers := ctlstr BUSERNAM
  users := n.nameLines
  eUsers := ctlstr EUSERNAM
  flags := n.flagLines
  bText := ctlstr BUSERTXT
  comments := fileLines (n.tfile.getD [])
  eText := ctlstr EUSERTXT
  body := n.body
  hash_lt := hhash
  deltas_ne_nil := List.cons_ne_nil _ _
  descending := List.pairwise_singleton _ _
  serial_pos := List.forall_mem_singleton.mpr (by
    change 0 < e.dt.d_serial
    rw [h.serial]
    decide)
  pred_lt := List.forall_mem_singleton.mpr fun _ => by
    change e.dt.d_pred < e.dt.d_serial
    rw [h.serial, h.pred]
    decide
  rel_pos := List.forall_mem_singleton.mpr fun _ => h.rel_pos
  sid_inj := by
    intro d hd d' hd' _ _ _
    rw [List.mem_singleton.mp hd, List.mem_singleton.mp hd']
  isBUsers := by decide
  isUser := hnames
  isEUsers := by decide
  isFlag := by
    intro l hl
    rcases List.mem_append.mp hl with hl | hl
    · obtain ⟨f, -, rfl⟩ := List.mem_map.mp hl
      cases hf : f.2 with
      | none => exact ⟨rfl, rfl⟩
      | some v => exact ⟨rfl, rfl⟩
    · split_ifs at hl
      · rw [List.mem_singleton.mp hl]
        exact ⟨rfl, rfl⟩
      · exact absurd hl List.not_mem_nil
  isBText := by decide
  isComment := fun l hl hctl => (htfile l hl).2 hctl.1
  isEText := by decide

variable {cutoff : ℤ} {hash : ℕ}

/-- The only version of it is the text. -/
theorem get_new (h : n.Proper e) (hnames : ∀ l ∈ n.nameLines, chr l ≠ CTLCHAR)
    (htfile : IsText (fileLines (n.tfile.getD []))) {ins del unc : Line} {hhash : hash < 65536}
    (hifile : IsText (fileLines (n.ifile.getD []))) (hcutoff : e.dt.d_datetime ≤ cutoff) :
    (Sfile.new h hnames htfile ins del unc hash hhash).maxser = 1 ∧
      (Sfile.new h hnames htfile ins del unc hash hhash).get cutoff 1 =
        some (fileLines (n.ifile.getD [])) := by
  generalize hS : Sfile.new h hnames htfile ins del unc hash hhash = S
  have hmaxser : S.maxser = 1 := by
    rw [S.maxser_eq, ← hS]
    exact h.serial
  have htable : S.table 1 = ⟨e.dt.d_sid, [], 0, e.dt.d_datetime⟩ := by
    have hfind : liveAt 1 S.deltas = some (e.count ins del unc) := by
      rw [← hS]
      exact List.find?_cons_of_pos
        (by simpa [TableEntry.count, TableEntry.Live, h.serial] using h.live)
    unfold Sfile.table overlay
    rw [hfind]
    change e.idel = _
    rw [TableEntry.idel, foldl_addList h.lists, h.pred]
  refine ⟨hmaxser, ?_⟩
  have happly : ∃ ap, S.apply cutoff 1 = some ap ∧ applied ap 1 = true := by
    generalize hap₀ : Function.update noApply 1 { noApply 1 with a_inline := true } = ap₀
    have hinline : (ap₀ 1).a_inline = true := by rw [← hap₀, Function.update_self]
    have hcode : (decided S.table cutoff 1 ap₀ 1).a_code = APPLY := by
      unfold decided
      rw [htable]
      dsimp only
      rw [if_pos hinline, if_neg (Int.not_lt.mpr hcutoff), Function.update_self,
        Function.update_of_ne Nat.one_ne_zero, ← hap₀, Function.update_self]
      rfl
    refine ⟨decided S.table cutoff 1 ap₀, ?_, decide_eq_true hcode⟩
    rw [S.apply_eq, hmaxser, hap₀, setupFrom_succ cutoff 0 fun h => h.2.1 rfl, if_pos hcode, htable]
    rfl
  obtain ⟨ap, hap, happlied⟩ := happly
  rw [S.get_eq, hmaxser, if_neg (Nat.lt_irrefl 1), hap, Option.bind_some]
  have hbody : S.body = n.body := by rw [← hS]; rfl
  obtain ⟨hins, -, hend⟩ := @Pass.item_ctlLine 1 1 ⟨Nat.one_pos, le_rfl⟩
  have hitems : n.body.mapM (item 1) = some (.start true 1 ::
      ((fileLines (n.ifile.getD [])).map Item.text ++ [.stop 1])) := by
    have htext := @Pass.mapM_text 1 _ fun l hl => (hifile l hl).2
    simp [NewFile.body, hins, hend, htext]
  have hwalk : walk [] (.start true 1 ::
      ((fileLines (n.ifile.getD [])).map Item.text ++ [.stop 1])) =
        some ([], (fileLines (n.ifile.getD [])).map fun l => ([(1, true)], l)) := by
    have hstop : walk [(1, true)] ([.stop 1] : List (Item Line)) = some ([], []) := rfl
    rw [walk, enter, Option.bind_some, walk_append (walk_texts _ _) hstop, List.append_nil]
  rw [hbody, shownFrom, hitems, Option.bind_some, texts_of_walk hwalk, Option.map_some, shown_same]
  simp [visible, happlied]

theorem ended_ctlstr {c : UInt8} (hc : c ≠ 10) : Ended (ctlstr c) := by
  refine ⟨[CTLCHAR, c], fun h => ?_, rfl⟩
  rcases List.mem_cons.mp h with h | h
  · exact absurd h (by decide)
  · exact hc (List.mem_singleton.mp h).symm

theorem flushNewlines_eq (v : Line) :
    flushNewlines (v ++ [10]) = v.map (fun c => if c = 10 then 32 else c) ++ [10] := by
  induction v with
  | nil => rfl
  | cons c v ih =>
    cases v with
    | nil => rfl
    | cons d v =>
      change (if c = 10 then 32 else c) :: flushNewlines (d :: v ++ [10]) = _
      rw [ih]
      rfl

/-- The line of a flag before its newline, where it has a value. -/
theorem flagLine_some (k : UInt8) (v : Line) : flagLine k (some v) = ([CTLCHAR, FLAG, 32, k, 32] ++
    (if k = LOCKFLAG ∧ chr v = 97 then [97] else v).map fun c => if c = 10 then 32 else c) ++
      [10] := by
  rw [List.append_assoc, ← flushNewlines_eq]
  rfl

theorem ended_flagLine {k : UInt8} (hk : k ≠ 10) (value : Option Line) :
    Ended (flagLine k value) := by
  have hmark : 10 ∉ [CTLCHAR, FLAG, 32, k, 32] := by simp [CTLCHAR, FLAG, hk.symm]
  cases value with
  | none =>
    refine ⟨[CTLCHAR, FLAG, 32, k], fun h => hmark ?_, rfl⟩
    exact (List.sublist_append_left [CTLCHAR, FLAG, 32, k] [32]).subset h
  | some v =>
    refine ⟨_, fun h => ?_, flagLine_some k v⟩
    rcases List.mem_append.mp h with h | h
    · exact hmark h
    · obtain ⟨c, -, hc⟩ := List.mem_map.mp h
      split_ifs at hc with h10
      · exact absurd hc (by decide)
      · exact h10 hc

theorem not_mem_flagLine {k : UInt8} (hk : k ≠ 0) {value : Option Line}
    (hvalue : ∀ v ∈ value, 0 ∉ v) : 0 ∉ flagLine k value := by
  cases value with
  | none => simp [flagLine, CTLCHAR, FLAG, hk.symm]
  | some v =>
    rw [flagLine_some]
    intro h
    rcases List.mem_append.mp h with h | h
    · rcases List.mem_append.mp h with h | h
      · simp [CTLCHAR, FLAG, hk.symm] at h
      · obtain ⟨c, hc, hc0⟩ := List.mem_map.mp h
        split_ifs at hc0 hc
        · exact absurd hc0 (by decide)
        · exact absurd hc0 (by decide)
        · rw [List.mem_singleton.mp hc] at hc0
          exact absurd hc0 (by decide)
        · exact hvalue v rfl (hc0 ▸ hc)
    · exact absurd (List.mem_singleton.mp h) (by decide)

theorem NewFile.Proper.nameLines (h : n.Proper e) :
    ∀ l ∈ n.nameLines, (Ended l ∧ 0 ∉ l) ∧ chr l ≠ CTLCHAR := by
  intro l hl
  obtain ⟨a, ha, rfl⟩ := List.mem_map.mp hl
  obtain ⟨h10, h0, hctl⟩ := h.anames a ha
  exact ⟨⟨⟨a, h10, rfl⟩, by simp [h0]⟩, hctl⟩

theorem NewFile.Proper.flagLines (h : n.Proper e) : ∀ l ∈ n.flagLines, Ended l ∧ 0 ∉ l := by
  intro l hl
  rcases List.mem_append.mp hl with hl | hl
  · obtain ⟨f, hf, rfl⟩ := List.mem_map.mp hl
    obtain ⟨⟨h0, h10⟩, hvalue⟩ := h.flags f hf
    exact ⟨ended_flagLine h10 _, not_mem_flagLine h0 hvalue⟩
  · split_ifs at hl
    · rw [List.mem_singleton.mp hl]
      exact ⟨ended_flagLine (by decide) _, by decide⟩
    · exact absurd hl List.not_mem_nil

/-- All lines after the first delta are lines of a text file. -/
theorem NewFile.Proper.rest (h : n.Proper e) (htfile : IsText (fileLines (n.tfile.getD [])))
    (hifile : IsText (fileLines (n.ifile.getD []))) : ∀ l ∈ n.rest, Ended l ∧ 0 ∉ l := by
  have hctl : ∀ {c : UInt8}, c ≠ 10 ∧ c ≠ 0 → Ended (ctlstr c) ∧ 0 ∉ ctlstr c := fun hc =>
    ⟨ended_ctlstr hc.1, not_mem_ctlstr hc.2⟩
  have hser : ∀ {c : UInt8}, c ≠ 10 ∧ c ≠ 0 → Ended (ctlLine c 1) ∧ 0 ∉ ctlLine c 1 := fun hc =>
    ⟨Pass.ended_ctlLine hc.1 1, Pass.not_mem_ctlLine hc.2 1⟩
  simp only [NewFile.rest, NewFile.body, List.forall_mem_cons, List.forall_mem_append]
  exact ⟨hctl (by decide), fun l hl => (h.nameLines l hl).1, hctl (by decide), h.flagLines,
    hctl (by decide), fun l hl => (htfile l hl).1, hctl (by decide), hser (by decide),
    fun l hl => (hifile l hl).1, hser (by decide), fun l hl => absurd hl List.not_mem_nil⟩

/-- `get` gives back what `admin` has made an s-file of. -/
theorem get_admin (h : n.Proper e) (hcutoff : e.dt.d_datetime ≤ cutoff)
    (hx : adminFile n fuel = some x) :
    (∃ S : Sfile zone, readLines x = S.lines ∧ S.maxser = 1 ∧ ∀ l ∈ S.tail, Ended l) ∧
      (getFile zone cutoff 1 x).map List.flatten = some (n.ifile.getD []) := by
  obtain ⟨⟨⟨⟩, pkt'⟩, hrun, rfl⟩ := Option.map_eq_some_iff.mp hx
  obtain ⟨htfile, hifile, pkt, s_ins, hw, hflushline⟩ := adminNew_wrote h.entryNul
    (fun l hl => (h.nameLines l hl).1.2) (fun l hl => (h.flagLines l hl).2) hrun
  have hX : pkt.Xiop = headZero ++ statsZero ++ (n.entry.flatten ++ (ctlstr EDELTAB ++
      n.rest.flatten)) := by
    rw [hw.text, List.append_assoc]
  obtain ⟨hash, ins, del, unc, hhash, hdigits, hx'⟩ :=
    flushline_done hw.upd hw.create hw.wrttn hX hflushline
  have hrest := h.rest htfile hifile
  generalize hS : Sfile.new h (fun l hl => (h.nameLines l hl).2) htfile ins del unc hash hhash = S
  have htail : S.tail = statsLine ins del unc :: ((e.first :: e.lines) ++
      (ctlstr EDELTAB :: n.rest)) := by
    rw [← hS, ← h.last]
    simp [Sfile.tail, Sfile.new, Sfile.rest, NewFile.rest, TableEntry.text, TableEntry.count]
  have hflat : statsLine ins del unc ++ (n.entry.flatten ++ (ctlstr EDELTAB ++ n.rest.flatten)) =
      S.tail.flatten := by
    rw [htail, h.entry]
    simp only [List.flatten_cons, List.flatten_append]
  have hhash' : S.hash = hash := by rw [← hS]; rfl
  have hentry0 : ∀ l ∈ e.first :: e.lines, 0 ∉ l := fun l hl h0 => by
    have hmem : 0 ∈ n.entry.flatten := h.entry ▸ List.mem_flatten.mpr ⟨l, hl, h0⟩
    obtain ⟨l', hl', h0'⟩ := List.mem_flatten.mp hmem
    exact h.entryNul l' hl' h0'
  have hall : ∀ l ∈ S.tail, Ended l ∧ 0 ∉ l := by
    obtain ⟨hd1, hd2⟩ := List.forall_mem_append.mp hdigits
    obtain ⟨hd3, hd4⟩ := List.forall_mem_append.mp hd2
    rw [htail]
    exact List.forall_mem_cons.mpr ⟨⟨ended_statsLine hdigits, not_mem_statsLine hd1 hd3 hd4⟩,
      List.forall_mem_append.mpr ⟨fun l hl => ⟨h.ended l hl, hentry0 l hl⟩, List.forall_mem_cons.mpr
        ⟨⟨ended_ctlstr (by decide), not_mem_ctlstr (by decide)⟩, hrest⟩⟩⟩
  have hsealed : Sealed pkt'.Xiop := by
    refine flushline_some _ _ _ _ ⟨hw.upd, hw.reopen, hw.create, _, ?_, hw.text, hw.sum⟩ hflushline
    intro hmem
    have hmem' : 0 ∈ S.tail.flatten := by
      rw [← hflat]
      exact List.mem_append_right _ hmem
    obtain ⟨l, hl, h0⟩ := List.mem_flatten.mp hmem'
    exact (hall l hl).2 h0
  have htext : pkt'.Xiop = headLine S.hash ++ S.tail.flatten := by
    rw [hx', hhash', ← hflat, List.append_assoc]
  rw [htext] at hsealed
  obtain ⟨hlines, hgood⟩ := S.read_sealed (fun l hl => (hall l hl).1) (fun l hl => (hall l hl).2)
    hsealed
  rw [← htext] at hlines
  obtain ⟨hmaxser, hget⟩ := @get_new zone n e cutoff hash h (fun l hl => (h.nameLines l hl).2)
    htfile ins del unc hhash hifile hcutoff
  rw [hS] at hmaxser hget
  refine ⟨⟨S, hlines, hmaxser, fun l hl => (hall l hl).1⟩, ?_⟩
  change (getFile zone cutoff 1 pkt'.Xiop).map List.flatten = _
  rw [getFile_eq S hlines, if_neg (by rw [hgood]; decide), hget, Option.map_some, flatten_fileLines]

/-- A file of two lines. -/
def oneFile : NewFile :=
  ⟨true, [deltaText [49, 46, 49] 49 48, [1, 99, 32], [120], [10]], [[109, 101]],
    [(108, some [97, 108, 108]), (98, some [])], some [116, 10], some [97, 10, 98, 10]⟩

theorem one_first (dt : Deltab) : del_ab utc (deltaText [49, 46, 49] 49 48) dt =
    some (BDELTAB, ⟨⟨1, 1, 0, 0⟩, 1, 0, 0, [109, 101], 68⟩) := rfl

theorem one_lines : ∀ l ∈ [[1, 99, 32, 120, 10]], IsDeltaLine l := by
  rw [List.forall_mem_singleton, IsDeltaLine]
  decide

def oneEntry : TableEntry utc :=
  zeroEntry (deltaText [49, 46, 49] 49 48) ⟨⟨1, 1, 0, 0⟩, 1, 0, 0, [109, 101], 68⟩
    [[1, 99, 32, 120, 10]] one_first one_lines

theorem oneFile_proper : oneFile.Proper oneEntry where
  live := rfl
  serial := rfl
  pred := rfl
  rel_pos := by decide
  lists := by decide
  last := rfl
  entry := rfl
  entryNul := by decide
  ended := fun l hl => (Plain.ended (by decide) l hl).1
  anames := by decide
  flags := by
    refine List.forall_mem_cons.mpr ⟨⟨by decide, ?_⟩, List.forall_mem_singleton.mpr ⟨by decide, ?_⟩⟩
    · rintro v ⟨⟩
      decide
    · rintro v ⟨⟩
      decide

theorem get_admin_one : ∃ x, adminFile oneFile 10 = some x ∧
    (∃ S : Sfile utc, readLines x = S.lines ∧ S.maxser = 1 ∧ ∀ l ∈ S.tail, Ended l) ∧
      (getFile utc 0 1 x).map List.flatten = some [97, 10, 98, 10] := by
  have hrun : (adminFile oneFile 10).isSome = true := by decide +kernel
  obtain ⟨x, hx⟩ := Option.isSome_iff_exists.mp hrun
  exact ⟨x, hx, get_admin oneFile_proper (by decide) hx⟩

end Unitas.Sccs
