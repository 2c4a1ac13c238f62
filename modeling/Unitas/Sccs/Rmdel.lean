import Unitas.Sccs.Removed

/-! `rmdel`: the s-file that it writes. -/
namespace Unitas.Sccs
open Unitas.Hoare Unitas.Lines Unitas.Weave

variable {zone : Zone} {out : List Line} {k : Packet} {α : Type}

/-! ### The body -/

/-- All lines have been read, and `out` is what the x-file has. -/
structure Copied (out : List Line) (pkt : Packet) : Prop where
  upd : pkt.p_upd = true
  wrttn : pkt.p_wrttn = true
  text : written pkt = out.flatten

theorem run_getline_eof {f : Option Line → M α} {R : α → Packet → Prop} (hupd : k.p_upd = true)
    (hreopen : k.p_reopen = false) (h : Run True (Copied out) (f none) R) :
    Run True (At out [] k) (getline >>= f) R := by
  intro pkt hpkt
  have hupd' : pkt.p_upd = true := (congrArg Packet.p_upd hpkt.core).trans hupd
  have hreopen' : pkt.p_reopen = false := (congrArg Packet.p_reopen hpkt.core).trans hreopen
  have hflushed : (flushed pkt).p_reopen = false ∧ (flushed pkt).p_wrttn = true := by
    unfold flushed
    split_ifs with hw
    · exact ⟨hreopen', rfl⟩
    · refine ⟨hreopen', ?_⟩
      cases hpw : pkt.p_wrttn with
      | true => rfl
      | false => exact absurd ⟨hupd', hpw⟩ hw
  have hget := getline_eq pkt
  rw [hpkt.iop] at hget
  dsimp only at hget
  rw [getlineEof_eq hflushed.1] at hget
  have hbind : (getline >>= f) pkt = (getline pkt).bind fun r => f r.1 r.2 := rfl
  rw [hbind, hget]
  split_ifs with hbad
  · exact Or.inl ⟨trivial, rfl⟩
  · have htext := (written_flushed hupd').trans (hpkt.text hupd')
    have hcopied : Copied out { flushed pkt with p_iop := none } :=
      ⟨(flushed_upd pkt).trans hupd', hflushed.2, htext⟩
    exact h _ hcopied

theorem run_rmdelBody {s : ℕ} (hupd : k.p_upd = true) (hreopen : k.p_reopen = false)
    {body : List Line} : ∀ {out : List Line} {r : Removal} {fuel : ℕ}, (∀ l ∈ body, 0 ∉ l) →
    body.length < fuel → Run True (At out body k) (rmdelBody s fuel r)
      fun _ => Copied (out ++ keptLines s r.keep body) := by
  induction body with
  | nil =>
    intro out r fuel _ hfuel
    obtain ⟨fuel, rfl⟩ := Nat.exists_eq_add_one_of_ne_zero (Nat.ne_zero_of_lt hfuel)
    refine run_getline_eof hupd hreopen (run_pure fun pkt h => ?_)
    rw [keptLines, List.append_nil]
    exact h
  | cons l body ih =>
    intro out r fuel hnul hfuel
    obtain ⟨fuel, rfl⟩ := Nat.exists_eq_add_one_of_ne_zero (Nat.ne_zero_of_lt hfuel)
    obtain ⟨hl0, hnul⟩ := List.forall_mem_cons.mp hnul
    have hlt := Nat.lt_of_succ_lt_succ hfuel
    refine run_getline_bind ?_
    dsimp only
    -- a line is written, or it is not
    have hline : ∀ (c : Prop) [Decidable c] (r' : Removal),
        Run True (AtLine out l body k) (do
          doIf c (modify fun pkt => { pkt with p_wrttn := true })
          rmdelBody s fuel r' : M Removal) fun _ =>
            Copied (out ++ ((if c then [] else [l]) ++ keptLines s r'.keep body)) := by
      intro c _ r'
      have ih := @ih (out ++ if c then [] else [l]) r' fuel hnul hlt
      rw [List.append_assoc] at ih
      refine run_bind (run_doIf (fun hc => ?_) fun hc pkt h => ?_) fun _ => ih
      · rw [if_pos hc, List.append_nil]
        exact run_modify fun pkt h => h.skip
      · rw [if_neg hc]
        exact h.at hl0
    by_cases hctl : chr l = CTLCHAR
    · rw [if_pos hctl]
      refine run_bind (run_fatalIf fun _ => trivial) fun _ => run_mono (hline _ _) (fun _ h => h) ?_
      intro _ pkt h
      rw [keptLines, if_pos hctl]
      dsimp only at h
      by_cases hs : (satoi (NONBLANK l.tail.tail)).1 = s
      · simp only [if_pos hs, List.nil_append] at h
        rw [if_pos hs]
        exact h
      · simp only [if_neg hs, List.singleton_append] at h
        rw [if_neg hs]
        exact h
    · rw [if_neg hctl]
      refine run_mono (hline _ _) (fun _ h => h) fun _ pkt h => ?_
      rw [keptLines, if_neg hctl]
      cases hk : r.keep with
      | true => simpa [hk] using h
      | false => simpa [hk] using h

/-! ### The lines -/

theorem ended_markType {e : TableEntry zone} (hlive : e.Live) (h : Ended e.first) :
    Ended (markType REMOVED e.first) := by
  obtain ⟨a, b, ha, hp, -⟩ := del_ab_live (e.isFirst e.dt) hlive
  obtain ⟨text, htext, heq⟩ := h
  rw [markType_eq ha hp]
  rw [hp] at heq
  rcases List.eq_nil_or_concat' b with rfl | ⟨b, c, rfl⟩
  · have hlast := (List.append_inj' heq rfl).2
    exact absurd (List.cons.inj hlast).1 (by decide)
  · have hassoc : ∀ d : UInt8, a ++ d :: (b ++ [c]) = (a ++ d :: b) ++ [c] := fun d => by simp
    rw [hassoc] at heq ⊢
    obtain ⟨rfl, hc⟩ := List.append_inj' heq rfl
    refine ⟨a ++ REMOVED :: b, ?_, by rw [(List.cons.inj hc).1]⟩
    intro hmem
    refine htext ?_
    rcases List.mem_append.mp hmem with hmem | hmem
    · exact List.mem_append_left _ hmem
    · rcases List.mem_cons.mp hmem with hmem | hmem
      · exact absurd hmem (by decide)
      · exact List.mem_append_right _ (List.mem_cons_of_mem _ hmem)

/-- What holds of the lines of the table holds of them afterwards, if the mark keeps it. -/
theorem forall_removeFrom {P : Line → Prop} {es : List (TableEntry zone)}
    (hmark : ∀ e ∈ es, e.Live → P e.first → P (markType REMOVED e.first)) :
    ∀ {sid : Option Sid}, (∀ l ∈ es.flatMap TableEntry.text, P l) →
      ∀ l ∈ (removeFrom sid es).flatMap TableEntry.text, P l := by
  induction es with
  | nil => exact fun h => h
  | cons e es ih =>
    intro sid h
    obtain ⟨hmark₀, hmark⟩ := List.forall_mem_cons.mp hmark
    rw [List.flatMap_cons] at h
    obtain ⟨he, hes⟩ := List.forall_mem_append.mp h
    rw [removeFrom, List.flatMap_cons]
    refine List.forall_mem_append.mpr ⟨?_, ih hmark hes⟩
    split_ifs with hs
    · obtain ⟨hstats, he⟩ := List.forall_mem_cons.mp he
      obtain ⟨hfirst, he⟩ := List.forall_mem_cons.mp he
      exact List.forall_mem_cons.mpr ⟨hstats, List.forall_mem_cons.mpr ⟨hmark₀ hs.1 hfirst, he⟩⟩
    · exact he

variable {S : Sfile zone} {sid : Sid} {s hash : ℕ} {h : hash < 65536}

theorem rest_removed_sublist : (S.removed sid s hash h).rest.Sublist S.rest :=
  ((((((keptLines_sublist s true S.body).cons_cons S.eText).append_left S.comments).cons_cons
    S.bText).append_left S.flags).cons_cons S.eUsers).append_left S.users |>.cons_cons S.bUsers

theorem rest_ne_nil : S.rest ≠ [] := List.cons_ne_nil _ _

theorem isFile_removed (hfile : IsFile S.tail) : IsFile (S.removed sid s hash h).tail := by
  have hended := hfile.ended rest_ne_nil
  have hrest : IsFile S.rest := hfile.sublist (List.sublist_append_right _ _)
  refine (hrest.sublist rest_removed_sublist).append ?_
  exact forall_removeFrom (fun e _ hlive he => ended_markType hlive he) hended

theorem not_mem_removed (hnul : ∀ l ∈ S.tail, 0 ∉ l) :
    ∀ l ∈ (S.removed sid s hash h).tail, 0 ∉ l := by
  obtain ⟨hdeltas, hrest⟩ := List.forall_mem_append.mp hnul
  refine List.forall_mem_append.mpr ⟨?_, fun l hl => hrest l (rest_removed_sublist.subset hl)⟩
  exact forall_removeFrom (fun e _ _ he => not_mem_markType (by decide) he) hdeltas

theorem not_mem_flatten_removed (hnul : ∀ l ∈ S.tail, 0 ∉ l) :
    0 ∉ (S.removed sid s hash h).tail.flatten := by
  intro hmem
  obtain ⟨l, hl, h0⟩ := List.mem_flatten.mp hmem
  exact not_mem_removed hnul l hl h0

/-- The s-file is read as it has been written. -/
theorem readLines_removed (hfile : IsFile S.tail) (hnul : ∀ l ∈ S.tail, 0 ∉ l) :
    readLines (headLine hash ++ (S.removed sid s hash h).tail.flatten) =
      (S.removed sid s hash h).lines := by
  rw [readLines_headLine _ (not_mem_flatten_removed hnul),
    fileLines_flatten _ (isFile_removed hfile)]
  rfl

/-! ### The command -/

theorem sidtoserFrom_eq {idel : ℕ → Idel} {m : ℕ} (hs : 0 < s) (hsid : (idel s).i_sid = sid)
    (hunique : ∀ n, 0 < n → (idel n).i_sid = sid → n = s) (hle : s ≤ m) :
    sidtoserFrom idel sid m = s := by
  induction m with
  | zero => omega
  | succ m ih =>
    rw [sidtoserFrom]
    split_ifs with hm
    · exact hunique (m + 1) (by omega) hm
    · refine ih ?_
      have hne : s ≠ m + 1 := by
        rintro rfl
        exact hm hsid
      omega

theorem Sfile.serial_le (S : Sfile zone) : ∀ e ∈ S.deltas, e.dt.d_serial ≤ S.last := by
  obtain ⟨e₀, es, hdeltas⟩ := List.exists_cons_of_ne_nil S.deltas_ne_nil
  have hlast : S.last = e₀.dt.d_serial := by
    unfold Sfile.last
    simp [hdeltas]
  have hdesc := S.descending
  rw [hdeltas] at hdesc ⊢
  rw [hlast]
  exact List.forall_mem_cons.mpr ⟨le_rfl, fun e he => ((List.pairwise_cons.mp hdesc).1 e he).le⟩

theorem Sfile.Has.sidtoser (hS : S.Has sid s) : sidtoserFrom S.table sid S.maxser = s := by
  obtain ⟨e, hfind, hsid⟩ := hS
  obtain ⟨he, hlive, hser⟩ := mem_liveAt hfind
  have htable : (S.table s).i_sid = sid := by
    unfold Sfile.table overlay
    rw [hfind]
    exact hsid
  refine sidtoserFrom_eq (Sfile.Has.pos ⟨e, hfind, hsid⟩) htable (fun n hn hsid' => ?_) ?_
  · cases hd : liveAt n S.deltas with
    | none =>
      have hzero : (⟨0, 0, 0, 0⟩ : Sid) = sid := by
        rw [← hsid']
        unfold Sfile.table overlay
        rw [hd]
        rfl
      have hrel := S.rel_pos e he hlive
      rw [hsid, ← hzero] at hrel
      exact absurd hrel (by decide)
    | some d =>
      refine Sfile.Has.unique ⟨e, hfind, hsid⟩ hd ?_
      rw [← hsid']
      unfold Sfile.table overlay
      rw [hd]
      rfl
  · rw [S.maxser_eq, ← hser]
    exact S.serial_le e he

/-- The first line is put over the file. -/
theorem flushline_copied {pkt pkt' : Packet} (hcopied : Copied out pkt)
    (hrun : flushline none pkt = some ((), pkt')) :
    ∃ hash, hash < 65536 ∧ pkt'.Xiop = overwrite out.flatten (headLine hash) := by
  unfold flushline at hrun
  obtain ⟨_, _, hget, h₁⟩ := bind_some.mp hrun
  rw [(get_some.mp hget).1, (get_some.mp hget).2, if_neg (by simp [hcopied.upd])] at h₁
  obtain ⟨_, t, hput, h₂⟩ := bind_some.mp h₁
  have ht : t = put pkt [] := by
    unfold putline at hput
    rw [modify_some.mp hput]
    simp [hcopied.upd, hcopied.wrttn]
  have hX : t.Xiop = out.flatten := by
    rw [ht, ← hcopied.text]
    exact List.append_nil _
  rw [modify_some.mp h₂]
  refine ⟨(t.p_nhash % 65536).toNat, by omega, ?_⟩
  dsimp only
  rw [hX]

/-- The lines of the delta stay. -/
theorem unchanging_escdodelt {c : Change} (htype : c.D_type = REMOVED) :
    Unchanging True (escdodelt c) := by
  intro out l ls k hdid
  have hnot : ∀ b : Bool, ¬ (c.D_type = 68 ∧ b) := fun b h => by
    rw [htype] at h
    exact absurd h.1 (by decide)
  unfold escdodelt
  refine run_get_bind fun pkt₀ h₀ => run_bind (Q := fun _ => AtLine out l ls k)
    (run_doIf (fun h => absurd h (hnot _)) fun _ pkt h => h ▸ h₀) fun _ => run_ite (fun _ => ?_)
      fun _ => ?_
  · refine run_bind (run_fatalIf fun _ => trivial) fun _ => run_get_bind fun pkt₁ h₁ => ?_
    have hfalse : pkt₁.CDid_mrs = false := (congrArg Packet.CDid_mrs h₁.core).trans hdid
    refine run_doIf (fun h => ?_) fun _ pkt h => h ▸ h₁
    rw [hfalse] at h
    exact absurd h (by decide)
  · exact run_get_bind fun pkt₁ h₁ =>
      run_doIf (fun h => absurd h (hnot _)) fun _ pkt h => h ▸ h₁

/-- What `rmdel` writes for a well-formed s-file. -/
theorem rmchgFile_text {file x : Line} {c : Change} (hfile : readLines file = S.lines)
    (htype : c.D_type = REMOVED) (hS : S.Has c.sid s) (hx : rmchgFile zone c file = some x) :
    S.Leaf s ∧ ∃ hash, ∃ h : hash < 65536,
      x = headLine hash ++ (S.removed c.sid s hash h).tail.flatten := by
  have hnul : ∀ l ∈ S.tail, 0 ∉ l := fun l hl =>
    not_mem_readLines (show l ∈ readLines file from hfile ▸ List.mem_cons_of_mem _ hl)
  have hrest : ∀ l ∈ S.rest, 0 ∉ l := fun l hl => hnul l (List.mem_append_right _ hl)
  simp only [Sfile.rest, List.forall_mem_cons, List.forall_mem_append] at hrest
  obtain ⟨-, husers, heUsers, hflags, hbText, hcomments, heText, hbody⟩ := hrest
  have hlen := length_readLines_le file
  have htail : S.tail.length < file.length + 1 := by
    rw [hfile, Sfile.lines, List.length_cons] at hlen
    omega
  have hrestlen : S.rest.length ≤ S.tail.length := by
    rw [Sfile.tail, List.length_append]
    omega
  simp only [Sfile.rest, List.length_cons, List.length_append] at hrestlen
  have hhead0 : 0 ∉ headLine S.hash :=
    not_mem_readLines (show headLine S.hash ∈ readLines file from hfile ▸ List.mem_cons_self)
  obtain ⟨r, hrun, rfl⟩ := Option.map_eq_some_iff.mp hx
  unfold rmchg at hrun
  obtain ⟨_, t₁, hsinit, h₁⟩ := bind_some.mp hrun
  obtain ⟨_, t₂, hupd, h₂⟩ := bind_some.mp h₁
  obtain ⟨d, t₃, hdodelt, h₃⟩ := bind_some.mp h₂
  obtain ⟨_, _, hget, h₄⟩ := bind_some.mp h₃
  rw [(get_some.mp hget).1, (get_some.mp hget).2] at h₄
  obtain ⟨head, ls, hl, -, rfl⟩ := sinit_some.mp hsinit
  obtain ⟨rfl, rfl⟩ := List.cons.inj (hfile.symm.trans hl)
  rw [modify_some.mp hupd] at hdodelt
  -- the delta table
  generalize hk : core { opened (headLine S.hash) S.tail with p_upd := true } = k
  have hat : At [headLine S.hash] S.tail k
      { opened (headLine S.hash) S.tail with p_upd := true } := by
    refine ⟨rfl, hk, fun _ => ?_⟩
    change [] ++ cstr (headLine S.hash) = [headLine S.hash].flatten
    rw [cstr_eq_self hhead0]
    simp
  have hupd₀ : k.p_upd = true := (congrArg Packet.p_upd hk).symm
  have hreopen₀ : k.p_reopen = false := (congrArg Packet.p_reopen hk).symm
  obtain ⟨-, hat₃⟩ := (run_dodelt (unchanging_escdodelt htype) S (Or.inl (by rw [htype]; decide))
    (congrArg Packet.p_apply hk).symm (congrArg Packet.CDid_mrs hk).symm hnul htail).of_some hat
      hdodelt
  have htable : ∀ {out ls pkt}, At out ls (withIdel k S.idel) pkt → pkt.p_idel = some S.table :=
    fun h => (congrArg Packet.p_idel h.core).trans S.idel_eq
  have hmaxser : ∀ {out ls pkt}, At out ls (withIdel k S.idel) pkt → pkt.maxser = S.maxser :=
    fun h => by rw [Packet.maxser, htable h, Sfile.maxser, S.idel_eq]; rfl
  have hser : t₃.sidtoser c.sid = s := by
    rw [Packet.sidtoser, htable hat₃, hmaxser hat₃, Option.getD_some]
    exact hS.sidtoser
  rw [hser] at h₄
  -- what comes after it
  obtain ⟨_, t₄, hfound, h₅⟩ := bind_some.mp h₄
  obtain ⟨-, rfl⟩ := fatalIf_some.mp hfound
  obtain ⟨_, t₅, hfinduser, h₆⟩ := bind_some.mp h₅
  have hat₅ := (run_finduser S.isUser S.isEUsers (forall_mem_concat husers heUsers) (by omega)
    : Run True _ _ _).of_some hat₃ hfinduser
  obtain ⟨_, t₆, hdoflags, h₇⟩ := bind_some.mp h₆
  have hat₆ := (run_doflags S.isFlag S.isBText (forall_mem_concat hflags hbText) (by omega)
    : Run True _ _ _).of_some hat₅ hdoflags
  obtain ⟨_, t₇, hpermitted, h₈⟩ := bind_some.mp h₇
  obtain ⟨-, rfl⟩ := fatalIf_some.mp hpermitted
  rw [if_pos (show c.D_type = 82 from htype)] at h₈
  obtain ⟨_, _, hget', h₉⟩ := bind_some.mp h₈
  rw [(get_some.mp hget').1, (get_some.mp hget').2] at h₉
  obtain ⟨_, t₈, hleaf, h₁₀⟩ := bind_some.mp h₉
  obtain ⟨hleaf, rfl⟩ := fatalIf_some.mp hleaf
  obtain ⟨_, t₉, hflushto, h₁₁⟩ := bind_some.mp h₁₀
  have hat₉ := (run_flushto S.isComment S.isEText (forall_mem_concat hcomments heText) false
    (by omega) : Run True _ _ _).of_some hat₆ hflushto
  -- the body
  obtain ⟨_, t₁₀, hchkeof, h₁₂⟩ := bind_some.mp h₁₁
  have hat₁₀ := (run_modify_at (f := fun pkt => { pkt with p_chkeof := true }) fun pkt h =>
    ⟨congrArg (fun k : Packet => { k with p_chkeof := true }) h, rfl, rfl, rfl, rfl, rfl, rfl⟩
    : Run True _ _ _).of_some hat₉ hchkeof
  obtain ⟨r', t₁₁, hrmdel, h₁₃⟩ := bind_some.mp h₁₂
  have hcopied := (run_rmdelBody (k := { withIdel k S.idel with p_chkeof := true }) hupd₀ hreopen₀
    hbody (by omega)).of_some hat₁₀ hrmdel
  obtain ⟨_, t₁₂, hflushline, h₁₄⟩ := bind_some.mp h₁₃
  obtain ⟨hash, h, hX⟩ := flushline_copied hcopied hflushline
  obtain ⟨-, hend⟩ := fatalIf_some.mp h₁₄
  have hout : [headLine S.hash] ++ (tableOut c.D_type (some c.sid) S.deltas ++ [S.bUsers]) ++
      (S.users ++ [S.eUsers]) ++ (S.flags ++ [S.bText]) ++ (S.comments ++ [S.eText]) ++
      keptLines s true S.body = headLine S.hash :: (S.removed c.sid s hash h).tail := by
    rw [htype, tableOut_eq]
    simp [Sfile.tail, Sfile.rest, Sfile.removed]
  refine ⟨fun n hlt hle => ?_, hash, h, ?_⟩
  · rw [Packet.isLeaf, htable hat₆, hmaxser hat₆, Option.getD_some, Bool.not_eq_false] at hleaf
    have hn := List.all_eq_true.mp hleaf n (List.mem_range.mpr (by omega))
    simpa [hlt] using hn
  · rw [hend, hX]
    change overwrite (([headLine S.hash] ++ (tableOut c.D_type (some c.sid) S.deltas ++ [S.bUsers]) ++
      (S.users ++ [S.eUsers]) ++ (S.flags ++ [S.bText]) ++ (S.comments ++ [S.eText]) ++
      keptLines s true S.body).flatten) (headLine hash) = _
    rw [hout, overwrite, List.flatten_cons, length_headLine h, ← length_headLine S.hash_lt,
      List.drop_left]

/-- It is a well-formed s-file again, with the right sum. -/
theorem rmchgFile_removed {file x : Line} {c : Change} (hfile : readLines file = S.lines)
    (htype : c.D_type = REMOVED) (hS : S.Has c.sid s) (hx : rmchgFile zone c file = some x) :
    S.Leaf s ∧ ∃ hash, ∃ h : hash < 65536, readLines x = (S.removed c.sid s hash h).lines ∧
      (S.removed c.sid s hash h).corrupted = false := by
  obtain ⟨hleaf, hash, h, rfl⟩ := rmchgFile_text hfile htype hS hx
  have hnul : ∀ l ∈ S.tail, 0 ∉ l := fun l hl =>
    not_mem_readLines (show l ∈ readLines file from hfile ▸ List.mem_cons_of_mem _ hl)
  have hisFile : IsFile S.tail := by
    have hall := hfile ▸ isFile_readLines file
    exact hall.2
  refine ⟨hleaf, hash, h, readLines_removed hisFile hnul, ?_⟩
  have haligned : Aligned file := by
    unfold Aligned
    rw [hfile]
    show (charSum ((headLine S.hash ++ S.tail.flatten).drop (headLine 0).length) -
      charSum S.tail.flatten) % 65536 = 0
    rw [length_headLine (by decide), ← length_headLine S.hash_lt, List.drop_left, sub_self]
    rfl
  have hsum := (rmchgFile_sealed hx).mpr haligned
  rw [sealed_headLine (not_mem_flatten_removed hnul)] at hsum
  unfold Sfile.corrupted
  rw [decide_eq_false_iff_not]
  rintro ⟨hne, -⟩
  have hhash : (S.removed c.sid s hash h).hash = hash := rfl
  rw [hhash] at hne
  omega

/-- `rmdel` leaves a version as it was, of those without the delta, just if the version shows
nothing inside of what the delta inserted. -/
theorem rmdel_keeps {file x : Line} {c : Change} {cutoff : ℤ} {ser : ℕ} {ap : ℕ → Apply}
    {lines : List Line} (hfile : readLines file = S.lines) (htype : c.D_type = REMOVED)
    (hS : S.Has c.sid s) (hx : rmchgFile zone c file = some x) (hser : ser ≠ s)
    (hap : S.apply cutoff ser = some ap) (hnot : applied ap s = false)
    (hget : getFile zone cutoff ser file = some lines) :
    getFile zone cutoff ser x = some lines ↔ S.Outside s (applied ap) := by
  obtain ⟨hleaf, hash, h, hlines, hsum⟩ := rmchgFile_removed hfile htype hS hx
  rw [getFile_eq S hfile] at hget
  rw [getFile_eq _ hlines, hsum, if_neg (by decide)]
  split_ifs at hget
  exact get_removed hS hleaf hser hap hnot hget

/-- The line of a delta of the first second of 1970. -/
def deltaText (sid : Line) (serial pred : UInt8) : Line :=
  [1, 100, 32, 68, 32] ++ sid ++ [32, 55, 48, 47, 48, 49, 47, 48, 49, 32, 48, 48, 58, 48, 48, 58,
    48, 48, 32, 109, 101, 32, serial, 32, pred, 10]

/-- A delta with statistics of zeros. -/
def zeroEntry (first : Line) (dt : Deltab) (lines : List Line)
    (hfirst : ∀ dt₀, del_ab utc first dt₀ = some (BDELTAB, dt))
    (hlines : ∀ l ∈ lines, IsDeltaLine l) : TableEntry utc where
  stats := statsLine (List.replicate 5 48) (List.replicate 5 48) (List.replicate 5 48)
  first := first
  dt := dt
  lines := lines
  last := [1, 101, 10]
  isStats := by decide
  isFirst := hfirst
  isLine := hlines
  isLast := by decide

/-- The third delta includes the second and inserts a line between two of it; the fourth, after the
third, excludes the second. -/
def fourDeltas : Sfile utc where
  hash := 13600
  deltas := [
    zeroEntry (deltaText [49, 46, 49, 46, 49, 46, 50] 52 51) ⟨⟨1, 1, 1, 2⟩, 4, 3, 0, [109, 101], 68⟩
      [[1, 120, 32, 50, 10]] (fun _ => rfl) (by rw [List.forall_mem_singleton, IsDeltaLine]; decide),
    zeroEntry (deltaText [49, 46, 49, 46, 49, 46, 49] 51 49) ⟨⟨1, 1, 1, 1⟩, 3, 1, 0, [109, 101], 68⟩
      [[1, 105, 32, 50, 10]] (fun _ => rfl) (by rw [List.forall_mem_singleton, IsDeltaLine]; decide),
    zeroEntry (deltaText [49, 46, 50] 50 49) ⟨⟨1, 2, 0, 0⟩, 2, 1, 0, [109, 101], 68⟩ []
      (fun _ => rfl) (by simp),
    zeroEntry (deltaText [49, 46, 49] 49 48) ⟨⟨1, 1, 0, 0⟩, 1, 0, 0, [109, 101], 68⟩ []
      (fun _ => rfl) (by simp)]
  bUsers := [1, 117, 10]
  users := []
  eUsers := [1, 85, 10]
  flags := []
  bText := [1, 116, 10]
  comments := []
  eText := [1, 84, 10]
  body := [[1, 73, 32, 49, 10], [97, 10], [1, 73, 32, 50, 10], [98, 10], [1, 73, 32, 51, 10],
    [99, 10], [1, 69, 32, 51, 10], [100, 10], [1, 69, 32, 50, 10], [1, 69, 32, 49, 10]]
  hash_lt := by decide
  deltas_ne_nil := by simp
  descending := by decide
  serial_pos := by decide
  pred_lt := by decide
  rel_pos := by decide
  sid_inj := by decide
  isBUsers := by decide
  isUser := by decide
  isEUsers := by decide
  isFlag := by simp
  isBText := by decide
  isComment := by simp
  isEText := by decide

/-- The second delta is removed. -/
def removeSecond : Change := ⟨REMOVED, ⟨1, 2, 0, 0⟩, true, false, [], [], [], [], []⟩

theorem readLines_fourDeltas : readLines fourDeltas.lines.flatten = fourDeltas.lines := by
  decide +kernel

theorem fourDeltas_has : fourDeltas.Has removeSecond.sid 2 := ⟨_, rfl, rfl⟩

/-- What the fourth version is made of. -/
theorem fourDeltas_apply : ∃ ap, fourDeltas.apply 0 4 = some ap ∧ applied ap 2 = false := by
  have happly : ((fourDeltas.apply 0 4).map fun ap => applied ap 2) = some false := by decide +kernel
  exact Option.map_eq_some_iff.mp happly

theorem rmdel_keeps_four : ∃ x ap,
    rmchgFile utc removeSecond fourDeltas.lines.flatten = some x ∧
      (getFile utc 0 4 x = some [[97, 10], [99, 10]] ↔ fourDeltas.Outside 2 (applied ap)) := by
  have hrun : (rmchgFile utc removeSecond fourDeltas.lines.flatten).isSome = true := by
    decide +kernel
  obtain ⟨x, hx⟩ := Option.isSome_iff_exists.mp hrun
  obtain ⟨ap, hap, hnot⟩ := fourDeltas_apply
  exact ⟨x, ap, hx, rmdel_keeps readLines_fourDeltas rfl fourDeltas_has hx (by decide) hap hnot
    (by decide +kernel)⟩

/-- The fourth version loses the line of the third delta. -/
theorem not_rmdel_keeps : ¬ ∀ (zone : Zone) (S : Sfile zone) (s : ℕ) (file x : Line) (c : Change)
    (cutoff : ℤ) (ser : ℕ) (ap : ℕ → Apply) (lines : List Line), readLines file = S.lines →
    c.D_type = REMOVED → S.Has c.sid s → rmchgFile zone c file = some x → ser ≠ s →
    S.apply cutoff ser = some ap → applied ap s = false →
    getFile zone cutoff ser file = some lines → getFile zone cutoff ser x = some lines := by
  intro h
  have hrun : ((rmchgFile utc removeSecond fourDeltas.lines.flatten).map (getFile utc 0 4)) =
      some (some [[97, 10]]) := by
    decide +kernel
  obtain ⟨x, hx, hlost⟩ := Option.map_eq_some_iff.mp hrun
  obtain ⟨ap, hap, hnot⟩ := fourDeltas_apply
  have hkept := h utc fourDeltas 2 _ x removeSecond 0 4 ap [[97, 10], [99, 10]]
    readLines_fourDeltas rfl fourDeltas_has hx (by decide) hap hnot (by decide +kernel)
  rw [hlost] at hkept
  exact absurd hkept (by decide)

end Unitas.Sccs
