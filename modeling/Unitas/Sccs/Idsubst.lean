import Mathlib

/-! Keywords in the text that `get` writes: `idsubst` and `_trans`, without `-k`, a list of keywords
and a limit of lines. -/
namespace Unitas.Sccs.Idsubst

abbrev Str := List UInt8

/-- A string, without its null character. -/
abbrev CStr := { s : Str // 0 ∉ s }

def DEF_LINE_SIZE : ℕ := 128

/-- What the keywords stand for; numbers are given as they are printed. -/
structure Values where
  Mod : CStr
  Qsect : CStr
  s_rel : CStr
  s_lev : CStr
  s_br : CStr
  s_seq : CStr
  Curdate : CStr
  Gdate : CStr
  Curtime : CStr
  Chgdate : CStr
  Gchgdate : CStr
  Chgtime : CStr
  Type_ : CStr
  Sid : CStr
  Pname : CStr
  p_file : CStr
  sname : CStr
  p_glnno : CStr

def Zkeywd : CStr := ⟨[64, 40, 35, 41], by decide⟩
def tab : CStr := ⟨[9], by decide⟩
def blank : CStr := ⟨[32], by decide⟩
def slash : CStr := ⟨[47], by decide⟩

/-- The strings that are given to `trans` for a keyword, if it is one. -/
def Values.pieces (v : Values) (c : UInt8) : Option (List CStr) :=
  match Char.ofNat c.toNat with
  | 'M' => some [v.Mod]
  | 'Q' => some [v.Qsect]
  | 'R' => some [v.s_rel]
  | 'L' => some [v.s_lev]
  | 'B' => some [v.s_br]
  | 'S' => some [v.s_seq]
  | 'D' => some [v.Curdate]
  | 'H' => some [v.Gdate]
  | 'T' => some [v.Curtime]
  | 'E' => some [v.Chgdate]
  | 'G' => some [v.Gchgdate]
  | 'U' => some [v.Chgtime]
  | 'Z' => some [Zkeywd]
  | 'Y' => some [v.Type_]
  | 'W' => some [Zkeywd, v.Mod, tab, v.Sid]
  | 'I' => some [v.Sid]
  | 'P' => some [v.Pname, slash, v.sname]
  | 'F' => some [v.p_file]
  | 'C' => some [v.p_glnno]
  | 'A' => some [Zkeywd, v.Type_, blank, v.Mod, blank, v.Sid, Zkeywd]
  | _ => none

/-- `tline` has the size of its allocation, and of `hold` there is only the size. -/
structure State where
  tline : Str
  hold : ℕ

/-- `_trans(tp, str, rest)`: there is no result where a store is outside `tline`. What `realloc` adds
is never read before it is written, and zero here. -/
def trans (tp : ℕ) (str rest : Str) (tline : Str) : Option (ℕ × Str) :=
  let new_size := tp + str.length + 1
  let tline :=
    if new_size > tline.length then
      tline ++ List.replicate (new_size + rest.length + DEF_LINE_SIZE - tline.length) 0
    else tline
  if new_size ≤ tline.length then
    some (tp + str.length, tline.take tp ++ str ++ 0 :: tline.drop new_size)
  else none

def transAll (rest : Str) : List CStr → ℕ → Str → Option (ℕ × Str)
  | [], tp, tline => some (tp, tline)
  | str :: strs, tp, tline => do
    let (tp, tline) ← trans tp str.val rest tline
    transAll rest strs tp tline

/-- The loop over the line. Behind `%W%` it goes on in `hold`, where `Whatstr` and what is left of the
line have been copied. -/
def scan (v : Values) (Whatstr : Option CStr) : ℕ → Bool → Str → ℕ → State → Option State
  | 0, _, _, _, _ => none
  | _ + 1, _, [], _, s => some s
  | fuel + 1, recursive, c :: lp, tp, s =>
    if c = 37 ∧ lp[1]? = some 37 then
      let x := lp.headD 0
      let rest := lp.drop 2
      match if x = 87 ∧ recursive = false then Whatstr else none with
      | some what =>
        let new_hold_size := rest.length + what.val.length + 1
        let hold := if new_hold_size > s.hold then new_hold_size else s.hold
        if (what.val ++ rest).length + 1 ≤ hold then
          scan v Whatstr fuel true (what.val ++ rest) tp { s with hold := hold }
        else none
      | none =>
        match v.pieces x with
        | some strs => do
          let (tp, tline) ← transAll lp strs tp s.tline
          scan v Whatstr fuel recursive rest tp { s with tline := tline }
        | none => do
          let (tp, tline) ← trans tp [37, x] lp s.tline
          scan v Whatstr fuel recursive (37 :: rest) tp { s with tline := tline }
    else do
      let (tp, tline) ← trans tp [c] (c :: lp) s.tline
      scan v Whatstr fuel recursive lp tp { s with tline := tline }

/-- The string at the beginning of an allocation. -/
def string (tline : Str) : Str := tline.takeWhile (· ≠ 0)

/-- The text that is returned, which is that of `tline` if there is a `%`. -/
def idsubst (v : Values) (Whatstr : Option CStr) (line : Str) (s : State) : Option (Str × State) :=
  if 37 ∈ line then do
    let size := line.length + (Whatstr.elim 0 (·.val.length)) + 1
    let s ← scan v Whatstr size false line 0 s
    if s.tline = [] then none else return (string s.tline, s)
  else some (line, s)

/-- The lines of one `get`, each with what the keywords stand for there. -/
def run (Whatstr : Option CStr) : List (Values × CStr) → State → Option (List Str)
  | [], _ => some []
  | (v, line) :: lines, s => do
    let (text, s) ← idsubst v Whatstr line.val s
    let texts ← run Whatstr lines s
    return text :: texts

/-! ### Keywords -/

inductive Token
  | key (x : UInt8)
  | char (c : UInt8)
  deriving DecidableEq

/-- A line, read from left to right. -/
def tok (v : Values) : Str → List Token
  | c :: x :: d :: rest =>
    if c = 37 ∧ d = 37 ∧ (v.pieces x).isSome then .key x :: tok v rest
    else .char c :: tok v (x :: d :: rest)
  | [c, x] => [.char c, .char x]
  | [c] => [.char c]
  | [] => []

def Values.keyword (v : Values) (x : UInt8) : Str := ((v.pieces x).getD []).flatMap Subtype.val

def Values.value (v : Values) : Token → Str
  | .key x => v.keyword x
  | .char c => [c]

/-- The given string with its keywords other than `W` expanded. -/
def what (v : Values) (w : Str) : Str :=
  (tok v w).flatMap fun
    | .key x => if x = 87 then [37, 87, 37] else v.keyword x
    | .char c => [c]

/-- What stands for each keyword under `-w`, and without it. -/
def meaning (v : Values) (Whatstr : Option CStr) : Token → Str
  | .key x => if x = 87 then (Whatstr.map fun w => what v w.val).getD (v.keyword 87) else v.keyword x
  | .char c => [c]

/-- The line with every keyword replaced. -/
def expand (v : Values) (Whatstr : Option CStr) (line : Str) : Str :=
  (tok v line).flatMap (meaning v Whatstr)

def NoWhat (l : List Token) : Prop := .key 87 ∉ l

/-- There is one `%W%` at most, none in the given string, and no keyword begins in the string and ends
in the line. -/
def Single (v : Values) (w : Str) : Str → Prop
  | c :: x :: d :: rest =>
    if c = 37 ∧ d = 37 ∧ (v.pieces x).isSome then
      if x = 87 then
        tok v (w ++ rest) = tok v w ++ tok v rest ∧ NoWhat (tok v w) ∧ NoWhat (tok v rest)
      else Single v w rest
    else Single v w (x :: d :: rest)
  | _ => True

/-- Under `-w`, and then also: if the string is empty, the line is not just `%W%`. -/
def Harmless (v : Values) (Whatstr : Option CStr) (line : Str) : Prop :=
  ∀ w ∈ Whatstr, Single v w.val line ∧ (w.val = [] → line ≠ [37, 87, 37])

variable {v : Values} {Whatstr : Option CStr}

theorem pieces_ne_nil {x : UInt8} {strs : List CStr} (h : v.pieces x = some strs) : strs ≠ [] := by
  rintro rfl
  revert h
  rw [Values.pieces]
  split <;> simp

/-- A keyword is here. -/
def Key (v : Values) (c : UInt8) (lp : Str) : Prop :=
  c = 37 ∧ lp[1]? = some 37 ∧ (v.pieces (lp.headD 0)).isSome = true

theorem tok_key {x : UInt8} (h : (v.pieces x).isSome = true) (rest : Str) :
    tok v (37 :: x :: 37 :: rest) = .key x :: tok v rest := by
  rw [tok, if_pos ⟨rfl, rfl, h⟩]

theorem tok_char {c : UInt8} {lp : Str} (h : ¬ Key v c lp) :
    tok v (c :: lp) = .char c :: tok v lp := by
  rcases lp with _ | ⟨x, _ | ⟨d, rest⟩⟩
  · rfl
  · rfl
  · rw [tok, if_neg fun hk => h ⟨hk.1, by simp [hk.2.1], hk.2.2⟩]

theorem single_key {w : Str} {x : UInt8} (h : (v.pieces x).isSome = true) (h87 : x ≠ 87)
    (rest : Str) : Single v w (37 :: x :: 37 :: rest) ↔ Single v w rest := by
  rw [Single, if_pos ⟨rfl, rfl, h⟩, if_neg h87]

theorem single_what {w : Str} (rest : Str) : Single v w (37 :: 87 :: 37 :: rest) ↔
    tok v (w ++ rest) = tok v w ++ tok v rest ∧ NoWhat (tok v w) ∧ NoWhat (tok v rest) := by
  rw [Single, if_pos ⟨rfl, rfl, rfl⟩, if_pos rfl]

theorem single_char {w : Str} {c : UInt8} {lp : Str} (h : ¬ Key v c lp) :
    Single v w (c :: lp) ↔ Single v w lp := by
  rcases lp with _ | ⟨x, _ | ⟨d, rest⟩⟩
  · exact Iff.rfl
  · exact Iff.rfl
  · rw [Single, if_neg fun hk => h ⟨hk.1, by simp [hk.2.1], hk.2.2⟩]

theorem exists_rest {lp : Str} (h : lp[1]? = some 37) : ∃ x rest, lp = x :: 37 :: rest := by
  rcases lp with _ | ⟨x, _ | ⟨d, rest⟩⟩
  · cases h
  · cases h
  · exact ⟨x, rest, by rw [Option.some.inj h]⟩

theorem not_isSome_percent (v : Values) : ¬ (v.pieces 37).isSome = true := by
  rw [show v.pieces 37 = none from rfl]
  decide

/-- Where a character between two `%` is no keyword, no keyword begins at it either. -/
theorem not_key_second {x : UInt8} (rest : Str) : ¬ Key v x (37 :: rest) := fun h =>
  not_isSome_percent v h.2.2

/-! ### The buffer -/

/-- The text is at the beginning of the allocation, and ended by a null character if `ended`. -/
def Written (ended : Prop) (out tline : Str) : Prop :=
  ∃ tail, tline = out ++ tail ∧ (ended → tail.head? = some 0)

theorem Written.trans {ended : Prop} {out tline : Str} (h : Written ended out tline)
    (str rest : Str) : ∃ tline', trans out.length str rest tline = some ((out ++ str).length, tline') ∧
      Written True (out ++ str) tline' := by
  obtain ⟨tail, rfl, -⟩ := h
  have hsize : ∃ tail', (if out.length + str.length + 1 > (out ++ tail).length then
      out ++ tail ++ List.replicate
        (out.length + str.length + 1 + rest.length + DEF_LINE_SIZE - (out ++ tail).length) 0
      else out ++ tail) = out ++ tail' ∧ out.length + str.length + 1 ≤ (out ++ tail').length := by
    split_ifs with hlt
    · refine ⟨_, List.append_assoc _ _ _, ?_⟩
      rw [← List.append_assoc, List.length_append, List.length_replicate]
      omega
    · exact ⟨tail, rfl, by omega⟩
  obtain ⟨tail', heq, hle⟩ := hsize
  refine ⟨out ++ str ++ 0 :: (out ++ tail').drop (out.length + str.length + 1), ?_, _, rfl,
    fun _ => rfl⟩
  rw [Idsubst.trans, heq, if_pos hle, List.take_left, List.length_append]

theorem Written.transAll {ended : Prop} (rest : Str) {strs : List CStr} : ∀ {out tline : Str},
    Written ended out tline → ∃ tline', transAll rest strs out.length tline =
      some ((out ++ strs.flatMap Subtype.val).length, tline') ∧
        Written (ended ∨ strs ≠ []) (out ++ strs.flatMap Subtype.val) tline' := by
  induction strs generalizing ended with
  | nil =>
    rintro out tline ⟨tail, rfl, h⟩
    refine ⟨out ++ tail, ?_, tail, ?_, ?_⟩
    · rw [List.flatMap_nil, List.append_nil]
      rfl
    · rw [List.flatMap_nil, List.append_nil]
    · exact fun he => h (he.resolve_right fun hne => hne rfl)
  | cons str strs ih =>
    intro out tline h
    obtain ⟨tline', heq, hwritten⟩ := h.trans str.val rest
    obtain ⟨tline'', heq', tail, htail, hended⟩ := ih hwritten
    refine ⟨tline'', ?_, tail, ?_, fun _ => hended (.inl trivial)⟩
    · rw [Idsubst.transAll, heq, List.flatMap_cons, ← List.append_assoc, ← heq']
      rfl
    · rw [htail, List.flatMap_cons, ← List.append_assoc]

theorem string_written {out tline : Str} (h : Written True out tline) (h0 : 0 ∉ out) :
    string tline = out := by
  obtain ⟨tail, rfl, hended⟩ := h
  obtain ⟨t, rfl⟩ : ∃ t, tail = 0 :: t := by
    have := hended trivial
    cases tail with
    | nil => cases this
    | cons c t => exact ⟨t, by rw [Option.some.inj this]⟩
  rw [string, List.takeWhile_append_of_pos]
  · simp
  · intro c hc
    simpa using fun hc0 : c = 0 => h0 (hc0 ▸ hc)

/-! ### One turn of the loop -/

/-- A turn that does not go to the given string writes the values of one or two tokens. -/
theorem scan_turn (fuel : ℕ) {recursive : Bool} {lp out : Str} {ended : Prop} {s : State}
    (hlp : lp ≠ []) (hwhat : ∀ rest, lp = 37 :: 87 :: 37 :: rest → recursive = true ∨ Whatstr = none)
    (h : Written ended out s.tline) : ∃ toks lp' tline', tok v lp = toks ++ tok v lp' ∧
      lp'.length < lp.length ∧ (NoWhat toks ∨ ∃ rest, lp = 37 :: 87 :: 37 :: rest) ∧
      (∀ w, Single v w lp → NoWhat toks → Single v w lp') ∧
      Written True (out ++ toks.flatMap v.value) tline' ∧
      scan v Whatstr (fuel + 1) recursive lp out.length s =
        scan v Whatstr fuel recursive lp' (out ++ toks.flatMap v.value).length
          { s with tline := tline' } := by
  obtain ⟨c, lp, rfl⟩ := List.exists_cons_of_ne_nil hlp
  by_cases hpercent : c = 37 ∧ lp[1]? = some 37
  · obtain ⟨x, rest, rfl⟩ := exists_rest hpercent.2
    obtain rfl := hpercent.1
    have hnone : (if x = 87 ∧ recursive = false then Whatstr else none) = none := by
      split_ifs with hx
      · obtain ⟨rfl, rfl⟩ := hx
        exact (hwhat rest rfl).resolve_left (by decide)
      · rfl
    cases hx : v.pieces x with
    | some strs =>
      have hsome : (v.pieces x).isSome = true := by rw [hx]; rfl
      have hvalue : [Token.key x].flatMap v.value = strs.flatMap Subtype.val := by
        simp [Values.value, Values.keyword, hx]
      obtain ⟨tline', heq, tail, htail, hended⟩ := @Written.transAll _ (x :: 37 :: rest) strs _ _ h
      refine ⟨[.key x], rest, tline', tok_key hsome rest, by simp; omega, ?_, ?_, ?_, ?_⟩
      · by_cases h87 : x = 87
        · exact .inr ⟨rest, by rw [h87]⟩
        · exact .inl (by simp [NoWhat, Ne.symm h87])
      · intro w hsingle hno
        have h87 : x ≠ 87 := by
          rintro rfl
          simp [NoWhat] at hno
        exact (single_key hsome h87 rest).mp hsingle
      · rw [hvalue]
        exact ⟨tail, htail, fun _ => hended (.inr (pieces_ne_nil hx))⟩
      · rw [scan, if_pos hpercent]
        dsimp only [List.headD_cons, List.drop_succ_cons, List.drop_zero]
        rw [hnone, hx, hvalue]
        dsimp only
        rw [heq]
        rfl
    | none =>
      have hnot : ¬ Key v 37 (x :: 37 :: rest) := fun hk => by
        have := hk.2.2
        rw [List.headD_cons, hx] at this
        cases this
      have htok : tok v (37 :: x :: 37 :: rest) = [.char 37, .char x] ++ tok v (37 :: rest) := by
        rw [tok_char hnot, tok_char (not_key_second rest)]
        rfl
      obtain ⟨tline', heq, hwritten⟩ := h.trans [37, x] (x :: 37 :: rest)
      refine ⟨[.char 37, .char x], 37 :: rest, tline', htok, by simp, .inl (by simp [NoWhat]), ?_,
        hwritten, ?_⟩
      · exact fun w hsingle _ =>
          (single_char (not_key_second rest)).mp ((single_char hnot).mp hsingle)
      · rw [scan, if_pos hpercent]
        dsimp only [List.headD_cons, List.drop_succ_cons, List.drop_zero]
        rw [hnone, hx]
        dsimp only
        rw [heq]
        rfl
  · have hnot : ¬ Key v c lp := fun hk => hpercent ⟨hk.1, hk.2.1⟩
    obtain ⟨tline', heq, hwritten⟩ := h.trans [c] (c :: lp)
    refine ⟨[.char c], lp, tline', tok_char hnot, by simp, .inl (by simp [NoWhat]), ?_, hwritten, ?_⟩
    · exact fun w hsingle _ => (single_char hnot).mp hsingle
    · rw [scan, if_neg hpercent, heq]
      rfl

/-- The given string is copied to `hold`, and the loop goes on there. -/
theorem scan_what (fuel : ℕ) (w : CStr) (rest : Str) (tp : ℕ) (s : State) : ∃ hold,
    scan v (some w) (fuel + 1) false (37 :: 87 :: 37 :: rest) tp s =
      scan v (some w) fuel true (w.val ++ rest) tp { s with hold := hold } := by
  refine ⟨if rest.length + w.val.length + 1 > s.hold then rest.length + w.val.length + 1
    else s.hold, ?_⟩
  have hfits : (w.val ++ rest).length + 1 ≤ if rest.length + w.val.length + 1 > s.hold then
      rest.length + w.val.length + 1 else s.hold := by
    rw [List.length_append]
    split_ifs <;> omega
  rw [scan, if_pos ⟨rfl, rfl⟩]
  dsimp only [List.headD_cons, List.drop_succ_cons, List.drop_zero]
  rw [if_pos ⟨rfl, rfl⟩]
  exact if_pos hfits

/-! ### Runs -/

/-- Where `%W%` has its own value, the values of all keywords are written. -/
theorem scan_plain {recursive : Bool} (hplain : recursive = true ∨ Whatstr = none) (fuel : ℕ) :
    ∀ {lp out : Str} {ended : Prop} {s : State}, lp.length < fuel → Written ended out s.tline →
    ∃ s', scan v Whatstr fuel recursive lp out.length s = some s' ∧
      Written (ended ∨ lp ≠ []) (out ++ (tok v lp).flatMap v.value) s'.tline := by
  induction fuel with
  | zero => intro _ _ _ _ h; omega
  | succ fuel ih =>
    intro lp out ended s hlen h
    by_cases hlp : lp = []
    · subst hlp
      obtain ⟨tail, htail, hended⟩ := h
      refine ⟨s, by rw [scan], tail, ?_, fun he => hended (he.resolve_right fun hne => hne rfl)⟩
      rw [htail, tok, List.flatMap_nil, List.append_nil]
    · obtain ⟨toks, lp', tline', htok, hlt, -, -, hwritten, heq⟩ :=
        @scan_turn v Whatstr fuel _ _ _ _ _ hlp (fun _ _ => hplain) h
      obtain ⟨s', hs', tail, htail, hended⟩ :=
        @ih lp' _ _ { s with tline := tline' } (by omega) hwritten
      refine ⟨s', by rw [heq, hs'], tail, ?_, fun _ => hended (.inl trivial)⟩
      rw [htail, htok, List.flatMap_append, ← List.append_assoc out]

theorem meaning_of_ne {t : Token} (h : t ≠ .key 87) : meaning v Whatstr t = v.value t := by
  cases t with
  | char c => rfl
  | key x =>
    have h87 : x ≠ 87 := fun h87 => h (by rw [h87])
    rw [meaning, if_neg h87]
    rfl

theorem flatMap_meaning {l : List Token} (h : NoWhat l) :
    l.flatMap (meaning v Whatstr) = l.flatMap v.value :=
  List.flatMap_congr fun _ ht => meaning_of_ne fun hk => h (hk ▸ ht)

theorem flatMap_what {w : Str} (h : NoWhat (tok v w)) : what v w = (tok v w).flatMap v.value := by
  refine List.flatMap_congr fun t ht => ?_
  cases t with
  | char c => rfl
  | key x =>
    have h87 : x ≠ 87 := fun h87 => h (h87 ▸ ht)
    dsimp only
    rw [if_neg h87]
    rfl

/-- Under `-w` the one `%W%` is replaced by the given string. -/
theorem scan_eq {w : CStr} (fuel : ℕ) : ∀ {lp out : Str} {ended : Prop} {s : State},
    lp.length + w.val.length < fuel → Single v w.val lp → Written ended out s.tline →
    ∃ s', scan v (some w) fuel false lp out.length s = some s' ∧
      Written (ended ∨ lp ≠ [] ∧ (w.val = [] → lp ≠ [37, 87, 37]))
        (out ++ expand v (some w) lp) s'.tline := by
  induction fuel with
  | zero => intro _ _ _ _ h; omega
  | succ fuel ih =>
    intro lp out ended s hlen hsingle h
    by_cases hlp : lp = []
    · subst hlp
      obtain ⟨tail, htail, hended⟩ := h
      refine ⟨s, by rw [scan], tail, ?_, fun he => hended (he.resolve_right fun hne => hne.1 rfl)⟩
      rw [htail, expand, tok, List.flatMap_nil, List.append_nil]
    by_cases hw : ∃ rest, lp = 37 :: 87 :: 37 :: rest
    · obtain ⟨rest, rfl⟩ := hw
      obtain ⟨hjoin, hno, hno'⟩ := (single_what rest).mp hsingle
      obtain ⟨hold, heq⟩ := scan_what (v := v) fuel w rest out.length s
      obtain ⟨s', hs', tail, htail, hended⟩ := @scan_plain v (some w) true (.inl rfl) fuel
        (w.val ++ rest) out _ { s with hold := hold } (by simp at hlen ⊢; omega) h
      refine ⟨s', heq.trans hs', tail, ?_, fun he => hended (he.imp_right fun hne hnil => ?_)⟩
      · rw [htail, hjoin, List.flatMap_append, expand, tok_key rfl, List.flatMap_cons,
          flatMap_meaning hno', meaning, if_pos rfl, ← flatMap_what hno]
        rfl
      · obtain ⟨hwnil, rfl⟩ := List.append_eq_nil_iff.mp hnil
        exact hne.2 hwnil rfl
    · obtain ⟨toks, lp', tline', htok, hlt, hno, hnext, hwritten, heq⟩ :=
        @scan_turn v (some w) fuel false _ _ _ _ hlp
          (fun rest hrest => absurd ⟨rest, hrest⟩ hw) h
      have hno := hno.resolve_right hw
      obtain ⟨s', hs', tail, htail, hended⟩ :=
        @ih lp' _ _ { s with tline := tline' } (by omega) (hnext w.val hsingle hno) hwritten
      refine ⟨s', by rw [heq, hs'], tail, ?_, fun _ => hended (.inl trivial)⟩
      rw [htail, expand, expand, htok, List.flatMap_append, flatMap_meaning hno, ← List.append_assoc out]

theorem zero_keyword (v : Values) (x : UInt8) : 0 ∉ v.keyword x := by
  rw [Values.keyword, List.mem_flatMap]
  rintro ⟨str, -, h0⟩
  exact str.2 h0

/-- The tokens of a string have no null character. -/
theorem zero_tok {t : Token} (n : ℕ) : ∀ {lp : Str}, lp.length ≤ n → 0 ∉ lp → t ∈ tok v lp →
    0 ∉ v.value t := by
  induction n with
  | zero =>
    intro lp hlen _ ht
    obtain rfl : lp = [] := List.length_eq_zero_iff.mp (by omega)
    cases ht
  | succ n ih =>
    intro lp hlen h0 ht
    by_cases hlp : lp = []
    · subst hlp
      cases ht
    obtain ⟨c, lp, rfl⟩ := List.exists_cons_of_ne_nil hlp
    rw [List.mem_cons, not_or] at h0
    rw [List.length_cons] at hlen
    by_cases hkey : Key v c lp
    · obtain ⟨rfl, hd, hsome⟩ := hkey
      obtain ⟨x, rest, rfl⟩ := exists_rest hd
      have hsome : (v.pieces x).isSome = true := hsome
      rw [tok_key hsome, List.mem_cons] at ht
      rcases ht with rfl | ht
      · exact zero_keyword v x
      · simp only [List.mem_cons, not_or] at h0
        exact ih (by simp at hlen; omega) h0.2.2.2 ht
    · rw [tok_char hkey, List.mem_cons] at ht
      rcases ht with rfl | ht
      · simpa [Values.value] using h0.1
      · exact ih (by omega) h0.2 ht

theorem zero_expand (Whatstr : Option CStr) (line : CStr) : 0 ∉ expand v Whatstr line.val := by
  have hwhat : ∀ w : CStr, 0 ∉ what v w.val := fun w => by
    rw [what, List.mem_flatMap]
    rintro ⟨t, ht, h0⟩
    cases t with
    | char c => exact zero_tok w.val.length le_rfl w.2 ht h0
    | key x =>
      dsimp only at h0
      split_ifs at h0
      · revert h0
        decide
      · exact zero_keyword v x h0
  rw [expand, List.mem_flatMap]
  rintro ⟨t, ht, h0⟩
  by_cases h87 : t = .key 87
  · subst h87
    rw [meaning, if_pos rfl] at h0
    cases Whatstr with
    | none => exact zero_keyword v 87 h0
    | some w => exact hwhat w h0
  · rw [meaning_of_ne h87] at h0
    exact zero_tok line.val.length le_rfl line.2 ht h0

/-- A line without `%` has no keywords. -/
theorem expand_of_not_mem {line : Str} (h : 37 ∉ line) : expand v Whatstr line = line := by
  induction line with
  | nil => rfl
  | cons c lp ih =>
    rw [List.mem_cons, not_or] at h
    rw [expand, tok_char fun hk => h.1 hk.1.symm, List.flatMap_cons]
    exact congrArg (c :: ·) (ih h.2)

theorem expand_none (line : Str) : expand v none line = (tok v line).flatMap v.value := by
  refine List.flatMap_congr fun t _ => ?_
  cases t with
  | char c => rfl
  | key x =>
    rw [meaning]
    split_ifs with h87
    · rw [h87]
      rfl
    · rfl

theorem idsubst_eq (line : CStr) (h : Harmless v Whatstr line.val) (s : State) :
    ∃ s', idsubst v Whatstr line.val s = some (expand v Whatstr line.val, s') := by
  by_cases hmem : 37 ∈ line.val
  · have hne : line.val ≠ [] := List.ne_nil_of_mem hmem
    have hstart : Written False [] s.tline := ⟨s.tline, rfl, False.elim⟩
    have hscan : ∃ s', scan v Whatstr (line.val.length + (Whatstr.elim 0 (·.val.length)) + 1) false
        line.val 0 s = some s' ∧ Written True (expand v Whatstr line.val) s'.tline := by
      cases Whatstr with
      | none =>
        obtain ⟨s', hs', tail, htail, hended⟩ := @scan_plain v none false (.inr rfl)
          (line.val.length + 0 + 1) _ _ _ _ (Nat.lt_succ_self _) hstart
        refine ⟨s', hs', tail, ?_, fun _ => hended (.inr hne)⟩
        rw [htail, expand_none]
        rfl
      | some w =>
        obtain ⟨hsingle, hnil⟩ := h w rfl
        obtain ⟨s', hs', tail, htail, hended⟩ :=
          scan_eq (line.val.length + w.val.length + 1) (Nat.lt_succ_self _) hsingle hstart
        exact ⟨s', hs', tail, htail, fun _ => hended (.inr ⟨hne, hnil⟩)⟩
    obtain ⟨s', hs', hwritten⟩ := hscan
    have hsome : s'.tline ≠ [] := by
      obtain ⟨tail, htail, hended⟩ := hwritten
      intro hnil
      rw [hnil] at htail
      have := hended trivial
      rw [(List.append_eq_nil_iff.mp htail.symm).2] at this
      cases this
    refine ⟨s', ?_⟩
    rw [idsubst, if_pos hmem]
    dsimp only
    rw [hs', ← string_written hwritten (zero_expand Whatstr line)]
    exact if_neg hsome
  · exact ⟨s, by rw [idsubst, if_neg hmem, expand_of_not_mem hmem]⟩

/-- What `idsubst` is for: in one `get`, the text of each line with its keywords replaced, and no
store outside the buffers. -/
def Meets (Whatstr : Option CStr) (lines : List (Values × CStr)) : Prop :=
  run Whatstr lines ⟨[], 0⟩ = some (lines.map fun l => expand l.1 Whatstr l.2.val)

theorem run_eq {lines : List (Values × CStr)} (h : ∀ l ∈ lines, Harmless l.1 Whatstr l.2.val) :
    ∀ s, run Whatstr lines s = some (lines.map fun l => expand l.1 Whatstr l.2.val) := by
  induction lines with
  | nil => exact fun _ => rfl
  | cons l lines ih =>
    intro s
    obtain ⟨s', hs'⟩ := idsubst_eq l.2 (h l List.mem_cons_self) s
    rw [run, hs']
    change (run Whatstr lines s').bind _ = _
    rw [ih (fun l hl => h l (List.mem_cons_of_mem _ hl)) s']
    rfl

/-- Without `-w` it does so for any lines, and under `-w` for lines that have one `%W%` at most. -/
theorem run_meets {lines : List (Values × CStr)}
    (h : ∀ l ∈ lines, Harmless l.1 Whatstr l.2.val) : Meets Whatstr lines :=
  run_eq h _

/-- A module `f` of release 1, level 1. -/
def module_f : Values :=
  let f : CStr := ⟨[102], by decide⟩
  let one : CStr := ⟨[49], by decide⟩
  let empty : CStr := ⟨[], by decide⟩
  ⟨f, empty, one, one, empty, empty, empty, empty, empty, empty, empty, empty, empty, one, empty,
    f, f, one⟩

/-- `a %W%` with the string `b %M%`. -/
theorem run_meets_what : Meets (some ⟨[98, 32, 37, 77, 37], by decide⟩)
    [(module_f, ⟨[97, 32, 37, 87, 37, 10], by decide⟩)] :=
  run_meets fun l hl w hw => by
    obtain rfl := List.mem_singleton.mp hl
    obtain rfl := Option.some.inj hw
    have hkey : ∀ {c lp}, c ≠ 37 → ¬ Key module_f c lp := fun hc hk => hc hk.1
    refine ⟨?_, fun h => by cases h⟩
    rw [single_char (hkey (by decide)), single_char (hkey (by decide)), single_what]
    exact ⟨rfl, by rw [NoWhat]; decide, by rw [NoWhat]; decide⟩

set_option maxRecDepth 4000 in
/-- Only the first of two is replaced by the given string. -/
theorem not_meets_second : ¬ Meets (some ⟨[98], by decide⟩)
    [(module_f, ⟨[37, 87, 37, 37, 87, 37, 10], by decide⟩)] := by
  rw [Meets]
  decide

end Unitas.Sccs.Idsubst
