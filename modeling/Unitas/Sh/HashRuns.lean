import Mathlib.Data.List.Perm.Subperm
import Unitas.Sh.Hashserv
import Unitas.Lib.Transition

/-! What the sixteen bits of an entry stand for, and what the functions that look at some of
them see. -/
namespace Unitas.Sh.Hash

/-- The entries that are found in PATH are `command` before its first relative component and
`rel` from there on; `dot` is what `zapcd` makes of `rel`, and `zapped` is not found yet. -/
inductive Kind
  | zapped
  | builtin
  | function
  | command
  | rel
  | dot
  deriving DecidableEq

def Kind.bits : Kind → BitVec 16
  | zapped => NOTFOUND
  | builtin => BUILTIN
  | function => FUNCTION
  | command => COMMAND
  | rel => REL_COMMAND
  | dot => DOT_COMMAND

def Kind.internal (k : Kind) : Bool := k = builtin || k = function

def Kind.zap (k : Kind) : Kind := if k.internal then k else zapped

/-- The type with the number of the builtin or the position in PATH. -/
def entry (k : Kind) (p : BitVec 8) : BitVec 16 := k.bits ||| p.setWidth 16

/-- What the list of the relative entries is to hold. -/
def Linked (d : BitVec 16) : Prop := d &&& REL_COMMAND ≠ 0 ∧ d &&& CDMARK = 0

instance : DecidablePred Linked := fun _ => inferInstanceAs (Decidable (_ ∧ _))

variable (k : Kind) (p : BitVec 8)

theorem setWidth_and_low : p.setWidth 16 &&& 0x00FF = p.setWidth 16 := by
  revert p; decide +kernel

/-- What a mask sees of an entry. -/
theorem entry_and (m : BitVec 16) : entry k p &&& m = k.bits &&& m ||| p.setWidth 16 &&& m := by
  unfold entry
  exact BitVec.and_or_distrib_right

/-- A mask of types does not see the low byte. -/
theorem entry_and_type {m : BitVec 16} (hm : (0x00FF : BitVec 16) &&& m = 0) :
    entry k p &&& m = k.bits &&& m := by
  rw [entry_and, ← setWidth_and_low, BitVec.and_assoc, hm]
  simp

/-- A mask with all of the low byte keeps the number. -/
theorem entry_and_low {m : BitVec 16} (hm : (0x00FF : BitVec 16) &&& m = 0x00FF) :
    entry k p &&& m = k.bits &&& m ||| p.setWidth 16 := by
  rw [entry_and, ← setWidth_and_low, BitVec.and_assoc, hm]

theorem entry_internal : entry k p &&& (BUILTIN ||| FUNCTION) ≠ 0 ↔ k.internal = true := by
  rw [entry_and_type k p (by decide)]
  cases k <;> decide

theorem entry_function : entry k p &&& FUNCTION ≠ 0 ↔ k = .function := by
  rw [entry_and_type k p (by decide)]
  cases k <;> decide

theorem entry_dot : entry k p &&& DOT_COMMAND = DOT_COMMAND ↔ k = .dot := by
  rw [entry_and_type k p (by decide)]
  cases k <;> decide

theorem entry_rel : entry k p &&& REL_COMMAND = REL_COMMAND ↔ k = .rel ∨ k = .dot := by
  rw [entry_and_type k p (by decide)]
  cases k <;> decide

theorem entry_command :
    entry k p &&& (COMMAND ||| REL_COMMAND) ≠ 0 ↔ k = .command ∨ k = .rel ∨ k = .dot := by
  rw [entry_and_type k p (by decide)]
  cases k <;> decide

theorem linked_entry : Linked (entry k p) ↔ k = .rel := by
  unfold Linked
  rw [entry_and_type k p (by decide), entry_and_type k p (by decide)]
  cases k <;> decide

theorem zapentry_entry : zapentry (entry k p) = entry k.zap p := by
  unfold zapentry
  rw [entry_and_low k p (by decide)]
  unfold entry
  congr 1
  cases k <;> decide

theorem hashtype_entry : hashtype (entry k p) = hashtype k.bits := by
  unfold hashtype
  exact entry_and_type k p (by decide)

theorem hashdata_entry : hashdata (entry k p) = p.setWidth 16 := by
  unfold hashdata
  rw [entry_and_low k p (by decide)]
  have hbits : k.bits &&& 0x00FF = 0 := by
    cases k <;> decide
  rw [hbits]
  simp

theorem entry_cdmark : entry .rel p ||| CDMARK = entry .dot p := by
  unfold entry
  rw [BitVec.or_assoc, BitVec.or_comm (p.setWidth 16), ← BitVec.or_assoc]
  rfl

theorem toNat_hashdata_entry : (hashdata (entry k p)).toNat = p.toNat := by
  rw [hashdata_entry, BitVec.toNat_setWidth]
  omega

/-- A position that fits into the byte. -/
theorem entry_ofInt {count : ℤ} (h0 : 0 < count) (h255 : count ≤ 255) :
    k.bits ||| BitVec.ofInt 16 count = entry k (BitVec.ofInt 8 count) ∧
      ((BitVec.ofInt 8 count).toNat : ℤ) = count := by
  obtain ⟨n, rfl⟩ := Int.eq_ofNat_of_zero_le h0.le
  have h8 : (BitVec.ofInt 8 n).toNat = n := by
    rw [BitVec.ofInt_natCast, BitVec.toNat_ofNat]
    omega
  have h16 : BitVec.ofInt 16 n = (BitVec.ofInt 8 n).setWidth 16 := by
    apply BitVec.eq_of_toNat_eq
    rw [BitVec.toNat_setWidth, h8, BitVec.ofInt_natCast, BitVec.toNat_ofNat]
  exact ⟨by rw [entry, h16], by rw [h8]⟩

end Unitas.Sh.Hash

/-! Runs of `pathlook` and of the functions that change the table of commands. -/
namespace Unitas.Sh.Hash
open Unitas.LinkedList Unitas.Transition

inductive Call
  | pathlook (name : Name) (arg : Bool) (access : ℕ → Fin 4)
  | hashCmd (name : Name) (access : ℕ → Fin 4)
  | zapcd
  | zaphash
  | hashFunc (name : Name)
  | funcUnhash (name : Name)

def Tab.call (env : Env) (t : Tab) : Call → Except Fault (Tab × Option (BitVec 16))
  | .pathlook name arg access => do
    let (t, d) ← Hash.pathlook env name arg access t
    .ok (t, some d)
  | .hashCmd name access => do
    let (t, d) ← Hash.hashCmd env name access t
    .ok (t, some d)
  | .zapcd => do
    let t ← Hash.zapcd t
    .ok (t, none)
  | .zaphash => .ok (Hash.zaphash t, none)
  | .hashFunc name => .ok (Hash.hashFunc name t, none)
  | .funcUnhash name => .ok (Hash.funcUnhash env name t, none)

def Env.step (env : Env) (t : Tab) (c : Call) : Option Tab :=
  match t.call env c with
  | .ok (t, _) => some t
  | .error _ => none

def Tab.empty : Tab where
  data _ := none
  relcmd := ⟨none, fun _ => none⟩
  keys := []
  found _ := 0

/-! ### What has to be avoided -/

/-- Where the search through PATH begins for an entry, if there is one. -/
def Env.searchStart (env : Env) : Option (BitVec 16) → Option ℕ
  | none => some 1
  | some d =>
    if d &&& (BUILTIN ||| FUNCTION) ≠ 0 then none
    else if d &&& DOT_COMMAND = DOT_COMMAND then
      if env.multrel = false ∧ env.dotpath < (hashdata d).toNat then none else some env.dotpath
    else if d &&& (COMMAND ||| REL_COMMAND) ≠ 0 then none
    else some 1

/-- If the search succeeds, then among the first 255 components. -/
def Env.Near (env : Env) (access : ℕ → Fin 4) (d : Option (BitVec 16)) : Prop :=
  ∀ start, env.searchStart d = some start →
    ∀ i, start ≤ i → i ≤ env.paths.length → access i = 0 →
      ∃ j, start ≤ j ∧ j ≤ 255 ∧ access j = 0

/-- PATH is only looked through for a name without a slash that is no builtin's. -/
def Env.Searched (env : Env) (name : Name) : Prop := 47 ∉ name ∧ env.syslook name = 0

def Env.Ok (env : Env) (t : Tab) : Call → Prop
  | .pathlook name arg access =>
    env.Searched name → arg = false → env.Near access (t.data name)
  | .hashCmd name access =>
    (∀ d, t.data name = some d → d &&& DOT_COMMAND ≠ DOT_COMMAND) ∧
      (env.Searched name → env.Near access ((t.data name).map zapentry))
  | .hashFunc name => ∀ d, t.data name = some d → ¬ Linked d
  | _ => True

/-! ### Search -/

variable {env : Env} {t t' : Tab} {name : Name} {access : ℕ → Fin 4} {k : Kind} {p : BitVec 8}
  {count : ℤ} {l : List Name}

theorem findFrom_eq (access : ℕ → Fin 4) (e : Fin 4) (start left : ℕ) :
    (findFrom access e start left ≤ 0 ∧ -3 ≤ findFrom access e start left) ∨
      ∃ i, start ≤ i ∧ i < start + left ∧ access i = 0 ∧
        (∀ j, start ≤ j → j < i → access j ≠ 0) ∧ findFrom access e start left = i := by
  induction left generalizing e start with
  | zero =>
    rw [findFrom]
    omega
  | succ left ih =>
    rw [findFrom]
    split_ifs with h0
    · exact .inr ⟨start, le_rfl, by omega, h0, fun j hj hlt => absurd hj (by omega), rfl⟩
    · refine (@ih _ (start + 1)).imp_right ?_
      rintro ⟨i, hi, hlt, hacc, hfirst, heq⟩
      refine ⟨i, by omega, by omega, hacc, fun j hj hji => ?_, heq⟩
      rcases eq_or_lt_of_le hj with rfl | hj
      · exact h0
      · exact hfirst j hj hji

/-- What a search comes to: a position of PATH from `start` on that fits into an entry. -/
def Env.Found (env : Env) (start : ℕ) (count : ℤ) : Prop :=
  (count ≤ 0 ∧ -3 ≤ count) ∨ (0 < count ∧ (start : ℤ) ≤ count ∧ count ≤ env.paths.length ∧
    count ≤ 255)

theorem findFrom_found {e : Fin 4} {start left : ℕ} (hstart : 0 < start)
    (hleft : start + left ≤ env.paths.length + 1)
    (hnear : ∀ i, start ≤ i → i ≤ env.paths.length → access i = 0 →
      ∃ j, start ≤ j ∧ j ≤ 255 ∧ access j = 0) :
    env.Found start (findFrom access e start left) := by
  rcases findFrom_eq access e start left with
    h | ⟨i, hi, hlt, hacc, hfirst, heq⟩
  · exact .inl h
  · obtain ⟨j, hj, hj255, hjacc⟩ := hnear i hi (by omega) hacc
    have hij : i ≤ j := by
      by_contra hji
      exact hfirst j hj (by omega) hjacc
    rw [heq]
    exact .inr ⟨by omega, by omega, by omega, by omega⟩

theorem setDotpath_pos {cnt dotpath : ℕ} {paths : List (List UInt8)} (hcnt : 0 < cnt)
    (hdot : 0 < dotpath) : 0 < (setDotpath cnt dotpath paths).1 := by
  induction paths generalizing cnt dotpath with
  | nil => exact hdot
  | cons path paths ih =>
    rw [setDotpath]
    split_ifs
    · exact hdot
    · exact ih (Nat.succ_pos _) hdot
    · exact ih hcnt hcnt
    · exact hdot

theorem Env.dotpath_pos : 0 < env.dotpath := setDotpath_pos Nat.one_pos (by decide)

/-! ### Invariant -/

/-- What an entry says about its name. -/
def Env.Good (env : Env) (name : Name) (found : ℤ) (p : BitVec 8) : Kind → Prop
  | .builtin | .function => True
  | .zapped => env.syslook name = 0
  | .command => env.syslook name = 0 ∧ 0 < found ∧ found = p.toNat ∧ p.toNat < env.dotpath
  | .rel | .dot => env.syslook name = 0 ∧ 0 < found ∧ found = p.toNat ∧
      env.dotpath ≤ p.toNat ∧ p.toNat ≤ env.paths.length

structure Tab.Inv (env : Env) (t : Tab) : Prop where
  data : ∀ name d, t.data name = some d → ∃ k p, d = entry k p ∧ env.Good name (t.found name) p k
  rel : ∃ l, t.relcmd.Is l ∧ ∀ name, name ∈ l ↔ ∃ d, t.data name = some d ∧ Linked d
  keys : ∀ name d, t.data name = some d → name ∈ t.keys

theorem Tab.Inv.empty : Tab.empty.Inv env where
  data _ _ := nofun
  rel := ⟨[], .nil, by simp [Tab.empty]⟩
  keys _ _ := nofun

/-- Two tables that agree but for one entry. -/
structure Tab.Agree (name : Name) (t t' : Tab) : Prop where
  data : ∀ n, n ≠ name → t'.data n = t.data n
  found : ∀ n, n ≠ name → t'.found n = t.found n
  keys : ∀ n, n ∈ t.keys → n ∈ t'.keys

/-- One entry is written, in a table that keeps the list up. -/
theorem Tab.Inv.put (h : t.Inv env) (ha : t.Agree name t') (hdata : t'.data name = some (entry k p))
    (hgood : env.Good name (t'.found name) p k) (hkey : name ∈ t'.keys)
    (hrel : ∃ l, t'.relcmd.Is l ∧ ∀ n, n ∈ l ↔
      (n = name ∧ k = .rel) ∨ (n ≠ name ∧ ∃ d, t.data n = some d ∧ Linked d)) : t'.Inv env where
  data n d hd := by
    by_cases hn : n = name
    · subst hn
      exact ⟨k, p, Option.some.inj (hd.symm.trans hdata), hgood⟩
    · rw [ha.data n hn] at hd
      rw [ha.found n hn]
      exact h.data n d hd
  rel := by
    obtain ⟨l, hl, hmem⟩ := hrel
    refine ⟨l, hl, fun n => (hmem n).trans ?_⟩
    by_cases hn : n = name
    · subst hn
      simp [hdata, linked_entry]
    · simp [hn, ha.data n hn]
  keys n d hd := by
    by_cases hn : n = name
    · exact hn ▸ hkey
    · rw [ha.data n hn] at hd
      exact ha.keys n (h.keys n d hd)

/-- An entry outside of the list is written with another that stays outside. -/
theorem Tab.Inv.putUnlinked (h : t.Inv env) (ha : t.Agree name t')
    (hdata : t'.data name = some (entry k p)) (hgood : env.Good name (t'.found name) p k)
    (hkey : name ∈ t'.keys) (hcmd : t'.relcmd = t.relcmd) (hk : k ≠ .rel)
    (hout : ∀ d, t.data name = some d → ¬ Linked d) : t'.Inv env := by
  obtain ⟨l, hl, hmem⟩ := h.rel
  refine h.put ha hdata hgood hkey ⟨l, hcmd ▸ hl, fun n => (hmem n).trans ?_⟩
  by_cases hn : n = name
  · subst hn
    simpa [hk] using hout
  · simp [hn]

theorem Tab.setData_agree (t : Tab) (name : Name) (d : BitVec 16) :
    t.Agree name (t.setData name d) where
  data _ hn := Function.update_of_ne hn ..
  found _ _ := rfl
  keys _ h := h

theorem Tab.henter_agree (t : Tab) (name : Name) (d : BitVec 16) :
    t.Agree name (t.henter name d) where
  data _ hn := Function.update_of_ne hn ..
  found _ _ := rfl
  keys _ h := List.mem_cons_of_mem _ h

@[simp] theorem Tab.data_setData (t : Tab) (name : Name) (d : BitVec 16) :
    (t.setData name d).data name = some d :=
  Function.update_self ..

@[simp] theorem Tab.data_henter (t : Tab) (name : Name) (d : BitVec 16) :
    (t.henter name d).data name = some d :=
  Function.update_self ..

theorem Tab.Inv.setData (h : t.Inv env) (hkey : t.data name ≠ none)
    (hgood : env.Good name (t.found name) p k) (hk : k ≠ .rel)
    (hout : ∀ d, t.data name = some d → ¬ Linked d) : (t.setData name (entry k p)).Inv env := by
  obtain ⟨d, hd⟩ := Option.ne_none_iff_exists'.mp hkey
  exact h.putUnlinked (t.setData_agree name _) (t.data_setData name _) hgood (h.keys name d hd)
    rfl hk hout

theorem Tab.Inv.henter (h : t.Inv env) (hnone : t.data name = none)
    (hgood : env.Good name (t.found name) p k) (hk : k ≠ .rel) :
    (t.henter name (entry k p)).Inv env :=
  h.putUnlinked (t.henter_agree name _) (t.data_henter name _) hgood (List.mem_cons_self ..)
    rfl hk (by simp [hnone])

/-! ### Answers -/

/-- What a caller gets for a name that it looks up in PATH. -/
def Tab.Answer (t : Tab) (name : Name) (d : BitVec 16) : Prop :=
  (0 < t.found name ∧ (hashtype d = COMMAND ∨ hashtype d = REL_COMMAND) ∧
    ((hashdata d).toNat : ℤ) = t.found name) ∨
  (t.found name ≤ 0 ∧ hashtype d = NOTFOUND)

theorem hashtype_neg (h0 : count ≤ 0) (h3 : -3 ≤ count) :
    hashtype (BitVec.ofInt 16 (-count)) = NOTFOUND := by
  obtain rfl | rfl | rfl | rfl : count = 0 ∨ count = -1 ∨ count = -2 ∨ count = -3 := by omega
  all_goals decide

theorem Tab.Inv.answer (h : t.Inv env) {d : BitVec 16} (hd : t.data name = some d)
    (hcmd : d &&& (COMMAND ||| REL_COMMAND) ≠ 0) : t.Answer name d := by
  obtain ⟨k, p, rfl, hgood⟩ := h.data name d hd
  left
  rw [hashtype_entry, toNat_hashdata_entry]
  rcases (entry_command k p).mp hcmd with rfl | rfl | rfl
  · exact ⟨hgood.2.1, .inl (by decide), hgood.2.2.1.symm⟩
  · exact ⟨hgood.2.1, .inr (by decide), hgood.2.2.1.symm⟩
  · exact ⟨hgood.2.1, .inr (by decide), hgood.2.2.1.symm⟩

/-- An entry that has not been found may be looked for again. -/
theorem Tab.Inv.setFound (h : t.Inv env) (hfresh : t.data name = none ∨ t.data name = some 0)
    (hsys : env.syslook name = 0) (count : ℤ) :
    Tab.Inv env { t with found := Function.update t.found name count } := by
  obtain ⟨l, hl, hmem⟩ := h.rel
  refine ⟨fun n d hd => ?_, ⟨l, hl, hmem⟩, h.keys⟩
  by_cases hn : n = name
  · subst hn
    rcases hfresh with hnone | hzero
    · cases hnone.symm.trans hd
    · exact ⟨.zapped, 0, Option.some.inj (hd.symm.trans hzero), hsys⟩
  · obtain ⟨k, p, heq, hgood⟩ := h.data n d hd
    refine ⟨k, p, heq, ?_⟩
    change env.Good n (Function.update t.found name count n) p k
    rwa [Function.update_of_ne hn]

/-- A found command goes into an entry that has not been found. -/
theorem Tab.Inv.enter (h : t.Inv env) (hzero : t.data name = some 0)
    (hsys : env.syslook name = 0) (hfound : t.found name = count) (hpos : 0 < count)
    (hlen : count ≤ env.paths.length) (h255 : count ≤ 255) (hentry : BitVec 16) :
    (t.finish env name hentry count).1.Inv env ∧
      (t.finish env name hentry count).1.Answer name (t.finish env name hentry count).2 := by
  have hkey := h.keys name 0 hzero
  have hout : ∀ d, t.data name = some d → ¬ Linked d := by
    rintro d hd
    cases hzero.symm.trans hd
    decide
  have hnat := (entry_ofInt .zapped hpos h255).2
  by_cases hdot : count < env.dotpath
  · have heq : t.finish env name hentry count =
        (t.setData name (entry .command (BitVec.ofInt 8 count)),
          entry .command (BitVec.ofInt 8 count)) := by
      rw [← (entry_ofInt .command hpos h255).1]
      simp only [Tab.finish, hpos, hzero, hdot, if_true]
      rfl
    rw [heq]
    have hinv : Tab.Inv env (t.setData name (entry .command (BitVec.ofInt 8 count))) := by
      refine h.setData (by simp [hzero]) ⟨hsys, ?_, ?_, ?_⟩ nofun hout
      · rwa [hfound]
      · rw [hfound, hnat]
      · omega
    exact ⟨hinv, hinv.answer (t.data_setData name _) ((entry_command ..).mpr (.inl rfl))⟩
  · have heq : t.finish env name hentry count =
        ({ t.setData name (entry .rel (BitVec.ofInt 8 count)) with
            relcmd := (t.relcmd.set (some name) t.relcmd.head).set none (some name) },
          entry .rel (BitVec.ofInt 8 count)) := by
      rw [← (entry_ofInt .rel hpos h255).1]
      simp only [Tab.finish, hpos, hzero, hdot, if_true, if_false]
      rfl
    rw [heq]
    obtain ⟨l, hl, hmem⟩ := h.rel
    have hname : name ∉ l := fun hn => by
      obtain ⟨d, hd, hlinked⟩ := (hmem name).mp hn
      exact hout d hd hlinked
    have hinv : Tab.Inv env { t.setData name (entry .rel (BitVec.ofInt 8 count)) with
        relcmd := (t.relcmd.set (some name) t.relcmd.head).set none (some name) } := by
      refine h.put ?_ (t.data_setData name _) ⟨hsys, ?_, ?_, ?_, ?_⟩ hkey
        ⟨name :: l, hl.push hname, fun n => ?_⟩
      · exact ⟨(t.setData_agree name _).data, fun _ _ => rfl, fun _ hn => hn⟩
      · exact hfound.symm ▸ hpos
      · exact hfound.trans hnat.symm
      · omega
      · omega
      · rw [List.mem_cons, hmem]
        by_cases hn : n = name
        · simp [hn]
        · simp [hn]
    refine ⟨hinv, hinv.answer (t.data_setData name _) ((entry_command ..).mpr ?_)⟩
    exact .inr (.inl rfl)

theorem Tab.Inv.finish (h : t.Inv env) (hfresh : t.data name = none ∨ t.data name = some 0)
    (hsys : env.syslook name = 0) (hfound : t.found name = count) {start : ℕ}
    (hcount : env.Found start count) :
    (t.finish env name 0 count).1.Inv env ∧
      (t.finish env name 0 count).1.Answer name (t.finish env name 0 count).2 := by
  rcases hcount with ⟨h0, h3⟩ | ⟨hpos, -, hlen, h255⟩
  · rw [Tab.finish, if_neg (not_lt.mpr h0)]
    exact ⟨h, .inr ⟨hfound.trans_le h0, hashtype_neg h0 h3⟩⟩
  · rcases hfresh with hnone | hzero
    · have heq : t.finish env name 0 count = (t.henter name 0).finish env name 0 count := by
        simp only [Tab.finish, hpos, hnone, Tab.data_henter, if_true]
      rw [heq]
      exact (h.henter (k := .zapped) (p := 0) hnone hsys nofun).enter (t.data_henter name _) hsys
        hfound hpos hlen h255 0
    · exact h.enter hzero hsys hfound hpos hlen h255 0

/-- `pathsrch` on an entry that has not been found. -/
theorem Tab.Inv.pathsrch (h : t.Inv env) (hfresh : t.data name = none ∨ t.data name = some 0)
    (hsys : env.syslook name = 0) {oldpath start : ℕ}
    (hfind : findpath env access oldpath = .ok count) (hcount : env.Found start count) :
    ∃ t' d, Hash.pathsrch env name access oldpath t = .ok (t', d) ∧ t'.Inv env ∧
      t'.Answer name d := by
  have hinv := (h.setFound hfresh hsys count).finish hfresh hsys (Function.update_self ..) hcount
  refine ⟨_, _, ?_, hinv⟩
  rw [Hash.pathsrch, hfind]
  rfl

theorem findpath_zero (hnear : env.Near access none) :
    ∃ count, findpath env access 0 = .ok count ∧ env.Found 1 count :=
  ⟨findFrom access 1 1 env.paths.length, by rw [findpath, if_pos rfl],
    findFrom_found Nat.one_pos (by omega) (hnear 1 rfl)⟩

/-- After `zapcd` the entry is looked for from the first relative component on, or only in it. -/
theorem findpath_dot {d : BitVec 16} (hd : d &&& DOT_COMMAND = DOT_COMMAND)
    (hint : ¬ d &&& (BUILTIN ||| FUNCTION) ≠ 0) (hnear : env.Near access (some d))
    (hlow : env.dotpath ≤ (hashdata d).toNat) (hlen : (hashdata d).toNat ≤ env.paths.length)
    (h255 : (hashdata d).toNat ≤ 255) :
    ∃ count, findpath env access
        (if env.multrel = false ∧ env.dotpath < (hashdata d).toNat then (hashdata d).toNat
          else env.dotpath) = .ok count ∧ env.Found env.dotpath count := by
  have hpos := env.dotpath_pos
  by_cases hone : env.multrel = false ∧ env.dotpath < (hashdata d).toNat
  · refine ⟨if access env.dotpath = 0 then env.dotpath else (hashdata d).toNat, ?_, ?_⟩
    · rw [if_pos hone, findpath]
      simp only [if_neg (show ¬ (hashdata d).toNat = 0 by omega),
        if_neg (show ¬ env.paths.length + 1 < env.dotpath by omega),
        if_neg (show ¬ env.paths.length + 1 = env.dotpath by omega), gt_iff_lt, if_pos hone.2]
    · right
      split_ifs <;> omega
  · refine ⟨findFrom access 1 env.dotpath (env.paths.length + 1 - env.dotpath), ?_,
      findFrom_found hpos (by omega) (hnear _ ?_)⟩
    · rw [if_neg hone, findpath]
      simp only [if_neg (show ¬ env.dotpath = 0 by omega),
        if_neg (show ¬ env.paths.length + 1 < env.dotpath by omega), gt_iff_lt, lt_irrefl, if_false]
    · rw [Env.searchStart, if_neg hint, if_pos hd, if_neg hone]

/-- A name that only PATH can resolve. -/
def Tab.External (env : Env) (t : Tab) (name : Name) : Prop :=
  env.syslook name = 0 ∧ ∀ d, t.data name = some d → d &&& (BUILTIN ||| FUNCTION) = 0

theorem Tab.Inv.finish_builtin (h : t.Inv env) (hnone : t.data name = none) (i : BitVec 8) :
    (t.finish env name (entry .builtin i) 1).1.Inv env := by
  have hne : entry .builtin i ≠ 0 := by
    revert i
    decide +kernel
  have heq : t.finish env name (entry .builtin i) 1 =
      (t.henter name (entry .builtin i), entry .builtin i) := by
    simp only [Tab.finish, hnone, hne, Int.one_pos, gt_iff_lt, if_true, if_false]
  rw [heq]
  exact h.henter hnone trivial nofun

theorem Tab.Inv.pathlook {arg : Bool} (h : t.Inv env)
    (hok : env.Searched name → arg = false → env.Near access (t.data name)) :
    ∃ t' d, Hash.pathlook env name arg access t = .ok (t', d) ∧ t'.Inv env ∧
      (47 ∉ name → arg = false → t.External env name → t'.Answer name d) := by
  by_cases hslash : 47 ∈ name
  · exact ⟨t, COMMAND, if_pos hslash, h, fun hno => absurd hslash hno⟩
  cases hdata : t.data name with
  | none =>
    simp only [Hash.pathlook, if_neg hslash, hdata]
    split_ifs with hsys harg
    · exact ⟨_, _, rfl, h.finish_builtin hdata _, fun _ _ hext => absurd hext.1 hsys⟩
    · exact ⟨t, _, rfl, h, fun _ hno => absurd harg (by simp [hno])⟩
    · have hnear := hok ⟨hslash, not_not.mp hsys⟩ (Bool.eq_false_iff.mpr harg)
      rw [hdata] at hnear
      obtain ⟨count, hfind, hfound⟩ := findpath_zero hnear
      obtain ⟨t', d, heq, hinv, hans⟩ := h.pathsrch (.inl hdata) (not_not.mp hsys) hfind hfound
      exact ⟨t', d, heq, hinv, fun _ _ _ => hans⟩
  | some d =>
    obtain ⟨k, p, rfl, hgood⟩ := h.data name d hdata
    simp only [Hash.pathlook, if_neg hslash, hdata]
    by_cases hint : entry k p &&& (BUILTIN ||| FUNCTION) ≠ 0
    · rw [if_pos hint]
      exact ⟨t, _, rfl, h, fun _ _ hext => absurd (hext.2 _ hdata) hint⟩
    rw [if_neg hint]
    by_cases harg : arg = true
    · rw [if_pos harg]
      exact ⟨t, _, rfl, h, fun _ hno => absurd harg (by simp [hno])⟩
    rw [if_neg harg]
    have hnear (hsys : env.syslook name = 0) : env.Near access (some (entry k p)) := by
      have hfar := hok ⟨hslash, hsys⟩ (Bool.eq_false_iff.mpr harg)
      rwa [hdata] at hfar
    by_cases hdot : entry k p &&& DOT_COMMAND = DOT_COMMAND
    · rw [if_pos hdot]
      obtain rfl := (entry_dot k p).mp hdot
      obtain ⟨hsys, hpos, hfp, hlow, hlen⟩ := hgood
      have hp := toNat_hashdata_entry .dot p
      obtain ⟨count, hfind, hfound⟩ := findpath_dot hdot hint (hnear hsys) (by rwa [hp]) (by rwa [hp])
        (by rw [hp]; omega)
      have hinv := h.setData (k := .zapped) (p := 0) (by simp [hdata]) hsys nofun
        (by simp [hdata, linked_entry])
      obtain ⟨t', d, heq, hinv', hans⟩ :=
        hinv.pathsrch (.inr (t.data_setData name _)) hsys hfind hfound
      exact ⟨t', d, heq, hinv', fun _ _ _ => hans⟩
    rw [if_neg hdot]
    by_cases hcmd : entry k p &&& (COMMAND ||| REL_COMMAND) ≠ 0
    · rw [if_pos hcmd]
      exact ⟨t, _, rfl, h, fun _ _ _ => h.answer hdata hcmd⟩
    rw [if_neg hcmd]
    obtain rfl : k = .zapped := by
      rw [entry_internal] at hint
      rw [entry_dot] at hdot
      rw [entry_command] at hcmd
      cases k <;> simp_all [Kind.internal]
    have hsys : env.syslook name = 0 := hgood
    rw [if_neg (not_not.mpr hsys)]
    have hinv := h.setData (k := .zapped) (p := 0) (by simp [hdata]) hsys nofun
      (by simp [hdata, linked_entry])
    have hstart : env.searchStart (some (entry .zapped p)) = env.searchStart none := by
      simp only [Env.searchStart, if_neg hint, if_neg hdot, if_neg hcmd]
    obtain ⟨count, hfind, hfound⟩ := findpath_zero
      (show env.Near access none by simpa only [Env.Near, hstart] using hnear hsys)
    obtain ⟨t', d, heq, hinv', hans⟩ :=
      hinv.pathsrch (.inr (t.data_setData name _)) hsys hfind hfound
    exact ⟨t', d, heq, hinv', fun _ _ _ => hans⟩

/-! ### Taking entries back -/

theorem Env.Good.zap {found : ℤ} (h : env.Good name found p k) : env.Good name found p k.zap := by
  cases k with
  | builtin | function => trivial
  | zapped => exact h
  | command | rel | dot => exact h.1

theorem Kind.zap_ne_rel (k : Kind) : k.zap ≠ .rel := by
  cases k <;> decide

theorem Tab.Inv.length_le (h : t.Inv env) (hl : t.relcmd.Is l)
    (hmem : ∀ n, n ∈ l ↔ ∃ d, t.data n = some d ∧ Linked d) : l.length ≤ t.keys.length := by
  have hsub : l ⊆ t.keys := fun n hn => by
    obtain ⟨d, hd, -⟩ := (hmem n).mp hn
    exact h.keys n d hd
  exact ((Chain.nodup hl).subperm hsub).length_le

theorem Tab.Inv.unhash (h : t.Inv env) (hdata : t.data name = some (entry k p))
    (hgood : env.Good name (t.found name) p k) (hk : k ≠ .dot) :
    ∃ t', Hash.unhash name (entry k p) t = .ok t' ∧ t'.Inv env ∧
      t'.data name = some (entry k.zap p) := by
  obtain ⟨l, hl, hmem⟩ := h.rel
  have hkey := h.keys name _ hdata
  by_cases hrel : k = .rel
  · subst hrel
    have hname : name ∈ l := (hmem name).mpr ⟨_, hdata, (linked_entry ..).mpr rfl⟩
    obtain ⟨slot, l', hslot, his, hmem'⟩ :=
      hl.unlink hname ((h.length_le hl hmem).trans (Nat.le_succ _))
    refine ⟨{ t.setData name (entry Kind.rel.zap p) with
      relcmd := t.relcmd.set slot (t.relcmd.next name) }, ?_, ?_, t.data_setData name _⟩
    · rw [Hash.unhash, if_pos ((entry_rel ..).mpr (.inl rfl)), hslot, zapentry_entry]
      rfl
    · refine h.put ⟨(t.setData_agree name _).data, fun _ _ => rfl, fun _ hn => hn⟩
        (t.data_setData name _) hgood.zap hkey ⟨l', his, fun n => ?_⟩
      rw [hmem', hmem]
      simp [Kind.zap_ne_rel]
  · refine ⟨t.setData name (entry k.zap p), ?_, ?_, t.data_setData name _⟩
    · rw [Hash.unhash, if_neg (by simp [entry_rel, hrel, hk]), zapentry_entry]
      rfl
    · exact h.setData (by simp [hdata]) hgood.zap k.zap_ne_rel (by simp [hdata, linked_entry, hrel])

theorem Tab.Inv.hashCmd (h : t.Inv env)
    (hdot : ∀ d, t.data name = some d → d &&& DOT_COMMAND ≠ DOT_COMMAND)
    (hnear : env.Searched name → env.Near access ((t.data name).map zapentry)) :
    ∃ t' d, Hash.hashCmd env name access t = .ok (t', d) ∧ t'.Inv env ∧
      (47 ∉ name → t.External env name → t'.Answer name d) := by
  by_cases hslash : 47 ∈ name
  · exact ⟨t, COMMAND, if_pos hslash, h, fun hno => absurd hslash hno⟩
  cases hdata : t.data name with
  | none =>
    simp only [Hash.hashCmd, if_neg hslash, hdata]
    rw [hdata] at hnear
    obtain ⟨t', d, heq, hinv, hans⟩ := h.pathlook fun hs (_ : false = false) => by
      rw [hdata]
      exact hnear hs
    exact ⟨t', d, heq, hinv, fun hno => hans hno rfl⟩
  | some d =>
    simp only [Hash.hashCmd, if_neg hslash, hdata]
    by_cases hint : d &&& (BUILTIN ||| FUNCTION) ≠ 0
    · rw [if_pos hint]
      exact ⟨t, d, rfl, h, fun _ hext => absurd (hext.2 _ hdata) hint⟩
    rw [if_neg hint]
    obtain ⟨k, p, rfl, hgood⟩ := h.data name d hdata
    have hk : k ≠ .dot := fun hk => hdot _ hdata ((entry_dot ..).mpr hk)
    obtain ⟨t₁, hunhash, hinv₁, hdata₁⟩ := h.unhash hdata hgood hk
    rw [hdata, Option.map_some, zapentry_entry, ← hdata₁] at hnear
    obtain ⟨t', d, heq, hinv, hans⟩ := hinv₁.pathlook fun hs (_ : false = false) => hnear hs
    refine ⟨t', d, ?_, hinv, fun hno hext => hans hno rfl ⟨hext.1, fun d hd => ?_⟩⟩
    · rw [hunhash]
      exact heq
    · rw [hdata₁] at hd
      cases hd
      rw [entry_internal] at hint
      by_contra hno
      have hzap := (entry_internal ..).mp hno
      cases k <;> simp_all [Kind.zap, Kind.internal]

/-- Every entry of the list is marked once. -/
theorem zapcdFrom_eq {fuel : ℕ} {ptr : Option Name} (hl : Chain t.relcmd.next ptr l)
    (hlen : l.length ≤ fuel) :
    ∃ t', zapcdFrom fuel ptr t = .ok t' ∧ t'.relcmd = t.relcmd ∧ t'.keys = t.keys ∧
      t'.found = t.found ∧
      ∀ n, t'.data n = if n ∈ l then (t.data n).map (· ||| CDMARK) else t.data n := by
  induction l generalizing fuel ptr t with
  | nil =>
    cases hl
    exact ⟨t, by cases fuel <;> rfl, rfl, rfl, rfl, fun n => by simp⟩
  | cons a l ih =>
    have hnodup := hl.nodup
    cases hl with
    | cons hl =>
      cases fuel with
      | zero => cases hlen
      | succ fuel =>
        obtain ⟨t', heq, hcmd, hkeys, hfound, hdata⟩ := ih (t := { t with
          data := Function.update t.data a ((t.data a).map (· ||| CDMARK)) }) hl
          (Nat.le_of_succ_le_succ hlen)
        refine ⟨t', heq, hcmd, hkeys, hfound, fun n => ?_⟩
        rw [hdata n]
        by_cases hn : n = a
        · subst hn
          have hout := (List.nodup_cons.mp hnodup).1
          simp [hout]
        · simp [hn]

theorem Tab.Inv.zapcd (h : t.Inv env) : ∃ t', Hash.zapcd t = .ok t' ∧ t'.Inv env := by
  obtain ⟨l, hl, hmem⟩ := h.rel
  obtain ⟨t', heq, -, hkeys, hfound, hdata⟩ := zapcdFrom_eq hl (h.length_le hl hmem)
  have hkind : ∀ n d, t'.data n = some d →
      ∃ k p, d = entry k p ∧ k ≠ .rel ∧ env.Good n (t.found n) p k ∧ n ∈ t.keys := by
    intro n d hd
    rw [hdata] at hd
    split_ifs at hd with hn
    · obtain ⟨d', hd', hlinked⟩ := (hmem n).mp hn
      obtain ⟨k, p, rfl, hgood⟩ := h.data n d' hd'
      obtain rfl := (linked_entry k p).mp hlinked
      rw [hd', Option.map_some, entry_cdmark] at hd
      exact ⟨.dot, p, (Option.some.inj hd).symm, nofun, hgood, h.keys n _ hd'⟩
    · obtain ⟨k, p, rfl, hgood⟩ := h.data n d hd
      refine ⟨k, p, rfl, ?_, hgood, h.keys n _ hd⟩
      rintro rfl
      exact hn ((hmem n).mpr ⟨_, hd, (linked_entry ..).mpr rfl⟩)
  refine ⟨{ t' with relcmd := t'.relcmd.set none none }, by rw [Hash.zapcd, heq]; rfl, ?_, ?_, ?_⟩
  · intro n d hd
    obtain ⟨k, p, hkp, -, hgood, -⟩ := hkind n d hd
    exact ⟨k, p, hkp, hfound.symm ▸ hgood⟩
  · refine ⟨[], .nil, fun n => ⟨nofun, ?_⟩⟩
    rintro ⟨d, hd, hlinked⟩
    obtain ⟨k, p, rfl, hk, -⟩ := hkind n d hd
    exact absurd ((linked_entry k p).mp hlinked) hk
  · intro n d hd
    obtain ⟨-, -, -, -, -, hn⟩ := hkind n d hd
    exact hkeys.symm ▸ hn

theorem Tab.Inv.zaphash (h : t.Inv env) : (Hash.zaphash t).Inv env where
  data n d hd := by
    obtain ⟨d', hd', rfl⟩ := Option.map_eq_some_iff.mp hd
    obtain ⟨k, p, rfl, hgood⟩ := h.data n d' hd'
    exact ⟨k.zap, p, zapentry_entry k p, hgood.zap⟩
  rel := by
    refine ⟨[], .nil, fun n => ⟨nofun, ?_⟩⟩
    rintro ⟨d, hd, hlinked⟩
    obtain ⟨d', hd', rfl⟩ := Option.map_eq_some_iff.mp hd
    obtain ⟨k, p, rfl, -⟩ := h.data n d' hd'
    rw [zapentry_entry, linked_entry] at hlinked
    exact absurd hlinked k.zap_ne_rel
  keys n d hd := by
    obtain ⟨d', hd', -⟩ := Option.map_eq_some_iff.mp hd
    exact h.keys n d' hd'

theorem Tab.Inv.hashFunc (h : t.Inv env) (hout : ∀ d, t.data name = some d → ¬ Linked d) :
    (Hash.hashFunc name t).Inv env := by
  rw [Hash.hashFunc]
  cases hdata : t.data name with
  | none => exact h.henter (k := .function) (p := 0) hdata trivial nofun
  | some d => exact h.setData (k := .function) (p := 0) (by simp [hdata]) trivial nofun hout

theorem Tab.Inv.funcUnhash (h : t.Inv env) : (Hash.funcUnhash env name t).Inv env := by
  rw [Hash.funcUnhash]
  cases hdata : t.data name with
  | none => exact h
  | some d =>
    obtain ⟨k, p, rfl, -⟩ := h.data name d hdata
    simp only
    split_ifs with hfun hsys
    · obtain rfl := (entry_function k p).mp hfun
      exact h.setData (k := .builtin) (by simp [hdata]) trivial nofun (by simp [hdata, linked_entry])
    · obtain rfl := (entry_function k p).mp hfun
      exact h.setData (k := .zapped) (p := 0) (by simp [hdata]) (not_not.mp hsys) nofun
        (by simp [hdata, linked_entry])
    · exact h

/-! ### Runs -/

/-- A call that looks a name up. -/
def Call.seeks (name : Name) : Call → Prop
  | .pathlook name' arg _ => name' = name ∧ arg = false
  | .hashCmd name' _ => name' = name
  | _ => False

/-- One call, from a table that keeps the invariant. -/
theorem Tab.Inv.call (h : t.Inv env) {c : Call} (hok : env.Ok t c) :
    ∃ t' r, t.call env c = .ok (t', r) ∧ t'.Inv env ∧
      ∀ name, c.seeks name → 47 ∉ name → t.External env name →
        ∃ d, r = some d ∧ t'.Answer name d := by
  cases c with
  | pathlook name arg access =>
    obtain ⟨t', d, heq, hinv, hans⟩ := h.pathlook hok
    refine ⟨t', some d, by rw [Tab.call, heq]; rfl, hinv, ?_⟩
    rintro _ ⟨rfl, harg⟩ hslash hext
    exact ⟨d, rfl, hans hslash harg hext⟩
  | hashCmd name access =>
    obtain ⟨t', d, heq, hinv, hans⟩ := h.hashCmd hok.1 hok.2
    refine ⟨t', some d, by rw [Tab.call, heq]; rfl, hinv, ?_⟩
    rintro _ rfl hslash hext
    exact ⟨d, rfl, hans hslash hext⟩
  | zapcd =>
    obtain ⟨t', heq, hinv⟩ := h.zapcd
    exact ⟨t', none, by rw [Tab.call, heq]; rfl, hinv, fun _ => False.elim⟩
  | zaphash => exact ⟨_, none, rfl, h.zaphash, fun _ => False.elim⟩
  | hashFunc name => exact ⟨_, none, rfl, h.hashFunc hok, fun _ => False.elim⟩
  | funcUnhash name => exact ⟨_, none, rfl, h.funcUnhash, fun _ => False.elim⟩

theorem Tab.Inv.of_reach (h : Reach env.step env.Ok Tab.empty t) : t.Inv env := by
  refine h.invariant Tab.Inv.empty fun t c t' hinv hok hstep => ?_
  obtain ⟨t'', r, heq, hinv', -⟩ := hinv.call hok
  rw [Env.step, heq] at hstep
  exact Option.some.inj hstep ▸ hinv'

/-- In a run that avoids what has to be avoided, the list holds the relative entries, and the
next call comes to an end with the position that was found. -/
theorem calls_safe (h : Reach env.step env.Ok Tab.empty t) :
    (∃ l, t.relcmd.Is l ∧ l.Nodup ∧
      ∀ name, name ∈ l ↔ ∃ d, t.data name = some d ∧ Linked d) ∧
    ∀ c, env.Ok t c → ∃ t' r, t.call env c = .ok (t', r) ∧
      ∀ name, c.seeks name → 47 ∉ name → t.External env name →
        ∃ d, r = some d ∧ t'.Answer name d := by
  have hinv := Tab.Inv.of_reach h
  obtain ⟨l, hl, hmem⟩ := hinv.rel
  refine ⟨⟨l, hl, Chain.nodup hl, hmem⟩, fun c hok => ?_⟩
  obtain ⟨t', r, heq, -, hans⟩ := hinv.call hok
  exact ⟨t', r, heq, hans⟩

/-- PATH is `.`, and there are no builtins. -/
def dotEnv : Env where
  syslook _ := 0
  path := [46]

theorem calls_safe_dot : ∃ t, dotEnv.step Tab.empty (.pathlook [97] false fun _ => 0) = some t ∧
    ∃ t' r, t.call dotEnv .zapcd = .ok (t', r) := by
  obtain ⟨t, hstep, -⟩ := exists_of_run_any dotEnv.step [.pathlook [97] false fun _ => 0]
    Tab.empty (fun _ => true) (by decide)
  have hnear : dotEnv.Near (fun _ => 0) none := by
    rintro _ ⟨⟩ i hi hlen -
    exact ⟨i, hi, hlen.trans (by decide), rfl⟩
  have hone : dotEnv.step Tab.empty (.pathlook [97] false fun _ => 0) = some t := by
    simpa [run] using hstep
  have hreach : Reach dotEnv.step dotEnv.Ok Tab.empty t :=
    .next .start (show dotEnv.Ok Tab.empty (.pathlook ..) from fun _ _ => hnear) hone
  obtain ⟨t', r, heq, -⟩ := (calls_safe hreach).2 .zapcd trivial
  exact ⟨t, hone, t', r, heq⟩

def Tab.fault (env : Env) (t : Tab) (c : Call) : Option Fault :=
  match t.call env c with
  | .ok _ => none
  | .error e => some e

theorem Tab.call_of_fault {c : Call} {e : Fault} (h : t.fault env c = some e) :
    t.call env c = .error e := by
  rw [Tab.fault] at h
  split at h
  · cases h
  · next heq => rw [heq, Option.some.inj h]

/-- After `zapcd` the list is empty, and `hash_cmd` looks in it for the entry. -/
theorem hashCmd_null : ∃ t, Reach dotEnv.step (fun _ _ => True) Tab.empty t ∧
    t.call dotEnv (.hashCmd [97] fun _ => 0) = .error .null := by
  obtain ⟨t, hrun, hfault⟩ := exists_of_run_any dotEnv.step
    [.pathlook [97] false fun _ => 0, .zapcd] Tab.empty
    (fun t => t.fault dotEnv (.hashCmd [97] fun _ => 0) = some .null) (by decide)
  exact ⟨t, reach_of_run hrun (runOk_of_forall (fun _ _ => trivial) _),
    Tab.call_of_fault (of_decide_eq_true hfault)⟩

end Unitas.Sh.Hash
