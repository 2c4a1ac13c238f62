import Mathlib.Data.List.Basic
import Mathlib.Tactic.SplitIfs

/-! `cwd`, which keeps the name of the current directory while the shell changes it. A string in
which a pointer moves is what is before the pointer, the last character first, and what follows.
There is no result once something outside of a string is read or written. -/
namespace Unitas.Sh.Pwd

abbrev Str := List UInt8

def PATH_MAX : ℕ := 4096

inductive Didpwd
  | FALSE
  | TRUE
  | PARTLY
  deriving DecidableEq, Repr

/-- `cwdname` is without its null character. It is not read while `didpwd` is `FALSE`. -/
structure State where
  didpwd : Didpwd
  cwdname : Str
  deriving DecidableEq, Repr

/-! ### The three passes over `dir` -/

/-- The loop of `rmslash`, which moves the rest of the string over a repeated slash. -/
def rmslashLoop : Str → Str → Str
  | p, [] => p
  | p, c :: s => if c = 47 ∧ s.head? = some 47 then rmslashLoop p s else rmslashLoop (c :: p) s

def rmslash (string : Str) : Str :=
  match rmslashLoop [] string with
  | [] => []
  | c :: p => if p ≠ [] ∧ c = 47 then p.reverse else (c :: p).reverse

/-- The loop that removes `./`. The flag tells that `pdir` is where the loop begins, and not
in the one that goes on to a slash. -/
def rmdotLoop : Bool → Str → Str → Str
  | _, p, [] => p
  | false, p, c :: s => if c = 47 then rmdotLoop true (c :: p) s else rmdotLoop false (c :: p) s
  | true, p, 46 :: 47 :: s => rmdotLoop true p s
  | true, p, c :: s => rmdotLoop false (c :: p) s

/-- `/.` at the end of the string whose characters are given from the last on. -/
def rmtrail : Str → Option Str
  | [] => none
  | c :: p =>
    match p with
    | [] => some [c]
    | d :: r => if c = 46 ∧ d = 47 then some (if r ≠ [] then r else [d]) else some (c :: d :: r)

def canon (dir : Str) : Option Str :=
  let dir := rmslash dir
  let p := if dir.head? = some 47 then rmdotLoop true [47] (dir.drop 1) else rmdotLoop true [] dir
  (rmtrail p).map fun p => rmslash p.reverse

/-! ### The new name -/

inductive Stop
  /-- The name does not fit. This is what is before `pcwd`. -/
  | unfit (p : Str)
  | outside
  deriving DecidableEq, Repr

/-- `*pcwd++ = c` after the test of `pcwd`. -/
def put (p : Str) (c : UInt8) : Except Stop Str :=
  if p.length ≥ PATH_MAX + 1 then .error (.unfit p) else .ok (c :: p)

/-- `while(*(--pcwd) != SLASH); pcwd++` -/
def toSlash : Str → Except Stop Str
  | [] => .error .outside
  | c :: p => if c = 47 then .ok (c :: p) else toSlash p

def backup (p : Str) : Except Stop Str := toSlash (if p.length > 2 then p.drop 1 else p)

/-- The loop over `dir`. The flag is that of `rmdotLoop`. -/
def cwdLoop : Bool → Str → Str → Except Stop Str
  | _, p, [] => .ok p
  | true, p, [46, 46] => backup p
  | true, p, 46 :: 46 :: 47 :: s => do
    let p ← backup p
    cwdLoop true p s
  | true, p, c :: s => do
    let p ← put p c
    cwdLoop false p s
  | false, p, c :: s => do
    let p ← put p c
    cwdLoop (c = 47) p s

/-- What follows the loop. -/
def finish (p : Str) : Except Stop Str :=
  if p.length ≥ PATH_MAX + 1 then .error (.unfit p)
  else match p with
    | [] => .error .outside
    | c :: q => if q ≠ [] ∧ c = 47 then .ok q.reverse else .ok (c :: q).reverse

/-- Where the new name begins and what of `dir` is left. -/
def pcwdStart (cwdname dir : Str) : Except Stop (Str × Str) :=
  if dir.head? = some 47 then .ok ([47], dir.drop 1)
  else if cwdname.length ≠ 1 then
    if cwdname.length < PATH_MAX + 1 then .ok (47 :: cwdname.reverse, dir) else .error .outside
  else .ok (cwdname.reverse, dir)

def cwd (dir : Str) (s : State) : Option State := do
  let dir ← canon dir
  if dir = [46] then some s
  else if dir.head? ≠ some 47 ∧ s.didpwd = .FALSE then some s
  else
    match (do
      let (p, dir) ← pcwdStart s.cwdname dir
      let p ← cwdLoop true p dir
      finish p) with
    | .ok cwdname => some ⟨.PARTLY, cwdname⟩
    | .error (.unfit p) => some ⟨.FALSE, p.reverse⟩
    | .error .outside => none

example : cwd [46, 46, 47, 99] ⟨.TRUE, [47, 97, 47, 98]⟩ = some ⟨.PARTLY, [47, 97, 47, 99]⟩ := by
  decide

/-! ### Names and their components -/

/-- The text of some components, each of them with a slash before it. -/
def slashed (cs : List Str) : Str := cs.flatMap (47 :: ·)

/-- The absolute name with some components. -/
def render (cs : List Str) : Str := if cs = [] then [47] else slashed cs

/-- A component of a path. -/
def Component (c : Str) : Prop := c ≠ [] ∧ 47 ∉ c

/-- A name with these components is normalised. -/
def Normal (cs : List Str) : Prop := ∀ c ∈ cs, Component c ∧ c ≠ [46] ∧ c ≠ [46, 46]

/-- The components of a path that matter. -/
def comps (dir : Str) : List Str := (dir.splitOn 47).filter fun c => c ≠ [] ∧ c ≠ [46]

/-- One component resolved; there is nothing above the root. -/
def enter (cs : List Str) (c : Str) : List Str := if c = [46, 46] then cs.dropLast else cs ++ [c]

def resolve (cs : List Str) (dir : List Str) : List Str := dir.foldl enter cs

@[simp] theorem slashed_nil : slashed [] = [] := rfl

@[simp] theorem slashed_cons (c : Str) (cs : List Str) :
    slashed (c :: cs) = 47 :: (c ++ slashed cs) := rfl

@[simp] theorem slashed_append (cs ds : List Str) : slashed (cs ++ ds) = slashed cs ++ slashed ds :=
  List.flatMap_append

theorem exists_slashed (s : Str) : ∃ w ws, s = w ++ slashed ws ∧ s.splitOn 47 = w :: ws ∧
    47 ∉ w ∧ ∀ v ∈ ws, 47 ∉ v := by
  induction hn : s.length using Nat.strongRecOn generalizing s with
  | _ n ih =>
    by_cases h : 47 ∈ s
    · obtain ⟨w, t, rfl, hw⟩ := List.eq_append_cons_of_mem h
      have hlt : t.length < n := by
        rw [← hn, List.length_append, List.length_cons]
        omega
      obtain ⟨v, vs, ht, hsplit, hv, hvs⟩ := ih t.length hlt t rfl
      refine ⟨w, v :: vs, ?_, ?_, hw, List.forall_mem_cons.mpr ⟨hv, hvs⟩⟩
      · rw [slashed_cons, ← ht]
      · rw [List.splitOn_append_cons_self, List.splitOn_eq_singleton hw, hsplit]
        rfl
    · exact ⟨s, [], (List.append_nil s).symm, List.splitOn_eq_singleton h, h, by simp⟩

/-! ### Repeated slashes -/

theorem rmslashLoop_append {w : Str} (hw : 47 ∉ w) (p s : Str) :
    rmslashLoop p (w ++ s) = rmslashLoop (w.reverse ++ p) s := by
  induction w generalizing p with
  | nil => rfl
  | cons c w ih =>
    obtain ⟨hc, hw⟩ := not_or.mp (List.mem_cons.not.mp hw)
    rw [List.cons_append, rmslashLoop, if_neg fun h => hc h.1.symm, ih hw]
    simp

/-- Empty components go, but a slash at the end stays. -/
theorem rmslashLoop_slashed (p : Str) (ws : List Str) (hws : ∀ v ∈ ws, 47 ∉ v) :
    rmslashLoop p (slashed ws) =
      (if ws.getLast? = some [] then [47] else []) ++
        (slashed (ws.filter (· ≠ []))).reverse ++ p := by
  induction ws generalizing p with
  | nil => rfl
  | cons w ws ih =>
    obtain ⟨hw, htail⟩ := List.forall_mem_cons.mp hws
    rw [slashed_cons, rmslashLoop]
    by_cases hnil : w = []
    · rw [hnil]
      cases ws with
      | nil => simp [rmslashLoop]
      | cons v vs =>
        have hdrop : ([] :: v :: vs : List Str).filter (· ≠ []) = (v :: vs).filter (· ≠ []) := rfl
        rw [List.nil_append, if_pos ⟨rfl, rfl⟩, ih _ htail, List.getLast?_cons_cons, hdrop]
    · have hhead : (w ++ slashed ws).head? ≠ some 47 := by
        rw [List.head?_append_of_ne_nil _ hnil]
        exact fun h => hw (List.mem_of_mem_head? h)
      rw [if_neg fun h => hhead h.2, rmslashLoop_append hw, ih _ htail,
        List.filter_cons_of_pos (by simpa using hnil)]
      have hlast : (w :: ws).getLast? = some [] ↔ ws.getLast? = some [] := by
        cases ws with
        | nil => simp [hnil]
        | cons v vs => rw [List.getLast?_cons_cons]
      simp [hlast]

theorem rmslash_slashed {w : Str} {ws : List Str} (hw : 47 ∉ w) (hws : ∀ v ∈ ws, 47 ∉ v)
    (hne : w ++ slashed ws ≠ []) :
    rmslash (w ++ slashed ws) =
      if w = [] ∧ ws.filter (· ≠ []) = [] then [47] else w ++ slashed (ws.filter (· ≠ [])) := by
  unfold rmslash
  rw [rmslashLoop_append hw, rmslashLoop_slashed _ _ hws, List.append_nil]
  set ds := ws.filter (· ≠ []) with hds
  have hback : (slashed ds).reverse ++ w.reverse = (w ++ slashed ds).reverse := by simp
  by_cases hlast : ws.getLast? = some []
  · rw [if_pos hlast, List.append_assoc, hback, List.singleton_append]
    dsimp only
    by_cases hempty : w ++ slashed ds = []
    · have hand := List.append_eq_nil_iff.mp hempty
      have hnil : ds = [] := by
        cases hd : ds with
        | nil => rfl
        | cons d ds => exact absurd hand.2 (by simp [hd])
      rw [hempty, if_neg (by simp), if_pos ⟨hand.1, hnil⟩]
      rfl
    · have hnot : ¬ (w = [] ∧ ds = []) := by
        rintro ⟨rfl, h⟩
        exact hempty (by rw [h]; rfl)
      have hrev : (w ++ slashed ds).reverse ≠ [] := fun h => hempty (List.reverse_eq_nil_iff.mp h)
      rw [if_pos ⟨hrev, rfl⟩, if_neg hnot, List.reverse_reverse]
  · rw [if_neg hlast, List.nil_append, hback]
    have hlast' : ws ≠ [] → ds ≠ [] := by
      intro hws' hnil
      obtain ⟨v, hv⟩ := Option.ne_none_iff_exists'.mp (List.getLast?_eq_none_iff.not.mpr hws')
      have hmem := List.mem_of_getLast? hv
      have hvne : v ≠ [] := fun h => hlast (h ▸ hv)
      have : v ∈ ds := List.mem_filter.mpr ⟨hmem, by simpa using hvne⟩
      rw [hnil] at this
      exact absurd this (by simp)
    have hnot : ¬ (w = [] ∧ ds = []) := by
      rintro ⟨rfl, h⟩
      refine hne ?_
      by_cases hws' : ws = []
      · rw [hws']
        rfl
      · exact absurd h (hlast' hws')
    have hend : (w ++ slashed ds).getLast? ≠ some 47 := by
      intro h
      rcases List.eq_nil_or_concat' ds with hnil | ⟨cs, d, hcs⟩
      · rw [hnil, slashed_nil, List.append_nil] at h
        exact hw (List.mem_of_getLast? h)
      · have hd : d ∈ ds := by simp [hcs]
        obtain ⟨hmem, hdne⟩ := List.mem_filter.mp hd
        rw [hcs, slashed_append, slashed_cons, slashed_nil, List.append_nil, ← List.append_assoc,
          List.getLast?_append_cons, List.getLast?_cons_of_ne_nil (by simpa using hdne)] at h
        exact hws d hmem (List.mem_of_getLast? h)
    rw [if_neg hnot]
    cases hrev : (w ++ slashed ds).reverse with
    | nil => exact (List.reverse_eq_nil_iff.mp hrev).symm
    | cons c p =>
      dsimp only
      have hc : (w ++ slashed ds).getLast? = some c := by
        rw [← List.head?_reverse, hrev]
        rfl
      rw [if_neg fun h : p ≠ [] ∧ c = 47 => hend (h.2 ▸ hc), ← hrev, List.reverse_reverse]

/-! ### Dots -/

/-- The text of some components with a slash between them. -/
def bare (cs : List Str) : Str := (slashed cs).drop 1

@[simp] theorem bare_cons (c : Str) (cs : List Str) : bare (c :: cs) = c ++ slashed cs := rfl

theorem cons_bare {cs : List Str} (h : cs ≠ []) : 47 :: bare cs = slashed cs := by
  obtain ⟨c, cs, rfl⟩ := List.exists_cons_of_ne_nil h
  rfl

theorem rmdotLoop_cons {c : UInt8} {s : Str} (h : ¬ (c = 46 ∧ s.head? = some 47)) (p : Str) :
    rmdotLoop true p (c :: s) = rmdotLoop false (c :: p) s := by
  rw [rmdotLoop]
  rintro t rfl ht
  exact h ⟨rfl, by rw [ht]; rfl⟩

theorem rmdotLoop_inside {w : Str} (hw : 47 ∉ w) (p s : Str) :
    rmdotLoop false p (w ++ 47 :: s) = rmdotLoop true (47 :: (w.reverse ++ p)) s ∧
      rmdotLoop false p w = w.reverse ++ p := by
  induction w generalizing p with
  | nil => exact ⟨rfl, by rw [rmdotLoop]; rfl⟩
  | cons c w ih =>
    obtain ⟨hc, hw⟩ := not_or.mp (List.mem_cons.not.mp hw)
    rw [List.cons_append, rmdotLoop, rmdotLoop, if_neg fun h => hc h.symm, if_neg fun h => hc h.symm]
    obtain ⟨h1, h2⟩ := ih hw (c :: p)
    rw [h1, h2]
    simp

/-- A component goes if it is a dot with a slash after it. -/
theorem rmdotLoop_component {c : Str} (hc : Component c) (p s : Str) :
    rmdotLoop true p (c ++ 47 :: s) =
        (if c = [46] then rmdotLoop true p s else rmdotLoop true (47 :: (c.reverse ++ p)) s) ∧
      rmdotLoop true p c = c.reverse ++ p := by
  obtain ⟨hne, hslash⟩ := hc
  obtain ⟨x, w, rfl⟩ := List.exists_cons_of_ne_nil hne
  obtain ⟨-, hw⟩ := not_or.mp (List.mem_cons.not.mp hslash)
  have hhead : w.head? ≠ some 47 := fun h => hw (List.mem_of_mem_head? h)
  obtain ⟨h1, h2⟩ := rmdotLoop_inside hw (x :: p) s
  constructor
  · by_cases hdot : x :: w = [46]
    · rw [if_pos hdot, hdot]
      rfl
    · rw [if_neg hdot, List.cons_append, rmdotLoop_cons, h1]
      · simp
      · rintro ⟨rfl, h⟩
        cases w with
        | nil => exact hdot rfl
        | cons y w => exact hhead h
  · rw [rmdotLoop_cons fun h => hhead h.2, h2]
    simp

theorem rmtrail_eq {c : UInt8} {p : Str} (h : ¬ (c = 46 ∧ p.head? = some 47)) :
    rmtrail (c :: p) = some (c :: p) := by
  unfold rmtrail
  cases p with
  | nil => rfl
  | cons d r => exact if_neg fun h' => h ⟨h'.1, congrArg some h'.2⟩

/-- What is left of the characters before a dot at the end. -/
def strip (base : Str) : Str :=
  if base = [] then [46] else if base = [47] then [47] else base.dropLast

/-- `base` is what is before the components: nothing, or something that ends in a slash. -/
theorem rmtrail_rmdotLoop {cs : List Str} (hcs : ∀ c ∈ cs, Component c) (hne : cs ≠ []) (base : Str)
    (hbase : base = [] ∨ base.getLast? = some 47) :
    rmtrail (rmdotLoop true base.reverse (bare cs)) =
      some (if cs.filter (· ≠ [46]) = [] then strip base
        else base ++ bare (cs.filter (· ≠ [46]))).reverse := by
  induction cs generalizing base with
  | nil => exact absurd rfl hne
  | cons c cs ih =>
    obtain ⟨hc, htail⟩ := List.forall_mem_cons.mp hcs
    cases cs with
    | nil =>
      rw [bare_cons, slashed_nil, List.append_nil, (rmdotLoop_component hc _ []).2]
      by_cases hdot : c = [46]
      · subst hdot
        show rmtrail (46 :: base.reverse) = some (strip base).reverse
        rcases hbase with rfl | hlast
        · rfl
        · obtain ⟨r, rfl⟩ := List.getLast?_eq_some_iff.mp hlast
          rw [List.reverse_append]
          unfold strip
          cases r with
          | nil => rfl
          | cons x r =>
            rw [if_neg (by simp), if_neg (by simp), List.dropLast_concat]
            simp [rmtrail]
      · have hfilter : [c].filter (· ≠ [46]) = [c] := by simp [hdot]
        rw [hfilter, if_neg (by simp), bare_cons, slashed_nil, List.append_nil, List.reverse_append]
        obtain ⟨hcne, hslash⟩ := hc
        rcases List.eq_nil_or_concat' c with rfl | ⟨w, x, rfl⟩
        · exact absurd rfl hcne
        · rw [List.reverse_append, List.append_assoc]
          refine rmtrail_eq ?_
          rintro ⟨rfl, h⟩
          rcases List.eq_nil_or_concat' w with rfl | ⟨v, y, rfl⟩
          · exact hdot rfl
          · obtain rfl : y = 47 := by simpa using h
            exact hslash (by simp)
    | cons d ds =>
      have hbare : bare (c :: d :: ds) = c ++ 47 :: bare (d :: ds) := rfl
      rw [hbare, (rmdotLoop_component hc _ _).1]
      by_cases hdot : c = [46]
      · have hfilter : (c :: d :: ds).filter (· ≠ [46]) = (d :: ds).filter (· ≠ [46]) :=
          List.filter_cons_of_neg (by simp [hdot])
        rw [if_pos hdot, ih htail (List.cons_ne_nil _ _) base hbase, hfilter]
      · have hfilter : (c :: d :: ds).filter (· ≠ [46]) = c :: (d :: ds).filter (· ≠ [46]) :=
          List.filter_cons_of_pos (by simpa using hdot)
        have hrev : 47 :: (c.reverse ++ base.reverse) = (base ++ c ++ [47]).reverse := by simp
        rw [if_neg hdot, hrev, ih htail (List.cons_ne_nil _ _) _ (.inr (by simp)), hfilter,
          if_neg (List.cons_ne_nil _ _)]
        by_cases hnil : (d :: ds).filter (· ≠ [46]) = []
        · have hstrip : strip (base ++ c ++ [47]) = base ++ c := by
            unfold strip
            have hne : base ++ c ++ [47] ≠ [47] := fun h =>
              hc.1 (List.append_eq_nil_iff.mp (List.append_cancel_right (h.trans (List.nil_append [47]).symm))).2
            rw [if_neg (by simp), if_neg hne, List.dropLast_concat]
          rw [if_pos hnil, hnil, hstrip]
          simp
        · rw [if_neg hnil, bare_cons, ← cons_bare hnil]
          simp

theorem comps_eq {dir w : Str} {ws : List Str} (h : dir.splitOn 47 = w :: ws) :
    comps dir = ((w :: ws).filter (· ≠ [])).filter (· ≠ [46]) := by
  rw [comps, h, List.filter_filter]
  refine List.filter_congr fun c _ => ?_
  simp [Bool.and_comm]

/-- The string is squeezed to its components, or to a dot if a relative one has none. -/
theorem canon_eq {dir : Str} (hdir : dir ≠ []) :
    canon dir = some (if dir.head? = some 47 then render (comps dir)
      else if comps dir = [] then [46] else bare (comps dir)) := by
  obtain ⟨w, ws, hsplit, hcut, hw, hws⟩ := exists_slashed dir
  set ds := ws.filter (· ≠ []) with hds
  have hcomp : ∀ c ∈ ds, Component c := by
    intro c hc
    obtain ⟨hmem, hne⟩ := List.mem_filter.mp hc
    exact ⟨by simpa using hne, hws c hmem⟩
  have hkeep (fs : List Str) (hfs : ∀ c ∈ fs, Component c) : fs.filter (· ≠ []) = fs :=
    List.filter_eq_self.mpr fun c hc => by simpa using (hfs c hc).1
  have hfilter (fs : List Str) (hfs : ∀ c ∈ fs, Component c) :
      ∀ c ∈ fs.filter (· ≠ [46]), Component c := fun c hc => hfs c (List.mem_of_mem_filter hc)
  unfold canon
  have hslash := rmslash_slashed hw hws (hsplit ▸ hdir)
  rw [← hsplit, ← hds] at hslash
  rw [comps_eq hcut]
  by_cases hnil : w = []
  · subst hnil
    have hhead : dir.head? = some 47 := by
      rw [hsplit]
      cases ws with
      | nil => exact absurd hsplit hdir
      | cons v vs => rfl
    have hcs : (([] : Str) :: ws).filter (· ≠ []) = ds := rfl
    rw [if_pos hhead, hcs]
    by_cases hempty : ds = []
    · rw [if_pos ⟨rfl, hempty⟩] at hslash
      rw [hslash, hempty]
      rfl
    · rw [if_neg fun h => hempty h.2, List.nil_append, ← cons_bare hempty] at hslash
      rw [hslash]
      dsimp only
      rw [List.head?_cons, if_pos rfl, List.drop_succ_cons, List.drop_zero]
      have htrail := rmtrail_rmdotLoop hcomp hempty [47] (.inr rfl)
      rw [List.reverse_singleton] at htrail
      rw [htrail, Option.map_some, List.reverse_reverse]
      unfold render
      by_cases hfs : ds.filter (· ≠ [46]) = []
      · rw [if_pos hfs, if_pos hfs]
        rfl
      · rw [if_neg hfs, if_neg hfs, List.singleton_append, cons_bare hfs]
        have hagain := rmslash_slashed (w := []) (by simp)
          (fun c hc => (hfilter ds hcomp c hc).2) (by rw [← cons_bare hfs]; simp)
        rw [hkeep _ (hfilter ds hcomp), if_neg fun h => hfs h.2] at hagain
        exact congrArg some hagain
  · have hhead : ∀ s : Str, (w ++ s).head? ≠ some 47 := by
      intro s h
      rw [List.head?_append_of_ne_nil _ hnil] at h
      exact hw (List.mem_of_mem_head? h)
    have hcs : (w :: ws).filter (· ≠ []) = w :: ds := List.filter_cons_of_pos (by simpa using hnil)
    have hall : ∀ c ∈ w :: ds, Component c := List.forall_mem_cons.mpr ⟨⟨hnil, hw⟩, hcomp⟩
    have hhead' : dir.head? ≠ some 47 := by
      rw [hsplit]
      exact hhead _
    rw [if_neg fun h => hnil h.1] at hslash
    rw [if_neg hhead', hcs, hslash]
    dsimp only
    rw [if_neg (hhead _), ← bare_cons]
    have htrail := rmtrail_rmdotLoop hall (List.cons_ne_nil _ _) [] (.inl rfl)
    rw [List.reverse_nil] at htrail
    rw [htrail, Option.map_some, List.reverse_reverse, List.nil_append]
    by_cases hfs : (w :: ds).filter (· ≠ [46]) = []
    · rw [if_pos hfs, if_pos hfs]
      rfl
    · rw [if_neg hfs, if_neg hfs]
      have hcomps := hfilter _ hall
      obtain ⟨f, fs, hf⟩ := List.exists_cons_of_ne_nil hfs
      rw [hf] at hcomps ⊢
      obtain ⟨hf1, hf2⟩ := List.forall_mem_cons.mp hcomps
      have hagain := rmslash_slashed hf1.2 (fun c hc => (hf2 c hc).2) (by simp [hf1.1])
      rw [hkeep _ hf2, if_neg fun h => hf1.1 h.1] at hagain
      exact congrArg some hagain

/-! ### The loop -/

/-- What is before `pcwd` when a component has been taken and a slash after it. -/
def opened (cs : List Str) : Str := 47 :: (slashed cs).reverse

/-- The name does not fit. -/
def Unfit {α : Type} (r : Except Stop α) : Prop := ∃ p, r = .error (.unfit p)

theorem toSlash_append {w : Str} (hw : 47 ∉ w) (p : Str) : toSlash (w ++ 47 :: p) = .ok (47 :: p) := by
  induction w with
  | nil => rfl
  | cons c w ih =>
    obtain ⟨hc, hw⟩ := not_or.mp (List.mem_cons.not.mp hw)
    rw [List.cons_append, toSlash, if_neg fun h => hc h.symm, ih hw]

theorem opened_concat (cs : List Str) (c : Str) :
    opened (cs ++ [c]) = 47 :: (c.reverse ++ opened cs) := by
  simp [opened]

theorem render_concat (cs : List Str) (c : Str) :
    render (cs ++ [c]) = (c.reverse ++ opened cs).reverse := by
  simp [render, opened]

theorem length_render_concat (cs : List Str) (c : Str) :
    (render (cs ++ [c])).length = (opened cs).length + c.length := by
  rw [render_concat, List.length_reverse, List.length_append, List.length_reverse, Nat.add_comm]

theorem backup_opened {cs : List Str} (hcs : ∀ c ∈ cs, Component c) :
    backup (opened cs) = .ok (opened cs.dropLast) := by
  rcases List.eq_nil_or_concat' cs with rfl | ⟨cs, c, rfl⟩
  · rfl
  · obtain ⟨hne, hslash⟩ := hcs c (by simp)
    have hlen : (opened (cs ++ [c])).length > 2 := by
      have hpos := List.length_pos_iff.mpr hne
      rw [opened_concat, List.length_cons, List.length_append, List.length_reverse]
      unfold opened
      rw [List.length_cons]
      omega
    unfold backup
    rw [if_pos hlen, opened_concat, List.dropLast_concat, List.drop_succ_cons, List.drop_zero]
    exact toSlash_append (by simpa using hslash) _

theorem cwdLoop_cons {c : UInt8} {s : Str}
    (h : ¬ (c = 46 ∧ (s = [46] ∨ ∃ t, s = 46 :: 47 :: t))) (p : Str) :
    cwdLoop true p (c :: s) = put p c >>= fun p => cwdLoop false p s := by
  rw [cwdLoop]
  · rintro rfl hs
    exact h ⟨rfl, .inl hs⟩
  · rintro t rfl hs
    exact h ⟨rfl, .inr ⟨t, hs⟩⟩

theorem put_eq {p : Str} (h : p.length ≤ PATH_MAX) (c : UInt8) : put p c = .ok (c :: p) :=
  if_neg (by omega)

theorem put_unfit {p : Str} (h : ¬ p.length ≤ PATH_MAX) (c : UInt8) :
    put p c = .error (.unfit p) := if_pos (by omega)

theorem cwdLoop_inside {w : Str} (hw : 47 ∉ w) {p : Str} (hp : p.length ≤ PATH_MAX + 1) (s : Str) :
    (p.length + w.length ≤ PATH_MAX →
      cwdLoop false p (w ++ 47 :: s) = cwdLoop true (47 :: (w.reverse ++ p)) s) ∧
    (¬ p.length + w.length ≤ PATH_MAX → Unfit (cwdLoop false p (w ++ 47 :: s))) ∧
    (p.length + w.length ≤ PATH_MAX + 1 → cwdLoop false p w = .ok (w.reverse ++ p)) ∧
    (¬ p.length + w.length ≤ PATH_MAX + 1 → Unfit (cwdLoop false p w)) := by
  induction w generalizing p with
  | nil =>
    rw [List.nil_append, cwdLoop, cwdLoop, List.length_nil, Nat.add_zero]
    refine ⟨fun h => ?_, fun h => ?_, fun _ => rfl, fun h => absurd hp h⟩
    · rw [put_eq h]
      rfl
    · rw [put_unfit h]
      exact ⟨_, rfl⟩
  | cons c w ih =>
    obtain ⟨hc, hw⟩ := not_or.mp (List.mem_cons.not.mp hw)
    have hflag : decide (c = 47) = false := decide_eq_false fun h => hc h.symm
    rw [List.cons_append, cwdLoop, cwdLoop, hflag, List.length_cons, List.reverse_cons,
      List.append_assoc, List.singleton_append]
    by_cases hlt : p.length ≤ PATH_MAX
    · obtain ⟨h1, h2, h3, h4⟩ := @ih hw (c :: p) (Nat.succ_le_succ hlt)
      rw [List.length_cons] at h1 h2 h3 h4
      rw [put_eq hlt]
      exact ⟨fun h => h1 (by omega), fun h => h2 (by omega), fun h => h3 (by omega),
        fun h => h4 (by omega)⟩
    · rw [put_unfit hlt]
      exact ⟨fun h => absurd h (by omega), fun _ => ⟨_, rfl⟩, fun h => absurd h (by omega),
        fun _ => ⟨_, rfl⟩⟩

/-- A component that is not `..` is taken if it fits with what comes after it. -/
theorem cwdLoop_component {c : Str} (hc : Component c) (hdots : c ≠ [46, 46]) {p : Str}
    (hp : p.length ≤ PATH_MAX + 1) (s : Str) :
    (p.length + c.length ≤ PATH_MAX →
      cwdLoop true p (c ++ 47 :: s) = cwdLoop true (47 :: (c.reverse ++ p)) s) ∧
    (¬ p.length + c.length ≤ PATH_MAX → Unfit (cwdLoop true p (c ++ 47 :: s))) ∧
    (p.length + c.length ≤ PATH_MAX + 1 → cwdLoop true p c = .ok (c.reverse ++ p)) ∧
    (¬ p.length + c.length ≤ PATH_MAX + 1 → Unfit (cwdLoop true p c)) := by
  obtain ⟨hne, hslash⟩ := hc
  obtain ⟨x, w, rfl⟩ := List.exists_cons_of_ne_nil hne
  obtain ⟨hx, hw⟩ := not_or.mp (List.mem_cons.not.mp hslash)
  have hend : cwdLoop true p (x :: w) = cwdLoop false p (x :: w) := by
    have hflag : decide (x = 47) = false := decide_eq_false fun h => hx h.symm
    rw [cwdLoop_cons, cwdLoop, hflag]
    rintro ⟨rfl, rfl | ⟨t, rfl⟩⟩
    · exact hdots rfl
    · exact hw (by simp)
  have hmid : cwdLoop true p (x :: w ++ 47 :: s) = cwdLoop false p (x :: w ++ 47 :: s) := by
    have hflag : decide (x = 47) = false := decide_eq_false fun h => hx h.symm
    rw [List.cons_append, cwdLoop_cons, cwdLoop, hflag]
    rintro ⟨rfl, h | ⟨t, h⟩⟩
    · have hlen := congrArg List.length h
      cases w with
      | nil => exact absurd (List.cons.inj h).1 (by decide)
      | cons y w => simp at hlen
    · cases w with
      | nil => exact absurd (List.cons.inj h).1 (by decide)
      | cons y w =>
        obtain ⟨rfl, htail⟩ := List.cons.inj h
        cases w with
        | nil => exact hdots rfl
        | cons z w =>
          obtain ⟨rfl, -⟩ := List.cons.inj htail
          exact hw (by simp)
  rw [hend, hmid]
  exact cwdLoop_inside hslash hp s

theorem cwdLoop_dots (p s : Str) :
    cwdLoop true p ([46, 46] ++ 47 :: s) = (backup p >>= fun p => cwdLoop true p s) ∧
      cwdLoop true p [46, 46] = backup p := ⟨rfl, rfl⟩

/-! ### The names on the way -/

/-- All names on the way fit. -/
def Fit (cs names : List Str) : Prop :=
  ∀ ds, ds <+: names → (render (resolve cs ds)).length ≤ PATH_MAX

theorem fit_nil (cs : List Str) : Fit cs [] ↔ (render cs).length ≤ PATH_MAX := by
  constructor
  · exact fun h => h [] (List.prefix_refl _)
  · intro h ds hds
    rw [List.prefix_nil.mp hds]
    exact h

theorem fit_cons (cs : List Str) (c : Str) (names : List Str) :
    Fit cs (c :: names) ↔ (render cs).length ≤ PATH_MAX ∧ Fit (enter cs c) names := by
  constructor
  · refine fun h => ⟨h [] List.nil_prefix, fun ds hds => ?_⟩
    exact h (c :: ds) (List.cons_prefix_cons.mpr ⟨rfl, hds⟩)
  · rintro ⟨h, hfit⟩ ds hds
    cases ds with
    | nil => exact h
    | cons d ds =>
      obtain ⟨rfl, htail⟩ := List.cons_prefix_cons.mp hds
      exact hfit ds htail

/-- What comes after the start. -/
def newName (p dir : Str) : Except Stop Str := cwdLoop true p dir >>= finish

theorem finish_opened {cs : List Str} (h : (opened cs).length ≤ PATH_MAX) :
    finish (opened cs) = .ok (render cs) := by
  unfold finish
  rw [if_neg (by omega)]
  unfold opened render
  by_cases hnil : cs = []
  · rw [hnil]
    rfl
  · have hne : (slashed cs).reverse ≠ [] := by
      rw [← cons_bare hnil]
      simp
    dsimp only
    rw [if_pos ⟨hne, rfl⟩, if_neg hnil, List.reverse_reverse]

theorem finish_component {c : Str} (hc : Component c) (cs : List Str) :
    ((render (cs ++ [c])).length ≤ PATH_MAX →
      finish (c.reverse ++ opened cs) = .ok (render (cs ++ [c]))) ∧
    (¬ (render (cs ++ [c])).length ≤ PATH_MAX → Unfit (finish (c.reverse ++ opened cs))) := by
  obtain ⟨hne, hslash⟩ := hc
  rw [render_concat, List.length_reverse]
  constructor
  · intro h
    unfold finish
    rw [if_neg (by omega)]
    rcases List.eq_nil_or_concat' c with rfl | ⟨w, x, rfl⟩
    · exact absurd rfl hne
    · have hx : x ≠ 47 := by
        rintro rfl
        exact hslash (by simp)
      rw [List.reverse_append, List.reverse_singleton, List.singleton_append, List.cons_append]
      dsimp only
      rw [if_neg fun h => hx h.2]
  · intro h
    unfold finish
    rw [if_pos (by omega)]
    exact ⟨_, rfl⟩

/-- A parent's name is shorter. -/
theorem length_opened_dropLast {cs : List Str} (hcs : ∀ c ∈ cs, Component c)
    (h : (render cs).length ≤ PATH_MAX) :
    (opened cs.dropLast).length ≤ PATH_MAX ∧ (render cs.dropLast).length ≤ PATH_MAX := by
  have hrender (ds : List Str) : (render ds).length ≤ (opened ds).length := by
    unfold render opened
    split_ifs <;> simp
  have hopened : (opened cs.dropLast).length ≤ PATH_MAX := by
    rcases List.eq_nil_or_concat' cs with rfl | ⟨cs, c, rfl⟩
    · decide
    · rw [length_render_concat] at h
      rw [List.dropLast_concat]
      omega
  exact ⟨hopened, Nat.le_trans (hrender _) hopened⟩

theorem length_opened {cs : List Str} (h : (render cs).length ≤ PATH_MAX) :
    (opened cs).length ≤ PATH_MAX + 1 := by
  unfold render at h
  unfold opened
  rw [List.length_cons, List.length_reverse]
  split_ifs at h with hnil
  · rw [hnil]
    decide
  · omega

/-- The name after the components, if it fits on the way. -/
theorem newName_eq {names : List Str} (hnames : ∀ c ∈ names, Component c) (hne : names ≠ [])
    {cs : List Str} (hcs : ∀ c ∈ cs, Component c) (hlen : (render cs).length ≤ PATH_MAX) :
    (Fit cs names → newName (opened cs) (bare names) = .ok (render (resolve cs names))) ∧
      (¬ Fit cs names → Unfit (newName (opened cs) (bare names))) := by
  induction names generalizing cs with
  | nil => exact absurd rfl hne
  | cons c names ih =>
    obtain ⟨hc, htail⟩ := List.forall_mem_cons.mp hnames
    obtain ⟨hdrop, hdrop'⟩ := length_opened_dropLast hcs hlen
    rw [fit_cons]
    cases names with
    | nil =>
      rw [fit_nil, bare_cons, slashed_nil, List.append_nil]
      show (_ → _ = Except.ok (render (enter cs c))) ∧ _
      unfold newName enter
      by_cases hdots : c = [46, 46]
      · rw [if_pos hdots, hdots, (cwdLoop_dots _ []).2, backup_opened hcs]
        exact ⟨fun _ => finish_opened hdrop, fun h => absurd ⟨hlen, hdrop'⟩ h⟩
      · rw [if_neg hdots]
        obtain ⟨-, -, hfits, hover⟩ := cwdLoop_component hc hdots (length_opened hlen) []
        obtain ⟨hok, hunfit⟩ := finish_component hc cs
        have hlast := length_render_concat cs c
        constructor
        · rintro ⟨-, h⟩
          rw [hfits (by omega)]
          exact hok h
        · intro h
          have h' : ¬ (render (cs ++ [c])).length ≤ PATH_MAX := fun h' => h ⟨hlen, h'⟩
          by_cases hfit : (opened cs).length + c.length ≤ PATH_MAX + 1
          · rw [hfits hfit]
            exact hunfit h'
          · obtain ⟨p, hp⟩ := hover hfit
            rw [hp]
            exact ⟨p, rfl⟩
    | cons d ds =>
      have hbare : bare (c :: d :: ds) = c ++ 47 :: bare (d :: ds) := rfl
      have hresolve : resolve cs (c :: d :: ds) = resolve (enter cs c) (d :: ds) := rfl
      rw [hbare, hresolve]
      unfold enter
      by_cases hdots : c = [46, 46]
      · have hrun : newName (opened cs) (c ++ 47 :: bare (d :: ds)) =
            newName (opened cs.dropLast) (bare (d :: ds)) := by
          unfold newName
          rw [hdots, (cwdLoop_dots _ _).1, backup_opened hcs]
          rfl
        rw [if_pos hdots, hrun, and_iff_right hlen]
        exact ih htail (List.cons_ne_nil _ _) (fun e he => hcs e (List.dropLast_subset _ he))
          hdrop'
      · obtain ⟨hfits, hover, -, -⟩ :=
          cwdLoop_component hc hdots (length_opened hlen) (bare (d :: ds))
        have hlast := length_render_concat cs c
        rw [if_neg hdots, and_iff_right hlen]
        by_cases hfit : (opened cs).length + c.length ≤ PATH_MAX
        · have hrun : newName (opened cs) (c ++ 47 :: bare (d :: ds)) =
              newName (opened (cs ++ [c])) (bare (d :: ds)) := by
            unfold newName
            rw [hfits hfit, opened_concat]
          rw [hrun]
          refine ih htail (List.cons_ne_nil _ _) ?_ (by omega)
          intro e he
          rcases List.mem_append.mp he with he | he
          · exact hcs e he
          · rw [List.mem_singleton.mp he]
            exact hc
        · refine ⟨fun h => ?_, fun _ => ?_⟩
          · have := h [] List.nil_prefix
            exact absurd this (by
              show ¬ (render (cs ++ [c])).length ≤ PATH_MAX
              omega)
          · obtain ⟨p, hp⟩ := hover hfit
            unfold newName
            rw [hp]
            exact ⟨p, rfl⟩

/-! ### The law -/

theorem comps_component {dir c : Str} (hc : c ∈ comps dir) : Component c ∧ c ≠ [46] := by
  obtain ⟨w, ws, -, hcut, hw, hws⟩ := exists_slashed dir
  unfold comps at hc
  rw [hcut] at hc
  obtain ⟨hmem, hkeep⟩ := List.mem_filter.mp hc
  obtain ⟨hne, hdot⟩ := of_decide_eq_true hkeep
  exact ⟨⟨hne, (List.forall_mem_cons (p := fun v => 47 ∉ v)).mpr ⟨hw, hws⟩ c hmem⟩, hdot⟩

theorem normal_resolve {names : List Str} (hnames : ∀ c ∈ names, Component c ∧ c ≠ [46])
    {cs : List Str} (hcs : Normal cs) : Normal (resolve cs names) := by
  induction names generalizing cs with
  | nil => exact hcs
  | cons c names ih =>
    obtain ⟨⟨hc, hdot⟩, htail⟩ := List.forall_mem_cons.mp hnames
    refine ih htail ?_
    unfold enter
    split_ifs with hdots
    · exact fun d hd => hcs d (List.dropLast_subset _ hd)
    · intro d hd
      rcases List.mem_append.mp hd with hd | hd
      · exact hcs d hd
      · rw [List.mem_singleton.mp hd]
        exact ⟨hc, hdot, hdots⟩

theorem cwd_of_start {s : State} {dir text p rest : Str} (hcanon : canon dir = some text)
    (hdot : text ≠ [46]) (hknown : ¬ (text.head? ≠ some 47 ∧ s.didpwd = .FALSE))
    (hstart : pcwdStart s.cwdname text = .ok (p, rest)) :
    cwd dir s = match newName p rest with
      | .ok cwdname => some ⟨.PARTLY, cwdname⟩
      | .error (.unfit p) => some ⟨.FALSE, p.reverse⟩
      | .error .outside => none := by
  unfold cwd
  rw [hcanon]
  simp only [Option.bind_eq_bind, Option.bind_some]
  rw [if_neg hdot, if_neg hknown, hstart]
  rfl

/-- What the new name is says what the state is. -/
theorem cwd_of_newName {s : State} {dir p rest : Str} {start : List Str} (hnormal : Normal start)
    (hrun : cwd dir s = match newName p rest with
      | .ok cwdname => some ⟨.PARTLY, cwdname⟩
      | .error (.unfit p) => some ⟨.FALSE, p.reverse⟩
      | .error .outside => none)
    (hnew : (Fit start (comps dir) → newName p rest = .ok (render (resolve start (comps dir)))) ∧
      (¬ Fit start (comps dir) → Unfit (newName p rest))) :
    (Fit start (comps dir) →
      (∃ d, d ≠ .FALSE ∧ cwd dir s = some ⟨d, render (resolve start (comps dir))⟩) ∧
        Normal (resolve start (comps dir))) ∧
    (¬ Fit start (comps dir) → ∃ p, cwd dir s = some ⟨.FALSE, p⟩) := by
  constructor
  · intro hfit
    rw [hnew.1 hfit] at hrun
    exact ⟨⟨.PARTLY, by decide, hrun⟩, normal_resolve (fun c hc => comps_component hc) hnormal⟩
  · intro hfit
    obtain ⟨q, hq⟩ := hnew.2 hfit
    rw [hq] at hrun
    exact ⟨_, hrun⟩

theorem render_comps (dir : Str) : render (comps dir) = 47 :: bare (comps dir) := by
  unfold render
  split_ifs with hnil
  · rw [hnil]
    rfl
  · exact (cons_bare hnil).symm

/-- A relative name begins with a component that is no dot. -/
theorem bare_comps {dir : Str} (hnil : comps dir ≠ []) :
    bare (comps dir) ≠ [46] ∧ (bare (comps dir)).head? ≠ some 47 := by
  obtain ⟨c, names, hnames⟩ := List.exists_cons_of_ne_nil hnil
  obtain ⟨⟨hne, hslash⟩, hdot⟩ := comps_component (hnames ▸ List.mem_cons_self)
  constructor
  · rw [hnames, bare_cons]
    cases names with
    | nil => rwa [slashed_nil, List.append_nil]
    | cons d names =>
      intro h
      have hmem : (47 : UInt8) ∈ c ++ slashed (d :: names) := by simp
      rw [h] at hmem
      exact absurd hmem (by decide)
  · rw [hnames, bare_cons, List.head?_append_of_ne_nil _ hne]
    exact fun h => hslash (List.mem_of_mem_head? h)

theorem pcwdStart_render {cs : List Str} (hcs : Normal cs) (hlen : (render cs).length ≤ PATH_MAX)
    {text : Str} (hrel : text.head? ≠ some 47) :
    pcwdStart (render cs) text = .ok (opened cs, text) := by
  unfold pcwdStart
  rw [if_neg hrel]
  unfold render opened
  by_cases hroot : cs = []
  · rw [hroot]
    rfl
  · have hlong : (slashed cs).length ≠ 1 := by
      obtain ⟨d, ds, rfl⟩ := List.exists_cons_of_ne_nil hroot
      have hpos := List.length_pos_iff.mpr (hcs d List.mem_cons_self).1.1
      rw [slashed_cons, List.length_cons, List.length_append]
      omega
    unfold render at hlen
    rw [if_neg hroot] at hlen
    rw [if_neg hroot, if_pos hlong, if_pos (by omega)]

/-- From a normalised name the shell comes to the one that `dir` leads to, and nothing outside of
the two strings is touched. If a name on the way does not fit, the shell knows that it does not
know where it is, as it did before if the name was lost and `dir` is relative. -/
theorem cwd_eq (s : State) (cs : List Str) (hcs : Normal cs) (hname : s.cwdname = render cs)
    (hlen : s.cwdname.length ≤ PATH_MAX) (dir : Str) (hdir : dir ≠ []) :
    if dir.head? ≠ some 47 ∧ s.didpwd = .FALSE then cwd dir s = some s
    else
      let start := if dir.head? = some 47 then [] else cs
      (Fit start (comps dir) →
        (∃ d, d ≠ .FALSE ∧ cwd dir s = some ⟨d, render (resolve start (comps dir))⟩) ∧
          Normal (resolve start (comps dir))) ∧
      (¬ Fit start (comps dir) → ∃ p, cwd dir s = some ⟨.FALSE, p⟩) := by
  have hcomps : ∀ c ∈ comps dir, Component c := fun c hc => (comps_component hc).1
  have hcs' : ∀ c ∈ cs, Component c := fun c hc => (hcs c hc).1
  have hcanon := canon_eq hdir
  by_cases habs : dir.head? = some 47
  · rw [if_neg fun h => h.1 habs]
    rw [if_pos habs] at hcanon ⊢
    rw [render_comps] at hcanon
    have hdot : 47 :: bare (comps dir) ≠ [46] := by simp
    have hrun := cwd_of_start hcanon hdot (s := s) (fun h => h.1 rfl) rfl
    refine cwd_of_newName (by simp [Normal]) hrun ?_
    by_cases hnil : comps dir = []
    · rw [hnil]
      exact ⟨fun _ => rfl, fun h => absurd ((fit_nil []).mpr (by decide)) h⟩
    · exact newName_eq hcomps hnil (show ∀ c ∈ ([] : List Str), Component c by simp) (by decide)
  · rw [if_neg habs] at hcanon ⊢
    have hlen' : (render cs).length ≤ PATH_MAX := hname ▸ hlen
    by_cases hnil : comps dir = []
    · -- a dot: nothing is done
      rw [if_pos hnil] at hcanon
      have hrun : cwd dir s = some s := by
        unfold cwd
        rw [hcanon]
        rfl
      rw [hnil]
      split_ifs with hknown
      · exact hrun
      · refine ⟨fun _ => ⟨⟨s.didpwd, fun h => hknown ⟨habs, h⟩, ?_⟩, hcs⟩,
          fun h => absurd ((fit_nil cs).mpr hlen') h⟩
        rw [hrun]
        show some s = some ⟨s.didpwd, render cs⟩
        rw [← hname]
    · rw [if_neg hnil] at hcanon
      obtain ⟨htext, hrel⟩ := bare_comps hnil
      split_ifs with hknown
      · unfold cwd
        rw [hcanon]
        simp only [Option.bind_eq_bind, Option.bind_some]
        rw [if_neg htext, if_pos ⟨hrel, hknown.2⟩]
      · have hstart : pcwdStart s.cwdname (bare (comps dir)) = .ok (opened cs, bare (comps dir)) :=
          hname ▸ pcwdStart_render hcs hlen' hrel
        exact cwd_of_newName hcs
          (cwd_of_start hcanon htext (fun h => hknown ⟨habs, h.2⟩) hstart)
          (newName_eq hcomps hnil hcs' hlen')

/-- From `/a` to `../b`. -/
theorem cwd_eq_up :
    let s : State := ⟨.TRUE, [47, 97]⟩
    let dir : Str := [46, 46, 47, 98]
    (s.cwdname = render [[97]] ∧ s.cwdname.length ≤ PATH_MAX ∧ Normal [[97]]) ∧
    if dir.head? ≠ some 47 ∧ s.didpwd = .FALSE then cwd dir s = some s
    else
      let start := if dir.head? = some 47 then [] else [[97]]
      (Fit start (comps dir) →
        (∃ d, d ≠ .FALSE ∧ cwd dir s = some ⟨d, render (resolve start (comps dir))⟩) ∧
          Normal (resolve start (comps dir))) ∧
      (¬ Fit start (comps dir) → ∃ p, cwd dir s = some ⟨.FALSE, p⟩) := by
  have hnormal : Normal [[97]] := by
    unfold Normal Component
    decide
  exact ⟨⟨rfl, by decide, hnormal⟩, cwd_eq ⟨.TRUE, [47, 97]⟩ [[97]] hnormal rfl (by decide)
    [46, 46, 47, 98] (by decide)⟩

/-- Where the shell does not know where it is, `..` leaves `/tmp/a` as the name. -/
theorem not_cwd_lexical : ¬ ∀ (s : State) (cs : List Str) (dir : Str), Normal cs →
    s.cwdname = render cs → s.cwdname.length ≤ PATH_MAX → dir ≠ [] →
      (Fit (if dir.head? = some 47 then [] else cs) (comps dir) →
        ∃ d, cwd dir s =
          some ⟨d, render (resolve (if dir.head? = some 47 then [] else cs) (comps dir))⟩) := by
  intro h
  have hnormal : Normal [[116, 109, 112], [97]] := by
    unfold Normal Component
    decide
  have hcomps : comps [46, 46] = [[46, 46]] := by decide
  obtain ⟨d, hd⟩ := h ⟨.FALSE, [47, 116, 109, 112, 47, 97]⟩ [[116, 109, 112], [97]] [46, 46] hnormal
    rfl (by decide) (by decide) (by
      rw [hcomps, if_neg (by decide), fit_cons, fit_nil]
      decide)
  have hrun : cwd [46, 46] ⟨.FALSE, [47, 116, 109, 112, 47, 97]⟩ =
      some ⟨.FALSE, [47, 116, 109, 112, 47, 97]⟩ := by decide
  rw [hrun, hcomps, Option.some.injEq, State.mk.injEq] at hd
  exact absurd hd.2 (by decide)

end Unitas.Sh.Pwd
