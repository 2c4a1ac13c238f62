import Mathlib.Data.List.TakeWhile
import Unitas.Sh.Hashserv

/-! PATH: the names that `catpath` makes of it, and the positions that `findpath`, `execa` and
`pr_path` count. Strings are without their null characters. -/
namespace Unitas.Sh.Path
open LinkedList Hash

abbrev Str := List UInt8

/-- `/usr/5bin:/bin:/usr/bin:` -/
def defpath : Str := [47, 117, 115, 114, 47, 53, 98, 105, 110, 58, 47, 98, 105, 110, 58, 47, 117,
  115, 114, 47, 98, 105, 110, 58]

/-- There is no result where a restricted shell refuses the name. -/
def getpath (rshflg : Bool) (pathnod : Option Str) (s : Str) : Option Str :=
  if 47 ∈ s then if rshflg then none else some []
  else match pathnod with
    | none => some defpath
    | some path =>
      if 2 < path.length ∧ path.getD (path.length - 1) 0 = 58 ∧
          path.getD (path.length - 2) 0 ≠ 58 then
        some (path ++ [58])
      else some path

/-- What is left on the stack, and the rest of the path. -/
def catpath (path name : Str) : Str × Option Str :=
  let dir := path.takeWhile (· ≠ 58)
  let scanp := (path.dropWhile (· ≠ 58)).drop 1
  (dir ++ (if dir ≠ [] then [47] else []) ++ name, if scanp = [] then none else some scanp)

/-- The names of repeated calls. -/
def catpaths (name : Str) : ℕ → Str → List Str
  | 0, _ => []
  | fuel + 1, path => (catpath path name).1 :: match (catpath path name).2 with
    | none => []
    | some path => catpaths name fuel path

/-- `nextpath` again and again. -/
def nextpaths : ℕ → Option Str → Except Fault (Option Str)
  | 0, path => .ok path
  | _ + 1, none => .error .null
  | n + 1, some path => nextpaths n (nextpath path)

section
variable (chkAccess : Str → Fin 4) (name : Str)

/-- `while (path)` in `findpath`. -/
def findLoop : ℕ → ℕ → Fin 4 → Option Str → Except Fault ℤ
  | _, _, eCode, none => .ok (-(eCode.val : ℤ))
  | 0, _, _, some _ => .error .loops
  | fuel + 1, count, eCode, some path =>
    let (p, path) := catpath path name
    if chkAccess p = 0 then .ok count
    else findLoop fuel (count + 1) (max eCode (chkAccess p)) path

def findpath (path : Str) (oldpath dotpath : ℕ) : Except Fault ℤ :=
  if oldpath = 0 then findLoop chkAccess name (path.length + 1) 1 1 (some path)
  else do
    let rest ← nextpaths (dotpath - 1) (some path)
    if oldpath > dotpath then
      match rest with
      | none => .error .null
      | some path => .ok (if chkAccess (catpath path name).1 = 0 then dotpath else oldpath)
    else findLoop chkAccess name (path.length + 1) dotpath 1 rest

/-- The name that `execa` tries first for a position, before `trim` takes backslashes out of it. -/
def execa (path : Str) (pos : ℕ) : Except Fault Str := do
  match ← nextpaths (pos - 1) (some path) with
  | none => .error .null
  | some path => .ok (catpath path name).1

/-- `while (--count && path)` -/
def prLoop : ℕ → Option Str → Option Str
  | 0, path => path
  | _ + 1, none => none
  | n + 1, some path => prLoop n (nextpath path)

def prPath (path : Str) (count : ℕ) : Except Fault Str :=
  match prLoop (count - 1) (some path) with
  | none => .error .null
  | some path => .ok (catpath path name).1

end

/-! ### The components -/

/-- The name of a file in a component; the empty one is the current directory. -/
def inDir (name dir : Str) : Str := if dir = [] then name else dir ++ 47 :: name

theorem catpath_fst (path name : Str) :
    (catpath path name).1 = inDir name (path.takeWhile (· ≠ 58)) := by
  unfold catpath inDir
  dsimp only
  split_ifs with h h' <;> simp_all

theorem catpath_snd (path name : Str) : (catpath path name).2 = nextpath path := rfl

theorem length_nextpath {path rest : Str} (h : nextpath path = some rest) :
    rest.length < path.length := by
  unfold nextpath at h
  dsimp only at h
  split_ifs at h with hnil
  obtain rfl := Option.some.inj h
  have hle := (List.dropWhile_suffix (l := path) (· ≠ 58)).length_le
  have hpos := List.length_pos_iff.mpr hnil
  rw [List.length_drop] at hpos ⊢
  omega

theorem catpaths_eq (name : Str) (fuel : ℕ) (path : Str) :
    catpaths name fuel path =
      (pathsFrom fuel path).map fun path => inDir name (path.takeWhile (· ≠ 58)) := by
  induction fuel generalizing path with
  | zero => rfl
  | succ fuel ih =>
    rw [catpaths, pathsFrom, catpath_fst, catpath_snd]
    cases h : nextpath path with
    | none => rfl
    | some rest =>
      dsimp only
      rw [ih, List.map_cons]

theorem ne_colon {dir : Str} (hdir : 58 ∉ dir) : ∀ c ∈ dir, decide (c ≠ 58) = true := by
  intro c hc
  rw [decide_eq_true_iff]
  rintro rfl
  exact hdir hc

theorem nextpath_append {dir : Str} (hdir : 58 ∉ dir) (rest : Str) :
    nextpath (dir ++ 58 :: rest) = if rest = [] then none else some rest := by
  have hdrop : (dir ++ 58 :: rest).dropWhile (· ≠ 58) = 58 :: rest := by
    rw [List.dropWhile_append_of_pos (ne_colon hdir)]
    rfl
  unfold nextpath
  rw [hdrop]
  rfl

theorem takeWhile_append {dir : Str} (hdir : 58 ∉ dir) (rest : Str) :
    (dir ++ 58 :: rest).takeWhile (· ≠ 58) = dir := by
  rw [List.takeWhile_append_of_pos (ne_colon hdir)]
  simp

/-- The components that are gone through: an empty one at the end is left out. -/
theorem pathsFrom_eq (fuel : ℕ) (path : Str) (hfuel : path.length < fuel) :
    (pathsFrom fuel path).map (·.takeWhile (· ≠ 58)) =
      if path.getLast? = some 58 then (path.splitOn 58).dropLast else path.splitOn 58 := by
  induction fuel generalizing path with
  | zero => omega
  | succ fuel ih =>
    rw [pathsFrom]
    by_cases h : 58 ∈ path
    · obtain ⟨dir, rest, rfl, hdir⟩ := List.eq_append_cons_of_mem h
      rw [nextpath_append hdir, List.map_cons, takeWhile_append hdir,
        List.splitOn_append_cons_self, List.splitOn_eq_singleton hdir, List.singleton_append]
      by_cases hrest : rest = []
      · simp [hrest]
      · rw [if_neg hrest]
        dsimp only
        rw [List.length_append, List.length_cons] at hfuel
        rw [ih rest (by omega)]
        have hlast : (dir ++ 58 :: rest).getLast? = rest.getLast? := by
          rw [List.getLast?_append_cons, List.getLast?_cons_of_ne_nil hrest]
        rw [hlast]
        by_cases h : rest.getLast? = some 58
        · rw [if_pos h, if_pos h, List.dropLast_cons_of_ne_nil (List.splitOn_ne_nil _ _)]
        · rw [if_neg h, if_neg h]
    · have hnext : nextpath path = none := by
        unfold nextpath
        rw [List.dropWhile_eq_nil_iff.mpr (ne_colon h)]
        rfl
      have hlast : path.getLast? ≠ some 58 := fun h' => h (List.mem_of_getLast? h')
      rw [hnext, if_neg hlast, List.splitOn_eq_singleton h, List.map_singleton,
        List.takeWhile_eq_self_iff.mpr (ne_colon h)]

/-! ### Positions -/

/-- The values of `path` from `path` on. -/
def restPaths (fuel : ℕ) : Option Str → List Str
  | none => []
  | some path => pathsFrom fuel path

theorem restPaths_succ (fuel : ℕ) (path : Str) :
    restPaths (fuel + 1) (some path) = path :: restPaths fuel (nextpath path) := by
  show pathsFrom (fuel + 1) path = _
  rw [pathsFrom]
  cases nextpath path <;> rfl

/-- There is fuel for the rest of the path. -/
def Enough (fuel : ℕ) (path : Option Str) : Prop := ∀ p ∈ path, p.length < fuel

theorem Enough.next {fuel : ℕ} {path : Str} (h : Enough (fuel + 1) (some path)) :
    Enough fuel (nextpath path) := by
  intro rest hrest
  have hlt := length_nextpath hrest
  have hle := h path rfl
  omega

theorem enough_self (path : Str) : Enough (path.length + 1) (some path) := by
  intro p hp
  obtain rfl := Option.mem_some_iff.mp hp
  exact Nat.lt_succ_self _

theorem Enough.mono {fuel fuel' : ℕ} {path : Option Str} (h : Enough fuel path)
    (hle : fuel ≤ fuel') : Enough fuel' path := fun p hp => lt_of_lt_of_le (h p hp) hle

theorem restPaths_fuel (fuel : ℕ) (path : Option Str) (h : Enough fuel path) :
    restPaths (fuel + 1) path = restPaths fuel path := by
  induction fuel generalizing path with
  | zero =>
    cases path with
    | none => rfl
    | some path => exact absurd (h path rfl) (Nat.not_lt_zero _)
  | succ fuel ih =>
    cases path with
    | none => rfl
    | some path => rw [restPaths_succ, restPaths_succ, ih _ h.next]

/-- Going on in the path drops what comes before. -/
theorem restPaths_nextpaths (fuel n : ℕ) (path rest : Option Str) (hfuel : Enough fuel path)
    (h : nextpaths n path = .ok rest) :
    Enough fuel rest ∧ restPaths fuel rest = (restPaths fuel path).drop n := by
  induction n generalizing path with
  | zero =>
    obtain rfl := Except.ok.inj h
    exact ⟨hfuel, rfl⟩
  | succ n ih =>
    cases path with
    | none => exact absurd h (by simp [nextpaths])
    | some path =>
      rw [nextpaths] at h
      cases fuel with
      | zero => exact absurd (hfuel path rfl) (Nat.not_lt_zero _)
      | succ fuel =>
        obtain ⟨hrest, hdrop⟩ := ih _ (hfuel.next.mono (Nat.le_succ fuel)) h
        refine ⟨hrest, ?_⟩
        rw [hdrop, restPaths_succ, List.drop_succ_cons, restPaths_fuel _ _ hfuel.next]

theorem nextpaths_eq (fuel n : ℕ) (path : Option Str) (hfuel : Enough fuel path) :
    nextpaths n path = .ok (restPaths fuel path)[n]? ∨
      nextpaths n path = .error .null ∧ (restPaths fuel path)[n]? = none := by
  induction n generalizing fuel path with
  | zero =>
    cases path with
    | none => exact .inl rfl
    | some path =>
      cases fuel with
      | zero => exact absurd (hfuel path rfl) (Nat.not_lt_zero _)
      | succ fuel => exact .inl rfl
  | succ n ih =>
    cases path with
    | none => exact .inr ⟨rfl, rfl⟩
    | some path =>
      cases fuel with
      | zero => exact absurd (hfuel path rfl) (Nat.not_lt_zero _)
      | succ fuel =>
        rw [nextpaths, restPaths_succ, List.getElem?_cons_succ]
        exact ih fuel _ hfuel.next

theorem prLoop_eq (fuel n : ℕ) (path : Option Str) (hfuel : Enough fuel path) :
    prLoop n path = (restPaths fuel path)[n]? := by
  induction n generalizing fuel path with
  | zero =>
    cases path with
    | none => rfl
    | some path =>
      cases fuel with
      | zero => exact absurd (hfuel path rfl) (Nat.not_lt_zero _)
      | succ fuel => rfl
  | succ n ih =>
    cases path with
    | none => rfl
    | some path =>
      cases fuel with
      | zero => exact absurd (hfuel path rfl) (Nat.not_lt_zero _)
      | succ fuel =>
        rw [prLoop, restPaths_succ, List.getElem?_cons_succ]
        exact ih fuel _ hfuel.next

/-- The name in the component of a position, for `execa` and `pr_path`. -/
theorem selected_eq (name path : Str) (pos : ℕ) :
    execa name path pos =
      (match (catpaths name (path.length + 1) path)[pos - 1]? with
        | none => .error .null
        | some p => .ok p) ∧
      prPath name path pos = execa name path pos := by
  have hfuel := enough_self path
  have hname : (catpaths name (path.length + 1) path)[pos - 1]? =
      (restPaths (path.length + 1) (some path))[pos - 1]?.map fun p => (catpath p name).1 := by
    rw [catpaths_eq, List.getElem?_map]
    simp only [catpath_fst]
    rfl
  unfold execa prPath
  rw [hname, prLoop_eq _ _ _ hfuel]
  obtain h | ⟨h, hnone⟩ := nextpaths_eq (path.length + 1) (pos - 1) (some path) hfuel
  · rw [h]
    cases (restPaths (path.length + 1) (some path))[pos - 1]? <;> exact ⟨rfl, rfl⟩
  · rw [h, hnone]
    exact ⟨rfl, rfl⟩

section
variable (chkAccess : Str → Fin 4) (name : Str)

/-- The loop ends, and a position that it finds is one of a file that can be executed. -/
theorem findLoop_eq (fuel count : ℕ) (eCode : Fin 4) (path : Option Str)
    (hfuel : Enough fuel path) :
    (∃ k p, (restPaths fuel path)[k]? = some p ∧ chkAccess (catpath p name).1 = 0 ∧
        findLoop chkAccess name fuel count eCode path = .ok ((count + k : ℕ) : ℤ)) ∨
      ∃ e : ℕ, findLoop chkAccess name fuel count eCode path = .ok (-(e : ℤ)) := by
  induction fuel generalizing count eCode path with
  | zero =>
    cases path with
    | none => exact .inr ⟨_, rfl⟩
    | some path => exact absurd (hfuel path rfl) (Nat.not_lt_zero _)
  | succ fuel ih =>
    cases path with
    | none => exact .inr ⟨_, rfl⟩
    | some path =>
      rw [findLoop]
      dsimp only
      by_cases h : chkAccess (catpath path name).1 = 0
      · refine .inl ⟨0, path, ?_, h, by rw [if_pos h]; rfl⟩
        rw [restPaths_succ]
        rfl
      · rw [if_neg h, restPaths_succ]
        refine (ih (count + 1) _ _ hfuel.next).imp ?_ id
        rintro ⟨k, p, hp, hchk, hfind⟩
        refine ⟨k + 1, p, hp, hchk, ?_⟩
        rw [catpath_snd, hfind, Nat.add_right_comm, Nat.add_assoc]

/-- `execa` and `pr_path` take the position for the same component, in which `findpath` has
found a file that can be executed unless it has returned the old position without a look. -/
structure Selects (path : Str) (oldpath dotpath : ℕ) (count : ℤ) : Prop where
  same : prPath name path count.toNat = execa name path count.toNat
  nth : ∀ p, execa name path count.toNat = .ok p →
    (catpaths name (path.length + 1) path)[count.toNat - 1]? = some p
  found : oldpath ≤ dotpath ∨ count ≠ oldpath →
    ∃ p, execa name path count.toNat = .ok p ∧ chkAccess p = 0

/-- `findpath` ends, and its position selects a component, if it returns one. -/
def Counts (path : Str) (oldpath dotpath : ℕ) : Prop :=
  match findpath chkAccess name path oldpath dotpath with
  | .ok count => 0 < count → Selects chkAccess name path oldpath dotpath count
  | .error f => f = .null

variable {chkAccess name}

theorem Selects.of_found {path p : Str} {oldpath dotpath pos : ℕ}
    (hp : (restPaths (path.length + 1) (some path))[pos]? = some p)
    (hchk : chkAccess (catpath p name).1 = 0) :
    Selects chkAccess name path oldpath dotpath ((pos + 1 : ℕ) : ℤ) := by
  have hname : (catpaths name (path.length + 1) path)[pos]? = some (catpath p name).1 := by
    have hp' : (pathsFrom (path.length + 1) path)[pos]? = some p := hp
    rw [catpaths_eq, List.getElem?_map, hp', catpath_fst]
    rfl
  obtain ⟨hexeca, hpr⟩ := selected_eq name path (pos + 1)
  rw [Nat.add_sub_cancel, hname] at hexeca
  refine ⟨by rwa [Int.toNat_natCast], ?_, fun _ => ⟨_, by rwa [Int.toNat_natCast], hchk⟩⟩
  intro q hq
  rw [Int.toNat_natCast, hexeca] at hq
  rw [Int.toNat_natCast, Nat.add_sub_cancel, hname, Except.ok.inj hq]

/-- The old position, which is not looked at again. -/
theorem Selects.of_old (path : Str) {oldpath dotpath : ℕ} (h : dotpath < oldpath) :
    Selects chkAccess name path oldpath dotpath (oldpath : ℤ) := by
  obtain ⟨hexeca, hpr⟩ := selected_eq name path oldpath
  refine ⟨by rwa [Int.toNat_natCast], ?_, fun hfound => ?_⟩
  · intro p hp
    rw [Int.toNat_natCast, hexeca] at hp
    rw [Int.toNat_natCast]
    split at hp
    · cases hp
    next q hq => rw [hq, Except.ok.inj hp]
  · rcases hfound with hle | hne
    · omega
    · exact absurd rfl hne

theorem counts (path : Str) (oldpath dotpath : ℕ) : Counts chkAccess name path oldpath dotpath := by
  have hfuel := enough_self path
  unfold Counts findpath
  by_cases h0 : oldpath = 0
  · rw [if_pos h0]
    obtain ⟨k, p, hp, hchk, h⟩ | ⟨e, h⟩ := findLoop_eq chkAccess name _ 1 1 _ hfuel
    · rw [h, Nat.add_comm]
      exact fun _ => .of_found hp hchk
    · rw [h]
      exact fun hpos => absurd hpos (by omega)
  · rw [if_neg h0]
    cases hnext : nextpaths (dotpath - 1) (some path) with
    | error f =>
      obtain h | ⟨h, -⟩ := nextpaths_eq _ (dotpath - 1) _ hfuel
      · cases hnext.symm.trans h
      · cases hnext.symm.trans h
        rfl
    | ok rest =>
      obtain ⟨hrest, hdrop⟩ := restPaths_nextpaths _ _ _ _ hfuel hnext
      simp only [bind, Except.bind]
      by_cases hold : oldpath > dotpath
      · rw [if_pos hold]
        cases rest with
        | none => rfl
        | some p =>
          dsimp only
          by_cases hchk : chkAccess (catpath p name).1 = 0
          · rw [if_pos hchk]
            intro hpos
            have hp : (restPaths (path.length + 1) (some path))[dotpath - 1]? = some p := by
              rw [restPaths_succ] at hdrop
              rw [← Nat.add_zero (dotpath - 1), ← List.getElem?_drop, ← hdrop]
              rfl
            have hdot : dotpath = dotpath - 1 + 1 := by omega
            rw [hdot]
            exact .of_found hp hchk
          · rw [if_neg hchk]
            exact fun _ => .of_old path hold
      · rw [if_neg hold]
        obtain ⟨k, p, hp, hchk, h⟩ | ⟨e, h⟩ := findLoop_eq chkAccess name _ dotpath 1 _ hrest
        · rw [h]
          intro _
          rw [hdrop, List.getElem?_drop] at hp
          have hdot : dotpath + k = dotpath - 1 + k + 1 := by omega
          rw [hdot]
          exact .of_found hp hchk
        · rw [h]
          exact fun hpos => absurd hpos (by omega)

end

/-! ### The law -/

theorem getLast?_eq_iff (path : Str) :
    path.getLast? = some 58 ↔ 0 < path.length ∧ path.getD (path.length - 1) 0 = 58 := by
  rw [List.getLast?_eq_getElem?, List.getD_eq_getElem?_getD]
  cases h : path[path.length - 1]? with
  | none =>
    have hlen := List.getElem?_eq_none_iff.mp h
    simp only [reduceCtorEq, false_iff]
    omega
  | some c =>
    have hlen := (List.getElem?_eq_some_iff.mp h).1
    simp only [Option.some.injEq, Option.getD_some, iff_and_self]
    omega

/-- The names of a search are those in the components of PATH, unless an empty component at its
end is lost: that of a path of one or two characters, or after another empty one. -/
theorem path_iff (chkAccess : Str → Fin 4) (rshflg : Bool) (name : Str) (hname : 47 ∉ name)
    (path : Str) :
    ∃ p, getpath rshflg (some path) name = some p ∧
      ((catpaths name (p.length + 1) p = (path.splitOn 58).map (inDir name) ∧
          ∀ oldpath dotpath, Counts chkAccess name p oldpath dotpath) ↔
        (path.getLast? = some 58 → 2 < path.length ∧ path.getD (path.length - 2) 0 ≠ 58)) := by
  have hnames (p : Str) : catpaths name (p.length + 1) p =
      (if p.getLast? = some 58 then (p.splitOn 58).dropLast else p.splitOn 58).map
        (inDir name) := by
    rw [catpaths_eq, ← pathsFrom_eq _ p (Nat.lt_succ_self _), List.map_map]
    rfl
  unfold getpath
  rw [if_neg hname]
  dsimp only
  by_cases hadd : 2 < path.length ∧ path.getD (path.length - 1) 0 = 58 ∧
      path.getD (path.length - 2) 0 ≠ 58
  · rw [if_pos hadd]
    refine ⟨_, rfl, iff_of_true ⟨?_, counts _⟩ fun _ => ⟨hadd.1, hadd.2.2⟩⟩
    rw [hnames, if_pos List.getLast?_concat, List.splitOn_append_cons_self]
    simp
  · rw [if_neg hadd]
    refine ⟨path, rfl, ?_⟩
    rw [hnames]
    by_cases hlast : path.getLast? = some 58
    · rw [if_pos hlast]
      refine iff_of_false ?_ fun h => ?_
      · rintro ⟨heq, -⟩
        have hlen := congrArg List.length heq
        have hpos := List.length_pos_iff.mpr (List.splitOn_ne_nil 58 path)
        rw [List.length_map, List.length_map, List.length_dropLast] at hlen
        omega
      · obtain ⟨hlen, hsnd⟩ := h hlast
        exact hadd ⟨hlen, ((getLast?_eq_iff path).mp hlast).2, hsnd⟩
    · rw [if_neg hlast]
      exact iff_of_true ⟨rfl, counts _⟩ fun h => absurd h hlast

/-- `ls` in `/bin:`. -/
theorem path_iff_bin :
    ∃ p, getpath false (some [47, 98, 105, 110, 58]) [108, 115] = some p ∧
      ((catpaths [108, 115] (p.length + 1) p =
          (List.splitOn 58 [47, 98, 105, 110, 58]).map (inDir [108, 115]) ∧
          ∀ oldpath dotpath, Counts (fun _ => 1) [108, 115] p oldpath dotpath) ↔
        (List.getLast? [(47 : UInt8), 98, 105, 110, 58] = some 58 →
          2 < List.length [(47 : UInt8), 98, 105, 110, 58] ∧
            List.getD [(47 : UInt8), 98, 105, 110, 58] 3 0 ≠ 58)) :=
  path_iff (fun _ => 1) false [108, 115] (by decide) [47, 98, 105, 110, 58]

/-- The path `a:` has no current directory. -/
theorem not_path : getpath false (some [97, 58]) [108, 115] = some [97, 58] ∧
    catpaths [108, 115] 3 [97, 58] = [[97, 47, 108, 115]] ∧
    (List.splitOn 58 [97, 58]).map (inDir [108, 115]) = [[97, 47, 108, 115], [108, 115]] := by
  decide

end Unitas.Sh.Path
