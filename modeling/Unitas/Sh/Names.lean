import Mathlib.Data.Int.Basic

/-! The names of the shell: a tree of nodes, each of which is a variable or a function. -/
namespace Unitas.Sh.Names

abbrev Text := List UInt8

def letter (c : UInt8) : Bool := 65 ≤ c && c ≤ 90 || c = 95 || 97 ≤ c && c ≤ 122

def alphanum (c : UInt8) : Bool := letter c || 48 ≤ c && c ≤ 57

def chkid : Text → Bool
  | [] => false
  | c :: cp => letter c && cp.all alphanum

/-- A name that `chkid` has let pass. -/
abbrev Ident := { nam : Text // chkid nam = true }

def PATH : Text := [80, 65, 84, 72]
def SHELL : Text := [83, 72, 69, 76, 76]
def IFS : Text := [73, 70, 83]
def PS1 : Text := [80, 83, 49]
def PS2 : Text := [80, 83, 50]
def MAILCHECK : Text := [77, 65, 73, 76, 67, 72, 69, 67, 75]

/-- A string ends at its null byte. -/
def cf : Text → Text → ℤ
  | [], [] => 0
  | [], d :: _ => -d.toNat
  | c :: _, [] => c.toNat
  | c :: s1, d :: s2 => if c = d then cf s1 s2 else c.toNat - d.toNat

/-- The bits of `namflg`. -/
structure Flags where
  envchg : Bool := false
  rdonly : Bool := false
  exported : Bool := false
  envnam : Bool := false
  functn : Bool := false
  deriving DecidableEq, Repr

def N_DEFAULT : Flags := {}

variable {Body : Type}

/-- The field `namenv`: a string of the environment, or the body of a function. -/
inductive Env (Body : Type) where
  | null
  | text (v : Text)
  | body (t : Body)

structure Namnod (Body : Type) where
  namid : Ident
  namval : Option Text
  namenv : Env Body
  namflg : Flags

inductive Tree (Body : Type) where
  | nil
  | node (namlft : Tree Body) (n : Namnod Body) (namrgt : Tree Body)

/-- A new node. -/
def newNode (nam : Ident) : Namnod Body := ⟨nam, none, .null, N_DEFAULT⟩

def Tree.findnam (nam : Ident) : Tree Body → Option (Namnod Body)
  | .nil => none
  | .node namlft n namrgt =>
    let LR := cf nam n.namid
    if LR = 0 then some n else if LR < 0 then namlft.findnam nam else namrgt.findnam nam

/-- `lookup`: a name that is not there is added. -/
def Tree.lookup (nam : Ident) : Tree Body → Tree Body
  | .nil => .node .nil (newNode nam) .nil
  | .node namlft n namrgt =>
    let LR := cf nam n.namid
    if LR = 0 then .node namlft n namrgt
    else if LR < 0 then .node (namlft.lookup nam) n namrgt
    else .node namlft n (namrgt.lookup nam)

/-- What a function does to the node that it has got for a name. -/
def Tree.update (nam : Ident) (f : Namnod Body → Namnod Body) : Tree Body → Tree Body
  | .nil => .nil
  | .node namlft n namrgt =>
    let LR := cf nam n.namid
    if LR = 0 then .node namlft (f n) namrgt
    else if LR < 0 then .node (namlft.update nam f) n namrgt
    else .node namlft n (namrgt.update nam f)

/-- `replace` and `attrib`. -/
def Namnod.replace (n : Namnod Body) (v : Text) : Namnod Body :=
  { n with namval := some v, namflg := { n.namflg with envchg := true } }

/-- `assign`, with `rsh` for the bit of the restricted shell. The tests are one chain, so that the
restricted shell does not come to the last of them. -/
def assign (rsh : Bool) (v : Text) (n : Namnod Body) : Option (Namnod Body) :=
  if n.namflg.rdonly then none
  else if rsh then
    if n.namid.val = PATH ∨ n.namid.val = SHELL then none else some (n.replace v)
  else if n.namflg.functn then
    some (({ n with namenv := .null, namflg := N_DEFAULT } : Namnod Body).replace v)
  else some (n.replace v)

/-- `execute` of a definition. -/
def define (rsh : Bool) (fndval : Body) (n : Namnod Body) : Option (Namnod Body) :=
  if n.namflg.rdonly then none
  else if rsh ∧ (n.namid.val = PATH ∨ n.namid.val = SHELL) then none
  else
    let n :=
      if n.namflg.functn then n
      else { n with namval := none, namflg := { n.namflg with exported := false, envchg := false } }
    some { n with namenv := .body fndval, namflg := { n.namflg with functn := true } }

def badunset (nam : Text) : Bool :=
  nam = PATH || nam = IFS || nam = PS1 || nam = PS2 || nam = MAILCHECK

/-- `unset_name`, for a name that is there. -/
def unset (rsh : Bool) (n : Namnod Body) : Option (Namnod Body) :=
  if n.namflg.rdonly then none
  else if badunset n.namid then none
  else if rsh ∧ n.namid.val = SHELL then none
  else some { n with namval := none, namenv := .null, namflg := N_DEFAULT }

structure State (Body : Type) where
  namep : Tree Body
  rsh : Bool

def State.findnam (s : State Body) (nam : Ident) : Option (Namnod Body) := s.namep.findnam nam

inductive Act (Body : Type) where
  | lookup (nam : Ident)
  | assign (nam : Ident) (v : Text)
  | define (nam : Ident) (fndval : Body)
  | unset (nam : Ident)

def Act.name : Act Body → Ident
  | .lookup nam | .assign nam _ | .define nam _ | .unset nam => nam

/-- The state after a function has changed the node of a name, or has failed; and whether it has
not. -/
def State.change (s : State Body) (nam : Ident) (f : Namnod Body → Option (Namnod Body)) :
    State Body × Bool :=
  match s.findnam nam with
  | none => (s, true)
  | some n =>
    match f n with
    | none => (s, false)
    | some n' => ({ s with namep := s.namep.update nam fun _ => n' }, true)

/-- Definitions and assignments come with a `lookup`. -/
def step (s : State Body) : Act Body → State Body × Bool
  | .lookup nam => ({ s with namep := s.namep.lookup nam }, true)
  | .assign nam v =>
    ({ s with namep := s.namep.lookup nam } : State Body).change nam (assign s.rsh v)
  | .define nam fndval =>
    ({ s with namep := s.namep.lookup nam } : State Body).change nam (define s.rsh fndval)
  | .unset nam => s.change nam (unset s.rsh)

def run (s : State Body) (acts : List (Act Body)) : State Body :=
  acts.foldl (fun s a => (step s a).1) s

/-- A variable with a value. -/
def State.IsVar (s : State Body) (nam : Ident) (v : Text) : Prop :=
  ∃ n, s.findnam nam = some n ∧ n.namid = nam ∧ n.namflg.functn = false ∧ n.namval = some v

def State.IsFunc (s : State Body) (nam : Ident) : Prop :=
  ∃ n, s.findnam nam = some n ∧ n.namflg.functn = true

/-- An action that leaves the value of a name alone. -/
def Act.Keeps (nam : Ident) : Act Body → Prop
  | .lookup _ => True
  | a => a.name ≠ nam

theorem ne_zero_of_letter {c : UInt8} (h : letter c = true) : c ≠ 0 := by
  rintro rfl
  exact absurd h (by decide)

theorem ne_zero_of_alphanum {c : UInt8} (h : alphanum c = true) : c ≠ 0 := by
  rintro rfl
  exact absurd h (by decide)

theorem Ident.ne_zero (nam : Ident) : ∀ c ∈ nam.val, c ≠ 0 := by
  obtain ⟨nam, h⟩ := nam
  cases nam with
  | nil => exact fun c hc => absurd hc List.not_mem_nil
  | cons d cp =>
    rw [chkid, Bool.and_eq_true, List.all_eq_true] at h
    intro c hc
    rcases List.mem_cons.mp hc with rfl | hc
    · exact ne_zero_of_letter h.1
    · exact ne_zero_of_alphanum (h.2 c hc)

theorem toNat_ne_zero {c : UInt8} (h : c ≠ 0) : c.toNat ≠ 0 := fun h0 =>
  h (UInt8.toNat_inj.mp h0)

theorem cf_eq_zero {s1 s2 : Text} (h1 : ∀ c ∈ s1, c ≠ 0) (h2 : ∀ c ∈ s2, c ≠ 0) :
    cf s1 s2 = 0 ↔ s1 = s2 := by
  induction s1, s2 using cf.induct with
  | case1 => exact iff_of_true rfl rfl
  | case2 d s2 =>
    have := toNat_ne_zero (h2 d List.mem_cons_self)
    rw [cf]
    exact iff_of_false (by omega) (List.cons_ne_nil _ _).symm
  | case3 c s1 =>
    have := toNat_ne_zero (h1 c List.mem_cons_self)
    rw [cf]
    exact iff_of_false (by omega) (List.cons_ne_nil _ _)
  | case4 c s1 s2 ih =>
    rw [cf, if_pos rfl, ih (fun d hd => h1 d (List.mem_cons_of_mem _ hd))
      fun d hd => h2 d (List.mem_cons_of_mem _ hd)]
    exact ⟨fun h => congrArg _ h, fun h => (List.cons.inj h).2⟩
  | case5 c s1 d s2 hne =>
    have hnat : c.toNat ≠ d.toNat := fun h => hne (UInt8.toNat_inj.mp h)
    rw [cf, if_neg hne]
    exact iff_of_false (by omega) fun h => hne (List.cons.inj h).1

/-- Names are compared as they are. -/
theorem cf_ident {nam nam' : Ident} : cf nam nam' = 0 ↔ nam = nam' :=
  (cf_eq_zero nam.ne_zero nam'.ne_zero).trans Subtype.ext_iff.symm

theorem namid_findnam {nam : Ident} {n : Namnod Body} {t : Tree Body}
    (h : t.findnam nam = some n) : n.namid = nam := by
  induction t with
  | nil => exact absurd h (by simp [Tree.findnam])
  | node l n' r ihl ihr =>
    rw [Tree.findnam] at h
    split_ifs at h with h0 hlt
    · rw [← Option.some.inj h]
      exact (cf_ident.mp h0).symm
    · exact ihl h
    · exact ihr h

/-- `lookup` gives the node that is there, or a new one. -/
theorem findnam_lookup (nam : Ident) (t : Tree Body) :
    (t.lookup nam).findnam nam = some ((t.findnam nam).getD (newNode nam)) := by
  induction t with
  | nil =>
    rw [Tree.lookup, Tree.findnam]
    exact if_pos (cf_ident.mpr rfl)
  | node l n r ihl ihr =>
    rw [Tree.lookup, Tree.findnam]
    split_ifs with h0 hlt
    · rw [Tree.findnam]
      exact if_pos h0
    · rw [Tree.findnam, if_neg h0, if_pos hlt, ihl]
    · rw [Tree.findnam, if_neg h0, if_neg hlt, ihr]

theorem findnam_lookup_ne {nam m : Ident} (hne : m ≠ nam) (t : Tree Body) :
    (t.lookup nam).findnam m = t.findnam m := by
  induction t with
  | nil =>
    have h0 : cf m nam ≠ 0 := fun h => hne (cf_ident.mp h)
    rw [Tree.lookup, Tree.findnam]
    change (if cf m nam = 0 then _ else _) = none
    rw [if_neg h0]
    split_ifs <;> rfl
  | node l n r ihl ihr =>
    rw [Tree.lookup]
    split_ifs
    · rfl
    · rw [Tree.findnam, Tree.findnam, ihl]
    · rw [Tree.findnam, Tree.findnam, ihr]

theorem findnam_update {nam : Ident} {f : Namnod Body → Namnod Body}
    (hf : ∀ n, n.namid = nam → (f n).namid = nam) (t : Tree Body) :
    (t.update nam f).findnam nam = (t.findnam nam).map f := by
  induction t with
  | nil => rfl
  | node l n r ihl ihr =>
    rw [Tree.update, Tree.findnam]
    split_ifs with h0 hlt
    · have hid := hf n (cf_ident.mp h0).symm
      rw [Tree.findnam]
      exact if_pos (cf_ident.mpr hid.symm)
    · rw [Tree.findnam, if_neg h0, if_pos hlt, ihl]
    · rw [Tree.findnam, if_neg h0, if_neg hlt, ihr]

theorem findnam_update_ne {nam m : Ident} (hne : m ≠ nam) {f : Namnod Body → Namnod Body}
    (hf : ∀ n, n.namid = nam → (f n).namid = nam) (t : Tree Body) :
    (t.update nam f).findnam m = t.findnam m := by
  induction t with
  | nil => rfl
  | node l n r ihl ihr =>
    rw [Tree.update]
    split_ifs with h0
    · have hid : n.namid = nam := (cf_ident.mp h0).symm
      rw [Tree.findnam, Tree.findnam, hf n hid, hid, if_neg fun h => hne (cf_ident.mp h),
        if_neg fun h => hne (cf_ident.mp h)]
    · rw [Tree.findnam, Tree.findnam, ihl]
    · rw [Tree.findnam, Tree.findnam, ihr]

/-- The node of a name after a function has got it. -/
theorem change_spec {s : State Body} {nam : Ident} {n : Namnod Body}
    {f : Namnod Body → Option (Namnod Body)} (hn : s.findnam nam = some n)
    (hf : ∀ n', f n = some n' → n'.namid = n.namid) :
    (s.change nam f).2 = (f n).isSome ∧
      (s.change nam f).1.findnam nam = some ((f n).getD n) ∧
      ∀ m, m ≠ nam → (s.change nam f).1.findnam m = s.findnam m := by
  unfold State.change
  rw [hn]
  dsimp only
  cases hfn : f n with
  | none => exact ⟨rfl, hn, fun _ _ => rfl⟩
  | some n' =>
    have hid : ∀ k : Namnod Body, k.namid = nam → n'.namid = nam := fun _ _ =>
      (hf n' hfn).trans (namid_findnam hn)
    refine ⟨rfl, ?_, fun m hm => findnam_update_ne hm hid s.namep⟩
    have hupd := findnam_update hid s.namep
    unfold State.findnam at hn ⊢
    rw [hupd, hn]
    rfl

theorem change_none {s : State Body} {nam : Ident} (hn : s.findnam nam = none)
    (f : Namnod Body → Option (Namnod Body)) : s.change nam f = (s, true) := by
  unfold State.change
  rw [hn]

theorem assign_namid {rsh : Bool} {v : Text} {n n' : Namnod Body}
    (h : assign rsh v n = some n') : n'.namid = n.namid := by
  unfold assign at h
  split_ifs at h <;> exact (Option.some.inj h) ▸ rfl

theorem define_namid {rsh : Bool} {fndval : Body} {n n' : Namnod Body}
    (h : define rsh fndval n = some n') : n'.namid = n.namid := by
  unfold define at h
  split_ifs at h <;> exact (Option.some.inj h) ▸ rfl

theorem unset_namid {rsh : Bool} {n n' : Namnod Body} (h : unset rsh n = some n') :
    n'.namid = n.namid := by
  unfold unset at h
  split_ifs at h
  exact (Option.some.inj h) ▸ rfl

theorem findnam_looked (s : State Body) (nam : Ident) :
    ({ s with namep := s.namep.lookup nam } : State Body).findnam nam =
      some ((s.findnam nam).getD (newNode nam)) := findnam_lookup nam s.namep

/-- An action changes no other name. -/
theorem step_ne (s : State Body) (a : Act Body) {m : Ident} (hm : m ≠ a.name) :
    (step s a).1.findnam m = s.findnam m := by
  have hlookup : ({ s with namep := s.namep.lookup a.name } : State Body).findnam m =
      s.findnam m := findnam_lookup_ne hm s.namep
  cases a with
  | lookup nam => exact hlookup
  | assign nam v =>
    exact ((change_spec (findnam_looked s nam) fun _ => assign_namid).2.2 m hm).trans hlookup
  | define nam fndval =>
    exact ((change_spec (findnam_looked s nam) fun _ => define_namid).2.2 m hm).trans hlookup
  | unset nam =>
    cases hn : s.findnam nam with
    | none => rw [step, change_none hn]
    | some n => exact (change_spec hn fun _ => unset_namid).2.2 m hm

/-- Nor does a `lookup` change a name that is there. -/
theorem step_keeps {s : State Body} {a : Act Body} {nam : Ident} (ha : a.Keeps nam)
    {n : Namnod Body} (hn : s.findnam nam = some n) : (step s a).1.findnam nam = some n := by
  by_cases hname : nam = a.name
  · cases a with
    | lookup nam' =>
      obtain rfl : nam = nam' := hname
      have h := findnam_looked s nam
      rw [hn] at h
      exact h
    | assign nam' v => exact absurd hname.symm ha
    | define nam' fndval => exact absurd hname.symm ha
    | unset nam' => exact absurd hname.symm ha
  · rw [step_ne s a hname, hn]

theorem run_keeps {nam : Ident} {n : Namnod Body} {acts : List (Act Body)} :
    ∀ {s : State Body}, (∀ a ∈ acts, a.Keeps nam) → s.findnam nam = some n →
      (run s acts).findnam nam = some n := by
  induction acts with
  | nil => exact fun _ hn => hn
  | cons a acts ih =>
    intro s hacts hn
    obtain ⟨ha, hacts⟩ := List.forall_mem_cons.mp hacts
    exact ih hacts (step_keeps ha hn)

/-- The restricted shell assigns to the node of a function without making a variable of it. -/
theorem assign_functn {rsh : Bool} {v : Text} {n n' : Namnod Body}
    (h : assign rsh v n = some n') :
    n'.namval = some v ∧ n'.namflg.functn = (rsh && n.namflg.functn) := by
  unfold assign at h
  split_ifs at h with hro hrsh hname hfun
  · obtain rfl := Option.some.inj h
    exact ⟨rfl, by rw [hrsh]; rfl⟩
  · obtain rfl := Option.some.inj h
    exact ⟨rfl, by rw [hfun]; simp [hrsh, Namnod.replace, N_DEFAULT]⟩
  · obtain rfl := Option.some.inj h
    refine ⟨rfl, ?_⟩
    have hout : n.namflg.functn = false := by simpa using hfun
    simp [Namnod.replace, hout]

/-- After an assignment that does not fail the name is a variable with that value until it is
assigned to, defined or unset, if and only if it is not a function in the restricted shell. No
action ever changes another name. -/
theorem assign_lasts (s : State Body) (nam : Ident) (v : Text)
    (hok : (step s (.assign nam v)).2 = true) :
    ((∀ acts : List (Act Body), (∀ a ∈ acts, a.Keeps nam) →
        (run (step s (.assign nam v)).1 acts).IsVar nam v) ↔ ¬ (s.rsh = true ∧ s.IsFunc nam)) ∧
      ∀ (a : Act Body) (m : Ident), m ≠ a.name → (step s a).1.findnam m = s.findnam m := by
  refine ⟨?_, fun a m => step_ne s a⟩
  obtain ⟨hsome, hnode, -⟩ := change_spec (findnam_looked s nam) fun n' =>
    @assign_namid _ s.rsh v _ n'
  generalize hold : (s.findnam nam).getD (newNode nam) = n at hsome hnode
  obtain ⟨n', hn'⟩ := Option.isSome_iff_exists.mp (hsome.symm.trans hok)
  rw [hn', Option.getD_some] at hnode
  obtain ⟨hval, hfun⟩ := assign_functn hn'
  have hfunc : n.namflg.functn = true ↔ s.IsFunc nam := by
    unfold State.IsFunc
    cases hs : s.findnam nam with
    | none =>
      rw [← hold, hs]
      simp [newNode, N_DEFAULT]
    | some k =>
      rw [← hold, hs]
      simp
  rw [← hfunc]
  constructor
  · intro h
    obtain ⟨k, hk, -, hkfun, -⟩ := h [] fun _ ha => absurd ha List.not_mem_nil
    obtain rfl : n' = k := Option.some.inj (hnode.symm.trans hk)
    rw [hfun, Bool.and_eq_false_iff] at hkfun
    rintro ⟨h1, h2⟩
    rcases hkfun with hkfun | hkfun
    · rw [h1] at hkfun
      exact Bool.false_ne_true hkfun.symm
    · rw [h2] at hkfun
      exact Bool.false_ne_true hkfun.symm
  · intro h acts hacts
    refine ⟨n', run_keeps hacts hnode, namid_findnam hnode, ?_, hval⟩
    rw [hfun, Bool.and_eq_false_iff]
    by_contra hboth
    rw [not_or, Bool.not_eq_false, Bool.not_eq_false] at hboth
    exact h hboth

def X : Ident := ⟨[120], by decide⟩

/-- A function `x` in the restricted shell. -/
def funcX (rsh : Bool) : State Unit :=
  ⟨.node .nil ⟨X, none, .body (), { functn := true }⟩ .nil, rsh⟩

theorem assign_lasts_funcX :
    ((∀ acts : List (Act Unit), (∀ a ∈ acts, a.Keeps X) →
        (run (step (funcX false) (.assign X [49])).1 acts).IsVar X [49]) ↔
        ¬ ((funcX false).rsh = true ∧ (funcX false).IsFunc X)) ∧
      ∀ (a : Act Unit) (m : Ident), m ≠ a.name →
        (step (funcX false) a).1.findnam m = (funcX false).findnam m := by
  exact assign_lasts (funcX false) X [49] rfl

/-- `x=1` in the restricted shell, where `x` is a function. -/
theorem not_assign_lasts : ¬ ∀ (s : State Unit) (nam : Ident) (v : Text),
    (step s (.assign nam v)).2 = true → (step s (.assign nam v)).1.IsVar nam v := by
  intro h
  obtain ⟨n, hn, -, hfun, -⟩ := h (funcX true) X [49] rfl
  have hfind : (step (funcX true) (.assign X [49])).1.findnam X =
      some ⟨X, some [49], .body (), { functn := true, envchg := true }⟩ := rfl
  rw [hfind] at hn
  obtain rfl := Option.some.inj hn
  exact Bool.false_ne_true hfun.symm

end Unitas.Sh.Names
