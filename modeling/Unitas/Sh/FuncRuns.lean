import Unitas.Lib.Transition
import Unitas.Sh.Subtree

/-! Runs of the shell's commands that define, call and drop functions. -/
namespace Unitas.Sh.Func
open Unitas.Transition

variable {s s' : State} {prog : List Tree} {n m : Name} {t u v kids : Tree} {id x y : Ptr}

/-- All that has been read, or is yet to be. -/
def chain : List Tree → Tree
  | [] => .null
  | t :: ts => .cons t (chain ts)

theorem null_sub_chain (ts : List Tree) : Tree.null.Sub (chain ts) := by
  induction ts with
  | nil => exact .refl
  | cons t ts ih => exact .tail ih

theorem sub_chain {ts : List Tree} (h : t ∈ ts) : t.Sub (chain ts) := by
  induction ts with
  | nil => cases h
  | cons t' ts ih =>
    rcases List.mem_cons.mp h with rfl | h
    · exact .head .refl
    · exact .tail (ih h)

theorem mem_chain_inBody {ts : List Tree} : x ∈ (chain ts).inBody ↔ ∃ t ∈ ts, x ∈ t.inBody := by
  induction ts with
  | nil => simp [chain, Tree.inBody]
  | cons t ts ih => simp [chain, Tree.inBody, ih]

/-- A tree that has been read is the only one with its nodes. -/
theorem eq_of_mem_both {ts : List Tree} (hv : (chain ts).ids.Nodup) (ht : t ∈ ts) (hu : u ∈ ts)
    (hx : x ∈ t.ids) (hx' : x ∈ u.ids) : t = u := by
  induction ts with
  | nil => cases ht
  | cons w ts ih =>
    cases ht with
    | head =>
      cases hu with
      | head => rfl
      | tail _ hu => exact (not_mem_both hv hx ((sub_chain hu).mem hx')).elim
    | tail _ ht =>
      cases hu with
      | head => exact (not_mem_both hv hx' ((sub_chain ht).mem hx)).elim
      | tail _ hu => exact ih (List.nodup_append.mp hv).2.1 ht hu

theorem chain_append_sub (done ts : List Tree) : (chain ts).Sub (chain (done ++ ts)) := by
  induction done with
  | nil => exact .refl
  | cons t done ih => exact .tail ih

/-- `t` is the body of a definition of `n` in what has been read. -/
def Defines (v : Tree) (n : Name) (t : Tree) : Prop :=
  ∃ id kids, (Tree.node id (.tfnd n) kids).Sub v ∧ kids.first = t

theorem Tree.first_cases (kids : Tree) :
    kids.first = .null ∨ ∃ id typ kids', kids.first = .node id typ kids' := by
  cases kids with
  | null | node => exact .inl rfl
  | cons t ts =>
    cases t with
    | null | cons => exact .inl rfl
    | node id typ kids => exact .inr ⟨id, typ, kids, rfl⟩

theorem Defines.sub (h : Defines (chain prog) n t) : t.Sub (chain prog) := by
  obtain ⟨id, kids, hsub, rfl⟩ := h
  rcases kids.first_cases with hnull | ⟨x, typ, kids', hnode⟩
  · exact hnull ▸ null_sub_chain prog
  · exact (Tree.first_sub (congrArg Tree.root hnode)).trans ((Tree.Sub.node .refl).trans hsub)

theorem Defines.ne_cons (h : Defines v n t) (w ws : Tree) : t ≠ .cons w ws := by
  obtain ⟨id, kids, -, rfl⟩ := h
  rcases kids.first_cases with hnull | ⟨x, typ, kids', hnode⟩
  · exact hnull ▸ nofun
  · exact hnode ▸ nofun

theorem exists_root (hcons : ∀ w ws, t ≠ .cons w ws) (hx : x ∈ t.ids) : ∃ y, t.root = some y := by
  cases t with
  | null => cases hx
  | node id typ kids => exact ⟨id, rfl⟩
  | cons w ws => exact (hcons w ws rfl).elim

/-- The whole of a definition is in every body that has a node of its body, and that is not its
own. -/
theorem Defines.def_sub (hv : v.ids.Nodup) (ht : Defines v n t) (htv : t.Sub v)
    (hy : t.root = some y) (hdef : (Tree.node id (.tfnd m) kids).Sub v)
    (hroot : kids.first.root = some x) (hx : x ∈ t.ids) (hne : n ≠ m) :
    (Tree.node id (.tfnd m) kids).Sub t := by
  have hmem : x ∈ (Tree.node id (.tfnd m) kids).ids :=
    List.mem_cons_of_mem _ (Tree.first_mem hroot)
  rcases hdef.comparable hv htv hmem hx with hsub | hsub
  · exact hsub
  rcases sub_of_first (hdef.nodup hv) hsub hx hroot with rfl | rfl | rfl
  · exact .refl
  · obtain ⟨typ', kids', ts, rfl, -⟩ := Tree.first_eq hroot
    cases hy
  · obtain ⟨id', kids', hdef', heq⟩ := ht
    have hsame := def_unique hv hdef' hdef (heq ▸ hroot) hroot
    injection hsame with _ htyp _
    injection htyp with hname
    exact (hne hname).elim

/-! ### Invariant -/

/-- What the shell may come to again. -/
def State.Root (s : State) (t : Tree) : Prop :=
  (∃ n, s.namenv n = some t) ∨ (∃ r ∈ s.running, r.tree = t) ∨ t ∈ s.todo

structure Inv (prog : List Tree) (s : State) : Prop where
  todo : ∃ done, prog = done ++ s.todo
  alive : ∀ t, s.Root t → ∀ x ∈ t.ids, s.freed x = false
  names : ∀ n t, s.namenv n = some t → Defines (chain prog) n t
  running : ∀ r ∈ s.running, r.tree.Sub (chain prog) ∧ ∀ t ts, r.tree ≠ .cons t ts
  read : ∀ r ∈ s.running, r.isFunc = false → r.tree ∈ prog
  names_apart : ∀ n t, s.namenv n = some t → ∀ u ∈ s.todo, ∀ x ∈ t.ids, x ∉ u.ids
  running_apart : ∀ r ∈ s.running, ∀ u ∈ s.todo, ∀ x ∈ r.tree.ids, x ∉ u.ids
  cnt : ∀ x, s.cnt x ≠ 0 → s.cnt x = 1 ∧ ∃ n t, s.namenv n = some t ∧ t.root = some x
  owned : ∀ n x id kids, s.namenv n = some kids.first → kids.first.root = some x →
    (Tree.node id (.tfnd n) kids).Sub (chain prog) → s.freed id = false →
    id ∈ (chain prog).inBody → s.cnt x ≠ 0

/-- The body of `n` has no other reference that would be left behind: it is not a part of a
running tree, and no running tree is freed with it. -/
def CanFree (s : State) (n : Name) : Prop :=
  ∀ t x, s.namenv n = some t → t.root = some x → s.cnt x = 0 → ∀ r ∈ s.running,
    x ∉ r.tree.ids ∧ ∀ y, r.tree.root = some y → y ∉ t.takes s.cnt

/-- A body that is in another has been counted. -/
theorem Inv.nested_cnt (hv : (chain prog).ids.Nodup) (h : Inv prog s) (hn : s.namenv n = some t)
    (hm : s.namenv m = some u) (hne : n ≠ m) (hx : t.root = some x) (hmem : x ∈ u.ids) :
    s.cnt x ≠ 0 := by
  have hu := h.names m u hm
  obtain ⟨y, hy⟩ := exists_root hu.ne_cons hmem
  obtain ⟨id, kids, hdef, rfl⟩ := h.names n t hn
  have hsub := hu.def_sub hv hu.sub hy hdef hx hmem hne.symm
  have hid : id ∈ u.ids := hsub.mem (List.mem_cons_self ..)
  obtain ⟨id', kids', hdef', rfl⟩ := hu
  exact h.owned n x id kids hn hx hdef (h.alive _ (.inl ⟨m, hm⟩) id hid)
    (hdef'.mem_inBody ((Tree.first_sub hy).mem hid))

/-! ### Dropping a function -/

theorem drop_none (hn : s.namenv n = none) : Func.drop n s = s := by
  rw [Func.drop, hn]

theorem drop_some (hn : s.namenv n = some t) :
    Func.drop n s = { freetree t s with namenv := Function.update s.namenv n none } := by
  rw [Func.drop, hn]

/-- Nothing that the shell may come to is freed. -/
theorem Inv.kept (hv : (chain prog).ids.Nodup) (h : Inv prog s) (hfree : CanFree s n)
    (hn : s.namenv n = some t)
    (hu : (∃ m, m ≠ n ∧ s.namenv m = some u) ∨ (∃ r ∈ s.running, r.tree = u) ∨ u ∈ s.todo)
    (hx : x ∈ u.ids) : x ∉ t.takes s.cnt := by
  intro htakes
  have ht := h.names n t hn
  have hxt := Tree.takes_sub_ids htakes
  obtain ⟨y, hy⟩ := exists_root ht.ne_cons hxt
  have hnodup := ht.sub.nodup hv
  have hzero : s.cnt y = 0 :=
    Tree.cnt_of_takes (Tree.Sub.takes_root hnodup .refl htakes hxt hy)
  rcases hu with ⟨m, hne, hm⟩ | ⟨r, hr, rfl⟩ | hu
  · have hdef := h.names m u hm
    obtain ⟨z, hz⟩ := exists_root hdef.ne_cons hx
    rcases ht.sub.comparable hv hdef.sub hxt hx with hsub | hsub
    · exact h.nested_cnt hv hn hm hne.symm hy (hsub.mem (Tree.root_mem hy)) hzero
    · exact h.nested_cnt hv hm hn hne hz (hsub.mem (Tree.root_mem hz))
        (Tree.cnt_of_takes (hsub.takes_root hnodup htakes hx hz))
  · obtain ⟨hsubr, hcons⟩ := h.running r hr
    obtain ⟨hout, hroot⟩ := hfree t y hn hy hzero r hr
    obtain ⟨z, hz⟩ := exists_root hcons hx
    rcases ht.sub.comparable hv hsubr hxt hx with hsub | hsub
    · exact hout (hsub.mem (Tree.root_mem hy))
    · exact hroot z hz (hsub.takes_root hnodup htakes hx hz)
  · exact h.names_apart n t hn u hu x hxt hx

theorem update_none {n m : Name} {f : Name → Option Tree}
    (h : Function.update f n none m = some u) : m ≠ n ∧ f m = some u := by
  by_cases hm : m = n
  · rw [hm, Function.update_self] at h
    cases h
  · exact ⟨hm, (Function.update_of_ne hm ..).symm.trans h⟩

theorem Inv.drop (hv : (chain prog).ids.Nodup) (h : Inv prog s) (hfree : CanFree s n) :
    Inv prog (Func.drop n s) := by
  rcases hn : s.namenv n with _ | t
  · rwa [drop_none hn]
  have ht := h.names n t hn
  have hf := freetree_freed (ht.sub.nodup hv) s
  have hkept : ∀ {u x}, (∃ m, m ≠ n ∧ s.namenv m = some u) ∨ (∃ r ∈ s.running, r.tree = u) ∨
      u ∈ s.todo → x ∈ u.ids → (freetree t s).freed x = false := by
    intro u x hu hx
    rw [Bool.eq_false_iff, ne_eq, hf.freed, not_or]
    refine ⟨?_, h.kept hv hfree hn hu hx⟩
    rw [h.alive u (hu.imp_left fun ⟨m, _, hm⟩ => ⟨m, hm⟩) x hx]
    exact nofun
  rw [drop_some hn]
  constructor
  · exact hf.todo ▸ h.todo
  · rintro u (⟨m, hm⟩ | ⟨r, hr, rfl⟩ | hu) x hx
    · obtain ⟨hne, hm⟩ := update_none hm
      exact hkept (.inl ⟨m, hne, hm⟩) hx
    · exact hkept (.inr (.inl ⟨r, hf.running ▸ hr, rfl⟩)) hx
    · exact hkept (.inr (.inr (hf.todo ▸ hu))) hx
  · intro m u hm
    exact h.names m u (update_none hm).2
  · exact hf.running ▸ h.running
  · exact hf.running ▸ h.read
  · intro m u hm
    exact hf.todo ▸ h.names_apart m u (update_none hm).2
  · exact hf.running ▸ hf.todo ▸ h.running_apart
  · intro x hx
    change (freetree t s).cnt x ≠ 0 at hx
    change (freetree t s).cnt x = 1 ∧ ∃ m u, Function.update s.namenv n none m = some u ∧ _
    rw [hf.cnt] at hx ⊢
    split_ifs at hx ⊢ with hlow
    · have hone := (h.cnt x (by omega)).1
      omega
    obtain ⟨hone, m, u, hm, hroot⟩ := h.cnt x hx
    refine ⟨hone, m, u, ?_, hroot⟩
    rw [Function.update_of_ne ?_, hm]
    rintro rfl
    obtain rfl := Option.some.inj (hn.symm.trans hm)
    cases t with
    | null | cons => cases hroot
    | node id typ kids =>
      obtain rfl := Option.some.inj hroot
      exact hlow (by rw [Tree.lowers, if_pos hx]; exact List.mem_singleton.mpr rfl)
  · intro m x id kids hm hroot hdef hfreed hbody
    obtain ⟨hne, hm⟩ := update_none hm
    have hfreed : ¬ (s.freed id = true ∨ id ∈ t.takes s.cnt) :=
      fun hor => nomatch hfreed.symm.trans ((hf.freed id).mpr hor)
    have hcnt := h.owned m x id kids hm hroot hdef
      (Bool.eq_false_iff.mpr fun hid => hfreed (.inl hid)) hbody
    change (freetree t s).cnt x ≠ 0
    rw [hf.cnt, if_neg]
    · exact hcnt
    intro hlow
    have hx := Tree.lowers_sub_ids hlow
    obtain ⟨y, hy⟩ := exists_root ht.ne_cons hx
    have hsub := ht.def_sub hv ht.sub hy hdef hroot hx hne.symm
    have hmem := Tree.first_mem hroot
    refine hfreed (.inr (hsub.lowers_root (ht.sub.nodup hv) hlow
      (List.mem_cons_of_mem _ hmem) rfl ?_))
    rintro rfl
    exact (List.nodup_cons.mp (hdef.nodup hv)).1 hmem

theorem drop_running (hv : (chain prog).ids.Nodup) (h : Inv prog s) :
    (Func.drop n s).running = s.running := by
  rcases hn : s.namenv n with _ | t
  · rw [drop_none hn]
  · rw [drop_some hn]
    exact (freetree_freed ((h.names n t hn).sub.nodup hv) s).running

theorem drop_namenv : (Func.drop n s).namenv n = none := by
  rcases hn : s.namenv n with _ | t
  · rw [drop_none hn, hn]
  · rw [drop_some hn]
    exact Function.update_self ..

/-! ### Defining a function -/

theorem Defines.name_eq (hv : v.ids.Nodup) (hn : Defines v n t) (hm : Defines v m t)
    (hroot : t.root = some x) : n = m := by
  obtain ⟨id, kids, hdef, rfl⟩ := hn
  obtain ⟨id', kids', hdef', heq⟩ := hm
  have hsame := def_unique hv hdef hdef' hroot (heq ▸ hroot)
  injection hsame with _ htyp _
  injection htyp

/-- `fndval` is attached, and counted if a function is running. -/
structure Attached (n : Name) (t : Tree) (s s' : State) : Prop where
  cnt : (s.funcnt = 0 ∧ s'.cnt = s.cnt) ∨
    ∃ x, t.root = some x ∧ s'.cnt = Function.update s.cnt x (s.cnt x + 1)
  freed : s'.freed = s.freed
  namenv : s'.namenv = Function.update s.namenv n (some t)
  running : s'.running = s.running
  todo : s'.todo = s.todo

theorem define_attached (h : Func.define n t s = some s') : Attached n t (Func.drop n s) s' := by
  rw [define] at h
  split_ifs at h with hfun
  · obtain ⟨s₁, hraise, hs⟩ := Option.bind_eq_some_iff.mp h
    obtain rfl := Option.some.inj hs
    cases t with
    | null | cons => cases hraise
    | node x typ kids =>
      rw [State.raise] at hraise
      split_ifs at hraise
      obtain rfl := Option.some.inj hraise
      exact ⟨.inr ⟨x, rfl, rfl⟩, rfl, rfl, rfl, rfl⟩
  · obtain rfl := Option.some.inj h
    exact ⟨.inl ⟨not_not.mp hfun, rfl⟩, rfl, rfl, rfl, rfl⟩

theorem update_some {n m : Name} {f : Name → Option Tree}
    (h : Function.update f n (some t) m = some u) : m = n ∧ u = t ∨ m ≠ n ∧ f m = some u := by
  by_cases hm : m = n
  · rw [hm, Function.update_self] at h
    exact .inl ⟨hm, (Option.some.inj h).symm⟩
  · exact .inr ⟨hm, (Function.update_of_ne hm ..).symm.trans h⟩

theorem Inv.attached (hv : (chain prog).ids.Nodup) (h : Inv prog s) {r : Running}
    (hr : r ∈ s.running) (hdef : (Tree.node id (.tfnd n) kids).Sub r.tree)
    (hout : r.tree.ids.Nodup → id ∉ r.tree.inBody) (hn : s.namenv n = none)
    (ha : Attached n kids.first s s') : Inv prog s' := by
  have hrsub := (h.running r hr).1
  have hdefs : Defines (chain prog) n kids.first := ⟨id, kids, hdef.trans hrsub, rfl⟩
  have hmem : ∀ x ∈ kids.first.ids, x ∈ r.tree.ids := by
    intro x hx
    obtain ⟨y, hy⟩ := exists_root hdefs.ne_cons hx
    exact hdef.mem (List.mem_cons_of_mem _ ((Tree.first_sub hy).mem hx))
  have hnames : ∀ m u, s'.namenv m = some u → m = n ∧ u = kids.first ∨ s.namenv m = some u :=
    fun m u hm => (update_some (ha.namenv ▸ hm)).imp_right And.right
  -- the count of a body that has no name is zero
  have hzero : ∀ x, kids.first.root = some x → s.cnt x = 0 := by
    intro x hroot
    by_contra hne
    obtain ⟨-, m, u, hm, hu⟩ := h.cnt x hne
    have hdef' := h.names m u hm
    have heq := eq_of_root_eq hv hdef'.sub hdefs.sub hu hroot
    rw [hdef'.name_eq hv (heq ▸ hdefs) hu, hn] at hm
    cases hm
  constructor
  · exact ha.todo ▸ h.todo
  · rw [ha.freed]
    rintro u (⟨m, hm⟩ | ⟨r', hr', rfl⟩ | hu) x hx
    · rcases hnames m u hm with ⟨-, rfl⟩ | hm
      · exact h.alive r.tree (.inr (.inl ⟨r, hr, rfl⟩)) x (hmem x hx)
      · exact h.alive u (.inl ⟨m, hm⟩) x hx
    · exact h.alive _ (.inr (.inl ⟨r', ha.running ▸ hr', rfl⟩)) x hx
    · exact h.alive u (.inr (.inr (ha.todo ▸ hu))) x hx
  · intro m u hm
    rcases hnames m u hm with ⟨rfl, rfl⟩ | hm
    · exact hdefs
    · exact h.names m u hm
  · exact ha.running ▸ h.running
  · exact ha.running ▸ h.read
  · rw [ha.todo]
    intro m u hm w hw x hx
    rcases hnames m u hm with ⟨-, rfl⟩ | hm
    · exact h.running_apart r hr w hw x (hmem x hx)
    · exact h.names_apart m u hm w hw x hx
  · exact ha.running ▸ ha.todo ▸ h.running_apart
  · intro x hx
    have hold : s.cnt x ≠ 0 →
        s.cnt x = 1 ∧ ∃ m u, s'.namenv m = some u ∧ u.root = some x := by
      intro hne
      obtain ⟨hone, m, u, hm, hroot⟩ := h.cnt x hne
      refine ⟨hone, m, u, ?_, hroot⟩
      rw [ha.namenv, Function.update_of_ne, hm]
      rintro rfl
      cases hn.symm.trans hm
    rcases ha.cnt with ⟨-, hcnt⟩ | ⟨y, hroot, hcnt⟩
    · rw [hcnt] at hx ⊢
      exact hold hx
    rw [hcnt] at hx ⊢
    by_cases hxy : x = y
    · subst hxy
      rw [Function.update_self, hzero x hroot]
      exact ⟨rfl, n, kids.first, by rw [ha.namenv, Function.update_self], hroot⟩
    · rw [Function.update_of_ne hxy] at hx ⊢
      exact hold hx
  · intro m x id' kids' hm hroot hdef' hfreed hbody
    have hle : s.cnt x ≠ 0 → s'.cnt x ≠ 0 := by
      intro hne
      rcases ha.cnt with ⟨-, hcnt⟩ | ⟨y, -, hcnt⟩
      · rwa [hcnt]
      · rw [hcnt, Function.update_apply]
        split_ifs
        · exact Nat.succ_ne_zero _
        · exact hne
    rcases hnames m _ hm with ⟨rfl, heq⟩ | hm
    · rcases ha.cnt with ⟨hfun, -⟩ | ⟨y, hroot', hcnt⟩
      · -- what has been read has the definition outside of all bodies
        exfalso
        have hfunc : r.isFunc = false := by
          simpa using List.countP_eq_zero.mp hfun r hr
        have hread := h.read r hr hfunc
        have hsame := def_unique hv hdef' (hdef.trans hrsub) hroot (heq ▸ hroot)
        injection hsame with hid _ _
        obtain ⟨w, hw, hbody⟩ := mem_chain_inBody.mp hbody
        obtain rfl := eq_of_mem_both hv hw hread (Tree.inBody_sub_ids hbody)
          (hid ▸ hdef.mem (List.mem_cons_self ..))
        exact hout (hrsub.nodup hv) (hid ▸ hbody)
      · rw [heq, hroot'] at hroot
        obtain rfl := Option.some.inj hroot
        rw [hcnt, Function.update_self]
        exact Nat.succ_ne_zero _
    · exact hle (h.owned m x id' kids' hm hroot hdef' (ha.freed ▸ hfreed) hbody)

/-! ### Runs -/

/-- When a definition, an assignment or `unset` drops a function, its body can be freed. -/
def Ok (s : State) : Act → Prop
  | .define id => ∀ r running d, s.running = r :: running → findDef id r.tree = some d →
      CanFree s d.1
  | .drop n => CanFree s n
  | _ => True

theorem Inv.step (hv : (chain prog).ids.Nodup) (h : Inv prog s) {a : Act} (hok : Ok s a)
    (hstep : Func.step s a = some s') : Inv prog s' := by
  cases a with
  | define id =>
    rw [Func.step] at hstep
    split at hstep
    · cases hstep
    · rename_i r running hrun
      obtain ⟨⟨n, t⟩, hfind, hdefine⟩ := Option.bind_eq_some_iff.mp hstep
      obtain ⟨kids, hdef, rfl, hout⟩ := findDef_some hfind
      have hdrop := h.drop hv (hok r running _ hrun hfind)
      refine hdrop.attached hv ?_ hdef hout drop_namenv (define_attached hdefine)
      rw [drop_running hv h, hrun]
      exact List.mem_cons_self ..
  | drop n =>
    obtain rfl := Option.some.inj hstep
    exact h.drop hv hok
  | call n =>
    obtain ⟨t, hn, rfl⟩ := Option.map_eq_some_iff.mp hstep
    have ht := h.names n t hn
    refine { h with alive := ?_, running := ?_, read := ?_, running_apart := ?_ }
    · rintro u (hu | ⟨r, hr, rfl⟩ | hu) x hx
      · exact h.alive u (.inl hu) x hx
      · rcases List.mem_cons.mp hr with rfl | hr
        · exact h.alive t (.inl ⟨n, hn⟩) x hx
        · exact h.alive _ (.inr (.inl ⟨r, hr, rfl⟩)) x hx
      · exact h.alive u (.inr (.inr hu)) x hx
    · exact List.forall_mem_cons.mpr ⟨⟨ht.sub, ht.ne_cons⟩, h.running⟩
    · exact List.forall_mem_cons.mpr ⟨nofun, h.read⟩
    · exact List.forall_mem_cons.mpr ⟨h.names_apart n t hn, h.running_apart⟩
  | read =>
    rw [Func.step] at hstep
    split at hstep
    · cases hstep
    · cases hstep
    · rename_i t todo hcons htodo
      obtain rfl := Option.some.inj hstep
      obtain ⟨done, hprog⟩ := h.todo
      have ht : t ∈ prog := by
        rw [hprog, htodo]
        exact List.mem_append_right _ (List.mem_cons_self ..)
      have hleft : (chain (t :: todo)).ids.Nodup :=
        (chain_append_sub done _).nodup (htodo ▸ hprog ▸ hv)
      refine { h with todo := ?_, alive := ?_, running := ?_, read := ?_, names_apart := ?_,
                      running_apart := ?_ }
      · exact ⟨done ++ [t], by rw [hprog, htodo, List.append_assoc, List.singleton_append]⟩
      · rintro u (hu | ⟨r, hr, rfl⟩ | hu) x hx
        · exact h.alive u (.inl hu) x hx
        · rcases List.mem_cons.mp hr with rfl | hr
          · exact h.alive t (.inr (.inr (htodo ▸ List.mem_cons_self ..))) x hx
          · exact h.alive _ (.inr (.inl ⟨r, hr, rfl⟩)) x hx
        · exact h.alive u (.inr (.inr (htodo ▸ List.mem_cons_of_mem _ hu))) x hx
      · exact List.forall_mem_cons.mpr ⟨⟨sub_chain ht, hcons⟩,
          h.running⟩
      · exact List.forall_mem_cons.mpr ⟨fun _ => ht, h.read⟩
      · intro m u hm w hw
        exact h.names_apart m u hm w (htodo ▸ List.mem_cons_of_mem _ hw)
      · refine List.forall_mem_cons.mpr ⟨fun w hw x hx hx' => ?_, fun r hr w hw => ?_⟩
        · exact not_mem_both hleft hx ((sub_chain hw).mem hx')
        · exact h.running_apart r hr w (htodo ▸ List.mem_cons_of_mem _ hw)
  | leave =>
    rw [Func.step] at hstep
    split at hstep
    · cases hstep
    · rename_i r running hrun
      obtain rfl := Option.some.inj hstep
      have hsub : ∀ r' ∈ running, r' ∈ s.running := fun r' hr' => hrun ▸ List.mem_cons_of_mem _ hr'
      refine { h with alive := ?_, running := fun r' hr' => h.running r' (hsub r' hr'),
                      read := fun r' hr' => h.read r' (hsub r' hr'),
                      running_apart := fun r' hr' => h.running_apart r' (hsub r' hr') }
      rintro u (hu | ⟨r', hr', rfl⟩ | hu) x hx
      · exact h.alive u (.inl hu) x hx
      · exact h.alive _ (.inr (.inl ⟨r', hsub r' hr', rfl⟩)) x hx
      · exact h.alive u (.inr (.inr hu)) x hx

theorem Inv.start (prog : List Tree) : Inv prog (State.start prog) where
  todo := ⟨[], rfl⟩
  alive _ _ _ _ := rfl
  names := nofun
  running := nofun
  read := nofun
  names_apart := nofun
  running_apart := nofun
  cnt _ h := (h rfl).elim
  owned := nofun

/-- As long as a body can be freed whenever a function is dropped, no node is that the shell may
come to again. -/
theorem bodies_stay (hv : (chain prog).ids.Nodup) (h : Reach step Ok (State.start prog) s) :
    ∀ t, s.Root t → ∀ x ∈ t.ids, s.freed x = false :=
  (h.invariant (Inv.start prog) fun _ _ _ hinv hok hstep => hinv.step hv hok hstep).alive

/-- `for i in 1 2; do f() { :; }; done`. -/
def loop : Tree :=
  .node 1 .tfor (.cons (.node 2 (.tfnd [102]) (.cons (.node 3 .tcom .null) .null)) .null)

theorem bodies_stay_once :
    ∃ s, run step [.read, .define 2] (State.start [loop]) = some s ∧
      ∀ t, s.Root t → ∀ x ∈ t.ids, s.freed x = false := by
  have hok : RunOk step Ok [.read, .define 2] (State.start [loop]) := by
    refine ⟨trivial, fun s hs => ⟨?_, fun _ _ => trivial⟩⟩
    obtain rfl := Option.some.inj hs
    intro r running d _ _ t x hn
    cases hn
  exact ⟨_, rfl, bodies_stay (by decide) (reach_of_run rfl hok)⟩

/-- In the second turn of the loop the definition frees the body that it attaches again. -/
theorem body_freed :
    (chain [loop]).ids.Nodup ∧ ∃ s, Reach step (fun _ _ => True) (State.start [loop]) s ∧
      ¬ ∀ t, s.Root t → ∀ x ∈ t.ids, s.freed x = false := by
  obtain ⟨s, hrun, hs⟩ := exists_of_run_any step [.read, .define 2, .define 2] (State.start [loop])
    (fun s => s.freed 3 ∧ (s.namenv [102]).bind Tree.root = some 3) (by decide)
  obtain ⟨hfreed, hname⟩ := of_decide_eq_true hs
  obtain ⟨t, hn, hroot⟩ := Option.bind_eq_some_iff.mp hname
  refine ⟨by decide, s, reach_of_run hrun (runOk_of_forall (fun _ _ => trivial) _), fun h => ?_⟩
  have hkept := h t (.inl ⟨_, hn⟩) 3 (Tree.root_mem hroot)
  rw [hfreed] at hkept
  cases hkept

end Unitas.Sh.Func
