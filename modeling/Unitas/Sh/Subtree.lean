import Unitas.Sh.Func

/-! Parts of command trees whose nodes are distinct, and what `freetree` makes of them. -/
namespace Unitas.Sh.Func

variable {t u v kids : Tree} {cnt cnt' : Ptr → ℕ} {id x : Ptr} {typ typ' : Typ} {s : State}

inductive Tree.Sub (t : Tree) : Tree → Prop
  | refl : Sub t t
  | node {id : Ptr} {typ : Typ} {kids : Tree} : Sub t kids → Sub t (.node id typ kids)
  | head {u us : Tree} : Sub t u → Sub t (.cons u us)
  | tail {u us : Tree} : Sub t us → Sub t (.cons u us)

theorem Tree.Sub.trans (h : t.Sub u) (h' : u.Sub v) : t.Sub v := by
  induction h' with
  | refl => exact h
  | node _ ih => exact .node ih
  | head _ ih => exact .head ih
  | tail _ ih => exact .tail ih

theorem Tree.Sub.mem (h : t.Sub u) (hx : x ∈ t.ids) : x ∈ u.ids := by
  induction h with
  | refl => exact hx
  | node _ ih => exact List.mem_cons_of_mem _ ih
  | head _ ih => exact List.mem_append_left _ ih
  | tail _ ih => exact List.mem_append_right _ ih

theorem Tree.Sub.nodup (h : t.Sub u) (hu : u.ids.Nodup) : t.ids.Nodup := by
  induction h with
  | refl => exact hu
  | node _ ih => exact ih (List.nodup_cons.mp hu).2
  | head _ ih => exact ih (List.nodup_append.mp hu).1
  | tail _ ih => exact ih (List.nodup_append.mp hu).2.1

theorem Tree.root_mem (h : t.root = some x) : x ∈ t.ids := by
  cases t with
  | node id typ kids =>
    obtain rfl : id = x := Option.some.inj h
    exact List.mem_cons_self ..
  | null | cons t ts => cases h

theorem not_mem_both {t ts : Tree} (h : (Tree.cons t ts).ids.Nodup) (hx : x ∈ t.ids)
    (hx' : x ∈ ts.ids) : False :=
  (List.nodup_append.mp h).2.2 x hx x hx' rfl

/-- Two parts that have a node in common. -/
theorem Tree.Sub.comparable (hv : v.ids.Nodup) (ht : t.Sub v) (hu : u.Sub v) (hx : x ∈ t.ids)
    (hx' : x ∈ u.ids) : t.Sub u ∨ u.Sub t := by
  induction v with
  | null =>
    cases ht
    exact .inr hu
  | node id typ kids ih =>
    cases ht with
    | refl => exact .inr hu
    | node ht =>
      cases hu with
      | refl => exact .inl (.node ht)
      | node hu => exact ih (List.nodup_cons.mp hv).2 ht hu
  | cons w ws ih ihs =>
    obtain ⟨hw, hws, -⟩ := List.nodup_append.mp hv
    cases ht with
    | refl => exact .inr hu
    | head ht =>
      cases hu with
      | refl => exact .inl (.head ht)
      | head hu => exact ih hw ht hu
      | tail hu => exact (not_mem_both hv (ht.mem hx) (hu.mem hx')).elim
    | tail ht =>
      cases hu with
      | refl => exact .inl (.tail ht)
      | head hu => exact (not_mem_both hv (hu.mem hx') (ht.mem hx)).elim
      | tail hu => exact ihs hws ht hu

theorem Tree.Sub.eq_of_root (hu : u.ids.Nodup) (h : t.Sub u) (hx : x ∈ t.ids)
    (hroot : u.root = some x) : t = u := by
  cases h with
  | refl => rfl
  | node h =>
    obtain rfl := Option.some.inj hroot
    exact ((List.nodup_cons.mp hu).1 (h.mem hx)).elim
  | head | tail => cases hroot

/-- A node begins one part at most. -/
theorem eq_of_root_eq (hv : v.ids.Nodup) (ht : t.Sub v) (hu : u.Sub v) (hx : t.root = some x)
    (hx' : u.root = some x) : t = u := by
  rcases ht.comparable hv hu (Tree.root_mem hx) (Tree.root_mem hx') with h | h
  · exact h.eq_of_root (hu.nodup hv) (Tree.root_mem hx) hx'
  · exact (h.eq_of_root (ht.nodup hv) (Tree.root_mem hx') hx).symm

theorem Tree.first_eq (h : kids.first.root = some x) : ∃ typ' kids' ts,
    kids = .cons (.node x typ' kids') ts ∧ kids.first = .node x typ' kids' := by
  cases kids with
  | null | node => cases h
  | cons t ts =>
    cases t with
    | null | cons => cases h
    | node id typ kids =>
      obtain rfl := Option.some.inj h
      exact ⟨typ, kids, ts, rfl, rfl⟩

theorem Tree.first_sub (h : kids.first.root = some x) : kids.first.Sub kids := by
  obtain ⟨typ', kids', ts, rfl, -⟩ := Tree.first_eq h
  exact .head .refl

theorem Tree.first_mem (h : kids.first.root = some x) : x ∈ kids.ids :=
  (Tree.first_sub h).mem (Tree.root_mem h)

/-- A part with the node that begins the first of some trees has all of it, or is it. -/
theorem sub_of_first (hv : (Tree.node id typ kids).ids.Nodup) (ht : t.Sub (.node id typ kids))
    (hx : x ∈ t.ids) (hroot : kids.first.root = some x) :
    t = .node id typ kids ∨ t = kids ∨ t = kids.first := by
  obtain ⟨typ', kids', ts, rfl, hfirst⟩ := Tree.first_eq hroot
  rw [hfirst] at hroot ⊢
  cases ht with
  | refl => exact .inl rfl
  | node ht =>
    have hkids := (List.nodup_cons.mp hv).2
    cases ht with
    | refl => exact .inr (.inl rfl)
    | head ht => exact .inr (.inr (ht.eq_of_root (List.nodup_append.mp hkids).1 hx hroot))
    | tail ht => exact (not_mem_both hkids (Tree.root_mem hroot) (ht.mem hx)).elim

/-- A body has one definition. -/
theorem def_unique {id' : Ptr} {kids' : Tree} (hv : v.ids.Nodup)
    (h : (Tree.node id typ kids).Sub v) (h' : (Tree.node id' typ' kids').Sub v)
    (hroot : kids.first.root = some x) (hroot' : kids'.first.root = some x) :
    Tree.node id typ kids = .node id' typ' kids' := by
  have hmem : ∀ {id typ kids}, kids.first.root = some x → x ∈ (Tree.node id typ kids).ids :=
    fun hroot => List.mem_cons_of_mem _ (Tree.first_mem hroot)
  have hone : ∀ {id typ kids id' typ' kids'}, (Tree.node id' typ' kids').Sub v →
      kids.first.root = some x → kids'.first.root = some x →
      (Tree.node id typ kids).Sub (.node id' typ' kids') →
      Tree.node id typ kids = .node id' typ' kids' := by
    intro id typ kids id' typ' kids' h' hroot hroot' hsub
    rcases sub_of_first (h'.nodup hv) hsub (hmem hroot) hroot' with heq | heq | heq
    · exact heq
    · rw [← heq] at hroot'
      cases hroot'
    · rw [← heq] at hroot'
      obtain rfl := Option.some.inj hroot'
      exact ((List.nodup_cons.mp ((hsub.trans h').nodup hv)).1 (Tree.first_mem hroot)).elim
  rcases h.comparable hv h' (hmem hroot) (hmem hroot') with hsub | hsub
  · exact hone h' hroot hroot' hsub
  · exact (hone h hroot' hroot hsub).symm

/-! ### Freeing -/

/-- The nodes that `freetree` passes to `free`. -/
def Tree.takes (cnt : Ptr → ℕ) : Tree → List Ptr
  | null => []
  | node id _ kids => if cnt id ≠ 0 then [] else id :: kids.takes cnt
  | cons t ts => t.takes cnt ++ ts.takes cnt

/-- The nodes whose count it lowers. -/
def Tree.lowers (cnt : Ptr → ℕ) : Tree → List Ptr
  | null => []
  | node id _ kids => if cnt id ≠ 0 then [id] else kids.lowers cnt
  | cons t ts => t.lowers cnt ++ ts.lowers cnt

theorem Tree.takes_sub_ids (h : x ∈ t.takes cnt) : x ∈ t.ids := by
  induction t with
  | null => exact h
  | node id typ kids ih =>
    rw [Tree.takes] at h
    split_ifs at h
    · cases h
    · exact (List.mem_cons.mp h).elim (fun hx => hx ▸ List.mem_cons_self ..)
        fun hx => List.mem_cons_of_mem _ (ih hx)
  | cons t ts ih ihs => exact List.mem_append.mpr ((List.mem_append.mp h).imp ih ihs)

theorem Tree.lowers_sub_ids (h : x ∈ t.lowers cnt) : x ∈ t.ids := by
  induction t with
  | null => exact h
  | node id typ kids ih =>
    rw [Tree.lowers] at h
    split_ifs at h
    · rw [List.mem_singleton.mp h]
      exact List.mem_cons_self ..
    · exact List.mem_cons_of_mem _ (ih h)
  | cons t ts ih ihs => exact List.mem_append.mpr ((List.mem_append.mp h).imp ih ihs)

theorem Tree.takes_congr (h : ∀ x ∈ t.ids, cnt' x = cnt x) : t.takes cnt' = t.takes cnt := by
  induction t with
  | null => rfl
  | node id typ kids ih =>
    rw [Tree.takes, Tree.takes, h id (List.mem_cons_self ..),
      ih fun x hx => h x (List.mem_cons_of_mem _ hx)]
  | cons t ts ih ihs =>
    rw [Tree.takes, Tree.takes, ih fun x hx => h x (List.mem_append_left _ hx),
      ihs fun x hx => h x (List.mem_append_right _ hx)]

theorem Tree.lowers_congr (h : ∀ x ∈ t.ids, cnt' x = cnt x) : t.lowers cnt' = t.lowers cnt := by
  induction t with
  | null => rfl
  | node id typ kids ih =>
    rw [Tree.lowers, Tree.lowers, h id (List.mem_cons_self ..),
      ih fun x hx => h x (List.mem_cons_of_mem _ hx)]
  | cons t ts ih ihs =>
    rw [Tree.lowers, Tree.lowers, ih fun x hx => h x (List.mem_append_left _ hx),
      ihs fun x hx => h x (List.mem_append_right _ hx)]

/-- What `freetree` has made of a state. -/
structure Freed (t : Tree) (s s' : State) : Prop where
  freed : ∀ x, s'.freed x = true ↔ s.freed x = true ∨ x ∈ t.takes s.cnt
  cnt : ∀ x, s'.cnt x = if x ∈ t.lowers s.cnt then s.cnt x - 1 else s.cnt x
  namenv : s'.namenv = s.namenv
  running : s'.running = s.running
  todo : s'.todo = s.todo

theorem freetree_freed (h : t.ids.Nodup) (s : State) : Freed t s (freetree t s) := by
  induction t generalizing s with
  | null => exact ⟨by simp [freetree, Tree.takes], by simp [freetree, Tree.lowers], rfl, rfl, rfl⟩
  | node id typ kids ih =>
    obtain ⟨-, hkids⟩ := List.nodup_cons.mp h
    have ih := ih hkids s
    by_cases hzero : s.cnt id ≠ 0
    · rw [freetree, if_pos hzero]
      refine ⟨fun x => ?_, fun x => ?_, rfl, rfl, rfl⟩
      · simp [Tree.takes, hzero, State.lower]
      · by_cases hx : x = id
        · simp [Tree.lowers, hzero, State.lower, hx]
        · simp [Tree.lowers, hzero, State.lower, hx]
    · rw [freetree, if_neg hzero]
      refine ⟨fun x => ?_, fun x => ?_, ih.namenv, ih.running, ih.todo⟩
      · by_cases hx : x = id
        · simp [Tree.takes, hzero, State.free, hx]
        · simp [Tree.takes, hzero, State.free, hx, ih.freed]
      · rw [Tree.lowers, if_neg hzero]
        exact ih.cnt x
  | cons t ts ih ihs =>
    obtain ⟨ht, hts, -⟩ := List.nodup_append.mp h
    have ih := ih ht s
    have ihs := ihs hts (freetree t s)
    have hsame : ∀ x ∈ ts.ids, (freetree t s).cnt x = s.cnt x := by
      intro x hx
      rw [ih.cnt, if_neg fun hlow => not_mem_both h (Tree.lowers_sub_ids hlow) hx]
    rw [freetree]
    refine ⟨fun x => ?_, fun x => ?_, ihs.namenv.trans ih.namenv, ihs.running.trans ih.running,
      ihs.todo.trans ih.todo⟩
    · rw [ihs.freed, ih.freed, Tree.takes_congr hsame, Tree.takes, List.mem_append, or_assoc]
    · rw [ihs.cnt, Tree.lowers_congr hsame, Tree.lowers]
      by_cases hx : x ∈ ts.lowers s.cnt
      · have hout : x ∉ t.lowers s.cnt := fun hlow =>
          not_mem_both h (Tree.lowers_sub_ids hlow) (Tree.lowers_sub_ids hx)
        simp [hx, hsame x (Tree.lowers_sub_ids hx)]
      · simp [hx, ih.cnt]

/-- With a node of a part, `freetree` frees the part from its root on. -/
theorem Tree.Sub.takes_root (ht : t.ids.Nodup) (h : u.Sub t) (hx : x ∈ t.takes cnt)
    (hu : x ∈ u.ids) (hroot : u.root = some id) : id ∈ t.takes cnt := by
  induction t with
  | null =>
    cases hx
  | node id' typ kids ih =>
    rw [Tree.takes] at hx ⊢
    split_ifs at hx ⊢ with hzero
    · cases hx
    · cases h with
      | refl =>
        obtain rfl := Option.some.inj hroot
        exact List.mem_cons_self ..
      | node h =>
        rcases List.mem_cons.mp hx with rfl | hx
        · exact ((List.nodup_cons.mp ht).1 (h.mem hu)).elim
        · exact List.mem_cons_of_mem _ (ih (List.nodup_cons.mp ht).2 h hx)
  | cons w ws ih ihs =>
    obtain ⟨hw, hws, -⟩ := List.nodup_append.mp ht
    rw [Tree.takes] at hx ⊢
    cases h with
    | refl => cases hroot
    | head h =>
      refine List.mem_append_left _ (ih hw h ((List.mem_append.mp hx).resolve_right fun hx => ?_))
      exact not_mem_both ht (h.mem hu) (Tree.takes_sub_ids hx)
    | tail h =>
      refine List.mem_append_right _ (ihs hws h ((List.mem_append.mp hx).resolve_left fun hx => ?_))
      exact not_mem_both ht (Tree.takes_sub_ids hx) (h.mem hu)

/-- With a node that is not its root, `freetree` reaches a part through its root. -/
theorem Tree.Sub.lowers_root (ht : t.ids.Nodup) (h : u.Sub t) (hx : x ∈ t.lowers cnt)
    (hu : x ∈ u.ids) (hroot : u.root = some id) (hne : id ≠ x) : id ∈ t.takes cnt := by
  induction t with
  | null => cases hx
  | node id' typ kids ih =>
    rw [Tree.lowers] at hx
    rw [Tree.takes]
    split_ifs at hx ⊢ with hzero
    · obtain rfl := List.mem_singleton.mp hx
      exact (hne (Option.some.inj (hroot.symm.trans
        (congrArg Tree.root (h.eq_of_root ht hu rfl))))).elim
    · cases h with
      | refl =>
        obtain rfl := Option.some.inj hroot
        exact List.mem_cons_self ..
      | node h => exact List.mem_cons_of_mem _ (ih (List.nodup_cons.mp ht).2 h hx)
  | cons w ws ih ihs =>
    obtain ⟨hw, hws, -⟩ := List.nodup_append.mp ht
    rw [Tree.lowers] at hx
    rw [Tree.takes]
    cases h with
    | refl => cases hroot
    | head h =>
      refine List.mem_append_left _ (ih hw h ((List.mem_append.mp hx).resolve_right fun hx => ?_))
      exact not_mem_both ht (h.mem hu) (Tree.lowers_sub_ids hx)
    | tail h =>
      refine List.mem_append_right _ (ihs hws h ((List.mem_append.mp hx).resolve_left fun hx => ?_))
      exact not_mem_both ht (Tree.lowers_sub_ids hx) (h.mem hu)

theorem Tree.cnt_of_takes (h : x ∈ t.takes cnt) : cnt x = 0 := by
  induction t with
  | null => cases h
  | node id typ kids ih =>
    rw [Tree.takes] at h
    split_ifs at h with hzero
    · cases h
    · rcases List.mem_cons.mp h with rfl | h
      · exact not_not.mp hzero
      · exact ih h
  | cons t ts ih ihs => exact (List.mem_append.mp h).elim ih ihs

/-! ### Bodies -/

/-- The nodes in the bodies of functions. -/
def Tree.inBody : Tree → List Ptr
  | null => []
  | node _ (.tfnd _) kids => kids.ids
  | node _ _ kids => kids.inBody
  | cons t ts => t.inBody ++ ts.inBody

theorem Tree.inBody_sub_ids (h : x ∈ t.inBody) : x ∈ t.ids := by
  induction t with
  | null => exact h
  | node id typ kids ih =>
    cases typ with
    | tfnd n => exact List.mem_cons_of_mem _ h
    | _ => exact List.mem_cons_of_mem _ (ih h)
  | cons t ts ih ihs => exact List.mem_append.mpr ((List.mem_append.mp h).imp ih ihs)

theorem Tree.Sub.mem_inBody {n : Name} (h : (Tree.node id (.tfnd n) kids).Sub v)
    (hx : x ∈ kids.ids) : x ∈ v.inBody := by
  induction v with
  | null => cases h
  | node id' typ kids' ih =>
    cases h with
    | refl => exact hx
    | node h =>
      cases typ with
      | tfnd n => exact h.mem (List.mem_cons_of_mem _ hx)
      | _ => exact ih h
  | cons t ts ih ihs =>
    cases h with
    | head h => exact List.mem_append_left _ (ih h)
    | tail h => exact List.mem_append_right _ (ihs h)

theorem findDef_some {n : Name} {val : Tree} (h : findDef id t = some (n, val)) :
    ∃ kids, (Tree.node id (.tfnd n) kids).Sub t ∧ kids.first = val ∧
      (t.ids.Nodup → id ∉ t.inBody) := by
  induction t with
  | null => cases h
  | node id' typ kids ih =>
    have hother : findDef id kids = some (n, val) →
        ∃ kids', (Tree.node id (.tfnd n) kids').Sub (.node id' typ kids) ∧ kids'.first = val ∧
          ((Tree.node id' typ kids).ids.Nodup → id ∉ kids.inBody) := by
      intro h
      obtain ⟨kids', hsub, hval, hout⟩ := ih h
      exact ⟨kids', .node hsub, hval, fun hnodup => hout (List.nodup_cons.mp hnodup).2⟩
    cases typ with
    | tfnd fndnam =>
      rw [findDef] at h
      split_ifs at h with hid
      cases h
      exact ⟨kids, hid ▸ .refl, rfl, fun hnodup => hid ▸ (List.nodup_cons.mp hnodup).1⟩
    | _ => exact hother h
  | cons t ts ih ihs =>
    rw [findDef] at h
    rcases Option.or_eq_some_iff.mp h with h | ⟨-, h⟩
    · obtain ⟨kids, hsub, hval, hout⟩ := ih h
      refine ⟨kids, .head hsub, hval, fun hnodup hmem => ?_⟩
      rcases List.mem_append.mp hmem with hmem | hmem
      · exact hout (List.nodup_append.mp hnodup).1 hmem
      · exact not_mem_both hnodup (hsub.mem (List.mem_cons_self ..)) (Tree.inBody_sub_ids hmem)
    · obtain ⟨kids, hsub, hval, hout⟩ := ihs h
      refine ⟨kids, .tail hsub, hval, fun hnodup hmem => ?_⟩
      rcases List.mem_append.mp hmem with hmem | hmem
      · exact not_mem_both hnodup (Tree.inBody_sub_ids hmem) (hsub.mem (List.mem_cons_self ..))
      · exact hout (List.nodup_append.mp hnodup).2.1 hmem

end Unitas.Sh.Func
