import Unitas.Dc.Remainder

/-! The arrays of `dc`, as words of pointers in blocks that are allocated, copied and released. -/
namespace Unitas.Dc.Arrays

open Function CInt Radix

def BC_DIM_MAX : ℤ := 2048

/-- Array elements a block is given beyond the one it is made for. -/
def PTRSZ : ℕ := 8

/-- `struct wblk`, in words from `begw` on. The words from `lastw` on are not part of the block,
and can be anything. -/
structure WBlk where
  words : ℕ → Option ℕ
  rdw : ℕ
  wtw : ℕ
  lastw : ℕ

/-- A number or a string with its last byte, or an array. -/
inductive Block
  | bytes (b : Blk)
  | array (w : WBlk)

/-- The blocks in use by their headers, the headers that are not in use, the stack and the one
array register, if it has been made. No header from `made` on has been made by `morehd`. -/
structure State where
  heap : ℕ → Option Block
  hfree : List ℕ
  made : ℕ
  stack : List ℕ
  val : Option ℕ

def init : State := ⟨fun _ => none, [], 0, [], none⟩

/-- `HEADSZ/BLK` -/
def headers : ℕ := 32

/-- A header off `hfree`, which `morehd` fills when there is none. The blocks that `div` takes and
gives back on its way are not here. -/
def header (s : State) : ℕ × State :=
  match s.hfree with
  | h :: hfree => (h, { s with hfree })
  | [] => (s.made, { s with
      hfree := List.range' (s.made + 1) (headers - 1), made := s.made + headers })

def alloc (s : State) (b : Block) : ℕ × State :=
  ((header s).1, { (header s).2 with
    heap := update (header s).2.heap (header s).1 (some b) })

/-- `none` for a block that is not in use. -/
def release (s : State) (h : ℕ) : Option State :=
  (s.heap h).map fun _ => { s with heap := update s.heap h none, hfree := h :: s.hfree }

def pushp (s : State) (h : ℕ) : State :=
  if s.stack.length = 100 then s else { s with stack := h :: s.stack }

/-- What is in memory that has just been allocated, and after the end of a block. -/
abbrev Junk := ℕ → Option ℕ

/-- `salloc` and `zero` -/
def WBlk.zeroed (junk : Junk) (size : ℕ) : WBlk :=
  ⟨fun i => if i < size then none else junk i, 0, 0, size⟩

/-- `copy` takes `size` words, whether or not the block has them, and clears those after `wt`. -/
def WBlk.copy (junk : Junk) (w : WBlk) (size : ℕ) : WBlk :=
  ⟨fun i => if i < size then (if i < w.wtw then w.words i else none) else junk i, 0, w.wtw, size⟩

def WBlk.seekc (junk : Junk) (w : WBlk) (n : ℕ) : WBlk :=
  if w.lastw < n then ⟨fun i => if i < w.lastw then w.words i else junk i, n, n, n⟩
  else { w with rdw := n, wtw := max w.wtw n }

def WBlk.lookwd (w : WBlk) : Option ℕ := if w.rdw = w.wtw then none else w.words w.rdw

def WBlk.getwd (w : WBlk) : Option ℕ × WBlk :=
  if w.rdw = w.wtw then (none, w) else (w.words w.rdw, { w with rdw := w.rdw + 1 })

def WBlk.more (junk : Junk) (w : WBlk) : WBlk :=
  { w with words := fun i => if i < w.lastw then w.words i else junk i, lastw := w.lastw * 2 }

def WBlk.salterwd (junk : Junk) (w : WBlk) (n : ℕ) : WBlk :=
  let w := if w.rdw = w.lastw then w.more junk else w
  { w with
    words := update w.words w.rdw (some n), rdw := w.rdw + 1, wtw := max w.wtw (w.rdw + 1) }

/-- A number without its last `n` decimals. -/
def removc (divxyz p : Blk) (n : ℕ) : Except Failure Blk :=
  if n % 2 = 1 then (div divxyz (p.drop (n / 2)) tenptr).map Division.q
  else .ok (p.drop (n / 2))

def scalint (divxyz b : Blk) : Except Failure Blk :=
  removc divxyz b.dropLast (b.getLastD 0).toNat

/-- The loop over the digits of an index, from the highest. -/
def indexFrom : List ℤ → ℤ → ℤ → ℤ
  | [], c, _ => c
  | d :: ds, c, scalev =>
    if c < BC_DIM_MAX then indexFrom ds (c * (scalev * 100) + d) (scalev * 100) else c

/-- `none` for an index that is refused. -/
def indexOf (q : Blk) : Option ℕ :=
  match q.reverse with
  | [] => some 0
  | d :: ds =>
    if d < 0 then none
    else if BC_DIM_MAX ≤ indexFrom ds d 1 then none
    else some (indexFrom ds d 1).toNat

/-- The index on top of the stack. Only one that is not refused has its block released. -/
def popIndex (divxyz : Blk) (s : State) : Option (Option ℕ × State) :=
  match s.stack with
  | [] => none
  | h :: stack =>
    match s.heap h with
    | some (.bytes b) =>
      match scalint divxyz b with
      | .error _ => none
      | .ok q =>
        let (h', s) := alloc { s with stack } (.bytes q)
        (release s h).bind fun s =>
          match indexOf q with
          | none => some (none, s)
          | some c => (release s h').map fun s => (some c, s)
    | _ => none

/-- The block of the register with room for element `c`, and its header. The comparison is made
with unsigned numbers. -/
def room (junk : Junk) (c : ℕ) (s : State) : Option (ℕ × WBlk × State) :=
  match s.val with
  | none =>
    let w := WBlk.zeroed junk (c + PTRSZ)
    let (p, s) := alloc s (.array w)
    some (p, w, s)
  | some p =>
    match s.heap p with
    | some (.array w) =>
      if uwrap 64 (PTRSZ * w.wtw - PTRSZ) < PTRSZ * c then
        let w := w.copy junk (c + PTRSZ)
        let (q, s) := alloc s (.array w)
        (release s p).map fun s => (q, w, s)
      else some (p, w, s)
    | _ => none

/-- The element that is written over. -/
def releaseWord (s : State) : Option ℕ → Option State
  | none => some s
  | some q => release s q

/-- `:` with its operands. -/
def store (divxyz : Blk) (junk : Junk) (s : State) : Option State :=
  (popIndex divxyz s).bind fun
    | (none, s) => some s
    | (some c, s) =>
      (room junk c s).bind fun (p, w, s) =>
        let w := w.seekc junk c
        (releaseWord s w.lookwd).bind fun s =>
          match s.stack with
          | [] => none
          | v :: stack => some { s with
              heap := update s.heap p (some (.array (w.salterwd junk v))), stack, val := some p }

/-- `q = salloc(1)` and a byte 0. -/
def pushZero (s : State) : State :=
  let (q, s) := alloc s (.bytes [0])
  pushp s q

/-- `;` with its operand. -/
def load (divxyz : Blk) (junk : Junk) (s : State) : Option State :=
  (popIndex divxyz s).bind fun
    | (none, s) => some s
    | (some c, s) =>
      match s.val with
      | none => some (pushZero s)
      | some p =>
        match s.heap p with
        | some (.array w) =>
          if PTRSZ * c ≤ uwrap 64 (PTRSZ * w.wtw - PTRSZ) then
            let r := (w.seekc junk c).getwd
            let s := { s with heap := update s.heap p (some (.array r.2)) }
            match r.1 with
            | none => some (pushZero s)
            | some e =>
              match s.heap e with
              | some (.bytes b) =>
                let (q, s) := alloc s (.bytes b)
                some (pushp s q)
              | _ => none
          else some (pushZero s)
        | _ => none

/-- Something is pushed, a block goes off the stack, or the array is used. -/
inductive Cmd
  | push (b : Blk)
  | drop
  | store
  | load

def step (divxyz : Blk) (junk : Junk) (s : State) : Cmd → Option State
  | .push b =>
    let (h, s) := alloc s (.bytes b)
    some (pushp s h)
  | .drop =>
    match s.stack with
    | [] => some s
    | h :: stack => release { s with stack } h
  | .store => store divxyz junk s
  | .load => load divxyz junk s

/-! ### The map -/

/-- The stack with what is in its blocks, and what has been stored. -/
structure Abs where
  stack : List Blk
  map : ℕ → Option Blk

/-- A number whose integer part is `i`, as `dc` has its numbers: zero may have digits. -/
def IsIndex (b : Blk) (i : ℕ) : Prop :=
  ∃ digits, ∃ sc : ℕ, b = digits ++ [(sc : ℤ)] ∧
    (Normal digits ∨ ∃ n : ℕ, digits = List.replicate n 0) ∧
    0 ≤ value 100 digits ∧ value 100 digits / 10 ^ sc = i ∧ i < 2048

/-- What the commands do to a map, on a stack with room and with their operands. -/
inductive Abs.Step : Abs → Cmd → Abs → Prop
  | push {b stack map} (h : stack.length < 99) : Step ⟨stack, map⟩ (.push b) ⟨b :: stack, map⟩
  | drop {b stack map} : Step ⟨b :: stack, map⟩ .drop ⟨stack, map⟩
  | store {b v stack map i} (h : IsIndex b i) :
      Step ⟨b :: v :: stack, map⟩ .store ⟨stack, update map i (some v)⟩
  | load {b stack map i} (h : IsIndex b i) :
      Step ⟨b :: stack, map⟩ .load ⟨(map i).getD [0] :: stack, map⟩

/-! ### Headers -/

/-- The headers that are not in use have no blocks. -/
structure Free (s : State) : Prop where
  nodup : s.hfree.Nodup
  hfree : ∀ h ∈ s.hfree, s.heap h = none ∧ h < s.made
  made : ∀ h, s.made ≤ h → s.heap h = none

theorem alloc_spec {s : State} (hf : Free s) (b : Block) :
    s.heap (alloc s b).1 = none ∧ (alloc s b).2.heap = update s.heap (alloc s b).1 (some b) ∧
      (alloc s b).2.stack = s.stack ∧ (alloc s b).2.val = s.val ∧ Free (alloc s b).2 := by
  unfold alloc header
  cases hfree : s.hfree with
  | cons h hs =>
    have hnodup := hf.nodup
    have hmem := hf.hfree
    rw [hfree] at hnodup hmem
    obtain ⟨hnot, hnodup⟩ := List.nodup_cons.mp hnodup
    obtain ⟨hnone, hlt⟩ := hmem h List.mem_cons_self
    refine ⟨hnone, rfl, rfl, rfl, ⟨hnodup, fun k hk => ?_, fun k hk => ?_⟩⟩
    · obtain ⟨hk', hlt'⟩ := hmem k (List.mem_cons_of_mem _ hk)
      have hne : k ≠ h := fun heq => hnot (heq ▸ hk)
      exact ⟨(update_of_ne hne _ _).trans hk', hlt'⟩
    · have hge : s.made ≤ k := hk
      have hne : k ≠ h := by omega
      exact (update_of_ne hne _ _).trans (hf.made k hge)
  | nil =>
    refine ⟨hf.made _ le_rfl, rfl, rfl, rfl, ⟨List.nodup_range', fun k hk => ?_, fun k hk => ?_⟩⟩
    · have hk' : k ∈ List.range' (s.made + 1) (headers - 1) := hk
      rw [List.mem_range'_1] at hk'
      unfold headers at hk'
      have hne : k ≠ s.made := by omega
      refine ⟨(update_of_ne hne _ _).trans (hf.made k (by omega)), ?_⟩
      show k < s.made + headers
      unfold headers
      omega
    · have hge : s.made + headers ≤ k := hk
      unfold headers at hge
      have hne : k ≠ s.made := by omega
      exact (update_of_ne hne _ _).trans (hf.made k (by omega))

theorem release_spec {s : State} (hf : Free s) {h : ℕ} {b : Block} (hh : s.heap h = some b) :
    ∃ s', release s h = some s' ∧ s'.heap = update s.heap h none ∧ s'.stack = s.stack ∧
      s'.val = s.val ∧ Free s' := by
  have hnot : h ∉ s.hfree := by
    intro hmem
    rw [(hf.hfree h hmem).1] at hh
    exact absurd hh (by simp)
  have hlt : h < s.made := by
    by_contra hge
    rw [hf.made h (by omega)] at hh
    exact absurd hh (by simp)
  unfold release
  rw [hh]
  refine ⟨_, rfl, rfl, rfl, rfl, ⟨List.nodup_cons.mpr ⟨hnot, hf.nodup⟩, fun k hk => ?_,
    fun k hk => ?_⟩⟩
  · rcases List.mem_cons.mp hk with rfl | hk
    · exact ⟨update_self _ _ _, hlt⟩
    · obtain ⟨hk', hlt'⟩ := hf.hfree k hk
      have hne : k ≠ h := fun heq => hnot (heq ▸ hk)
      exact ⟨(update_of_ne hne _ _).trans hk', hlt'⟩
  · have hge : s.made ≤ k := hk
    have hne : k ≠ h := by omega
    exact (update_of_ne hne _ _).trans (hf.made k hge)

/-- A block in use is changed. -/
theorem Free.put {s : State} (hf : Free s) {h : ℕ} {b : Block} (hh : s.heap h = some b)
    (b' : Block) (stack : List ℕ) (val : Option ℕ) :
    Free { s with heap := update s.heap h (some b'), stack := stack, val := val } := by
  have hne : ∀ k, s.heap k = none → k ≠ h := by
    rintro k hk rfl
    rw [hk] at hh
    exact absurd hh (by simp)
  refine ⟨hf.nodup, fun k hk => ?_, fun k hk => ?_⟩
  · obtain ⟨hnone, hlt⟩ := hf.hfree k hk
    exact ⟨(update_of_ne (hne k hnone) _ _).trans hnone, hlt⟩
  · have hnone := hf.made k hk
    exact (update_of_ne (hne k hnone) _ _).trans hnone

/-! ### What is in the blocks -/

/-- The words of the array hold what has been stored, each in a block of its own that is not on
the stack. -/
structure Words (heap : ℕ → Option Block) (stack : List ℕ) (w : WBlk) (map : ℕ → Option Blk) :
    Prop where
  le : w.wtw ≤ w.lastw
  elem : ∀ i, i < w.wtw → ∀ e, w.words i = some e →
    e ∉ stack ∧ ∃ b, heap e = some (.bytes b) ∧ map i = some b
  hole : ∀ i, i < w.wtw → w.words i = none → map i = none
  past : ∀ i, w.wtw ≤ i → map i = none
  inj : ∀ i j e, i < w.wtw → j < w.wtw → w.words i = some e → w.words j = some e → i = j

/-- The array is not made before something is stored in it, and has a word then. -/
def Elements (heap : ℕ → Option Block) (stack : List ℕ) (map : ℕ → Option Blk) : Option ℕ → Prop
  | none => ∀ i, map i = none
  | some p => ∃ w, heap p = some (.array w) ∧ 1 ≤ w.wtw ∧ w.wtw ≤ 2048 ∧ Words heap stack w map

/-- What is on the stack, each value in a block of its own, and what is in the array. -/
structure View (heap : ℕ → Option Block) (stack : List ℕ) (val : Option ℕ) (a : Abs) : Prop where
  blocks : List.Forall₂ (fun h b => heap h = some (.bytes b)) stack a.stack
  nodup : stack.Nodup
  elements : Elements heap stack a.map val

theorem Words.frame {heap heap' : ℕ → Option Block} {stack stack' : List ℕ} {w : WBlk}
    {map : ℕ → Option Blk} (h : Words heap stack w map)
    (hheap : ∀ i e b, i < w.wtw → w.words i = some e → e ∉ stack → heap e = some (.bytes b) →
      heap' e = some (.bytes b) ∧ e ∉ stack') : Words heap' stack' w map := by
  refine ⟨h.le, fun i hi e he => ?_, h.hole, h.past, h.inj⟩
  obtain ⟨hnot, b, hb, hmap⟩ := h.elem i hi e he
  obtain ⟨hb', hnot'⟩ := hheap i e b hi he hnot hb
  exact ⟨hnot', b, hb', hmap⟩

theorem forall₂_frame {heap heap' : ℕ → Option Block} {stack : List ℕ} {bs : List Blk}
    (h : List.Forall₂ (fun h b => heap h = some (.bytes b)) stack bs)
    (hheap : ∀ x ∈ stack, heap' x = heap x) :
    List.Forall₂ (fun h b => heap' h = some (.bytes b)) stack bs := by
  induction h with
  | nil => exact .nil
  | cons hx _ ih =>
    refine .cons ((hheap _ List.mem_cons_self).trans hx) (ih fun y hy => ?_)
    exact hheap y (List.mem_cons_of_mem _ hy)

/-- The block on top of the stack is released. -/
theorem View.pop {heap : ℕ → Option Block} {h : ℕ} {stack : List ℕ} {val : Option ℕ} {b : Blk}
    {bs : List Blk} {map : ℕ → Option Blk} (hv : View heap (h :: stack) val ⟨b :: bs, map⟩) :
    View (update heap h none) stack val ⟨bs, map⟩ := by
  obtain ⟨hstack, hnodup, helements⟩ := hv
  obtain ⟨hb, hrest⟩ := List.forall₂_cons.mp hstack
  obtain ⟨hnot, hnodup⟩ := List.nodup_cons.mp hnodup
  refine ⟨forall₂_frame hrest fun x hx => update_of_ne (by rintro rfl; exact hnot hx) _ _, hnodup, ?_⟩
  cases val with
  | none => exact helements
  | some p =>
    obtain ⟨w, hw, hpos, hle, hwords⟩ := helements
    have hne : p ≠ h := by
      rintro rfl
      rw [hw] at hb
      exact absurd hb (by simp)
    refine ⟨w, (update_of_ne hne _ _).trans hw, hpos, hle, hwords.frame fun i e b _ _ hnot hb => ?_⟩
    obtain ⟨hne, hnot⟩ := List.ne_and_not_mem_of_not_mem_cons hnot
    exact ⟨(update_of_ne hne _ _).trans hb, hnot⟩

theorem mem_blocks {heap : ℕ → Option Block} {stack : List ℕ} {bs : List Blk}
    (h : List.Forall₂ (fun h b => heap h = some (.bytes b)) stack bs) {x : ℕ} (hx : x ∈ stack) :
    ∃ b, heap x = some (.bytes b) := by
  induction h with
  | nil => exact absurd hx List.not_mem_nil
  | cons hb _ ih =>
    rcases List.mem_cons.mp hx with rfl | hx
    · exact ⟨_, hb⟩
    · exact ih hx

theorem map_blocks {heap : ℕ → Option Block} {stack : List ℕ} {bs : List Blk}
    (h : List.Forall₂ (fun h b => heap h = some (.bytes b)) stack bs) :
    stack.map heap = bs.map (some ∘ Block.bytes) := by
  induction h with
  | nil => rfl
  | cons hb _ ih =>
    rw [List.map_cons, List.map_cons, hb, ih]
    rfl

/-- A new block is put on the stack. -/
theorem View.push {heap : ℕ → Option Block} {h : ℕ} {stack : List ℕ} {val : Option ℕ}
    {a : Abs} (hv : View heap stack val a) (hh : heap h = none) (b : Blk) :
    View (update heap h (some (.bytes b))) (h :: stack) val ⟨b :: a.stack, a.map⟩ := by
  obtain ⟨hstack, hnodup, helements⟩ := hv
  have hnot : h ∉ stack := by
    intro hmem
    obtain ⟨c, hc⟩ := mem_blocks hstack hmem
    rw [hh] at hc
    exact absurd hc (by simp)
  refine ⟨.cons (update_self _ _ _) (forall₂_frame hstack fun x hx =>
    update_of_ne (by rintro rfl; exact hnot hx) _ _), List.nodup_cons.mpr ⟨hnot, hnodup⟩, ?_⟩
  cases val with
  | none => exact helements
  | some p =>
    obtain ⟨w, hw, hpos, hle, hwords⟩ := helements
    have hne : p ≠ h := by
      rintro rfl
      rw [hh] at hw
      exact absurd hw (by simp)
    refine ⟨w, (update_of_ne hne _ _).trans hw, hpos, hle, hwords.frame fun i e c _ _ hnot hc => ?_⟩
    have hne : e ≠ h := by
      rintro rfl
      rw [hh] at hc
      exact absurd hc (by simp)
    exact ⟨(update_of_ne hne _ _).trans hc, fun hmem => (List.mem_cons.mp hmem).elim hne hnot⟩

end Unitas.Dc.Arrays
