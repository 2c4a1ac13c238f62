import Unitas.Crypt.Rotors

/-! The two loops of `crypt`: the filter from standard input to standard output, and the
random-access loop the editors drive with `-p`. -/
namespace Unitas.Crypt
open Unitas.CInt

/-- `t2[(t3[(t1[(i+n1)&MASK]+n2)&MASK]-n2)&MASK]-n1`. -/
def Rotors.translate (r : Rotors) (n1 n2 i : ℤ) : ℤ :=
  r.t2 (index (r.t3 (index (r.t1 (index (i + n1)) + n2)) - n2)) - n1

/-- The rotor positions. -/
structure Counters where
  n1 : ℤ
  n2 : ℤ
  deriving DecidableEq

/-- `n1++` with its carry into `n2`. -/
def Counters.next (c : Counters) : Counters :=
  if c.n1 + 1 = 256 then
    if c.n2 + 1 = 256 then ⟨0, 0⟩ else ⟨0, c.n2 + 1⟩
  else ⟨c.n1 + 1, c.n2⟩

/-- The byte `putchar` or `write` sends for an `int` or a `char`. -/
def toByte (x : ℤ) : UInt8 := UInt8.ofNat (mask x).toNat

/-- `while ((i = getchar()) >= 0)`, from given rotor positions. -/
def filterFrom (r : Rotors) (c : Counters) : List UInt8 → List UInt8
  | [] => []
  | b :: s => toByte (r.translate c.n1 c.n2 (b.toNat : ℤ)) :: filterFrom r c.next s

def filter (r : Rotors) (s : List UInt8) : List UInt8 := filterFrom r ⟨0, 0⟩ s

/-- The header the editor sends before each block. -/
structure Header where
  offset : ℤ
  count : ℤ

/-- `while (nchar--)` over the block in `buf`, an array of `char`. -/
def translateBuf (r : Rotors) (c : Counters) : List ℤ → List ℤ
  | [] => []
  | p :: buf => char (r.translate c.n1 c.n2 p) :: translateBuf r c.next buf

/-- One round of the `-p` loop after its header is read. `none` is a round that writes no block:
a short read ends in `exit(1)`, and so does a negative `nchar`, for which `read` fails; with -1
`read` returns just that, and the loop stores through the null pointer of `malloc`. -/
def editor (r : Rotors) (h : Header) (input : List UInt8) : Option (List UInt8) :=
  let c : Counters := ⟨mask h.offset, mask (h.offset / 256)⟩
  let nchar := wrap 32 h.count
  if nchar < 0 ∨ input.length < nchar then none
  else
    let buf := (input.take nchar.toNat).map fun b => char (b.toNat : ℤ)
    some ((translateBuf r c buf).map toByte)

theorem index_eq_iff {x y : ℤ} : index x = index y ↔ mask x = mask y := by
  have hx := mask_nonneg x
  have hy := mask_nonneg y
  rw [Fin.ext_iff, index, index]
  dsimp only
  omega

theorem index_add_congr {x y : ℤ} (h : index x = index y) (z : ℤ) :
    index (x + z) = index (y + z) := by
  rw [index_eq_iff] at h ⊢
  rw [← mask_add_left, h, mask_add_left]

theorem index_sub_congr {x y : ℤ} (h : index x = index y) (z : ℤ) :
    index (x - z) = index (y - z) := by
  simpa only [sub_eq_add_neg] using index_add_congr h (-z)

@[simp] theorem toByte_toNat (b : UInt8) : toByte (b.toNat : ℤ) = b := by
  have hb := b.toNat_lt
  rw [toByte, mask_of_lt (by omega) (by omega), Int.toNat_natCast, UInt8.ofNat_toNat]

theorem toNat_toByte (x : ℤ) : ((toByte x).toNat : ℤ) = mask x := by
  have h0 := mask_nonneg x
  have h1 := mask_lt x
  rw [toByte, UInt8.toNat_ofNat']
  omega

theorem toByte_congr {x y : ℤ} (h : index x = index y) : toByte x = toByte y := by
  rw [toByte, toByte, index_eq_iff.mp h]

theorem toByte_char (x : ℤ) : toByte (char x) = toByte x := by
  rw [toByte, toByte, mask_char]

theorem index_toByte (x : ℤ) : index ((toByte x).toNat : ℤ) = index x := by
  rw [toNat_toByte, index_eq_iff, mask_of_lt (mask_nonneg x) (mask_lt x)]

theorem translate_congr (r : Rotors) (n1 n2 : ℤ) {x y : ℤ} (h : index x = index y) :
    r.translate n1 n2 x = r.translate n1 n2 y := by
  rw [Rotors.translate, Rotors.translate, index_add_congr h]

/-- The reflector in the middle makes one translation undo itself. -/
theorem index_translate_translate {r : Rotors} (hr : r.WellFormed) (n1 n2 i : ℤ) :
    index (r.translate n1 n2 (r.translate n1 n2 i)) = index i := by
  let a := r.t1 (index (i + n1))
  let b := r.t3 (index (a + n2))
  let c := r.t2 (index (b - n2))
  have ha : index (r.t1 (index (c - n1 + n1))) = index (b - n2) := by
    rw [sub_add_cancel]
    exact hr.t1_t2 _
  have hb : index (r.t3 (index (r.t1 (index (c - n1 + n1)) + n2))) = index (a + n2) := by
    rw [index_add_congr ha, sub_add_cancel]
    exact hr.t3_t3 _
  have hc : index (r.t2 (index (r.t3 (index (r.t1 (index (c - n1 + n1)) + n2)) - n2))) =
      index (i + n1) := by
    rw [index_sub_congr hb, add_sub_cancel_right]
    exact hr.t2_t1 _
  have hi := index_sub_congr hc n1
  rw [add_sub_cancel_right] at hi
  exact hi

theorem translate_byte {r : Rotors} (hr : r.WellFormed) (n1 n2 : ℤ) (b : UInt8) :
    toByte (r.translate n1 n2 ((toByte (r.translate n1 n2 (b.toNat : ℤ))).toNat : ℤ)) = b := by
  rw [translate_congr r n1 n2 (index_toByte _),
    toByte_congr (index_translate_translate hr n1 n2 _), toByte_toNat]

theorem filterFrom_filterFrom {r : Rotors} (hr : r.WellFormed) (c : Counters) (s : List UInt8) :
    filterFrom r c (filterFrom r c s) = s := by
  induction s generalizing c with
  | nil => rfl
  | cons b s ih => rw [filterFrom, filterFrom, translate_byte hr, ih]

/-- Rotor positions when `p` bytes have gone by. -/
def Counters.at (p : ℕ) : Counters := ⟨(p : ℤ) % 256, (p : ℤ) / 256 % 256⟩

theorem Counters.next_at (p : ℕ) : (Counters.at p).next = Counters.at (p + 1) := by
  unfold Counters.next Counters.at
  split_ifs <;> simp only [Counters.mk.injEq, Nat.cast_add, Nat.cast_one] at * <;>
    constructor <;> omega

@[simp] theorem length_filterFrom (r : Rotors) (c : Counters) (s : List UInt8) :
    (filterFrom r c s).length = s.length := by
  induction s generalizing c with
  | nil => rfl
  | cons b s ih => simp [filterFrom, ih]

theorem filterFrom_append (r : Rotors) (p : ℕ) (s t : List UInt8) :
    filterFrom r (.at p) (s ++ t) =
      filterFrom r (.at p) s ++ filterFrom r (.at (p + s.length)) t := by
  induction s generalizing p with
  | nil => simp [filterFrom]
  | cons b s ih =>
    rw [List.cons_append, filterFrom, filterFrom, Counters.next_at, ih, List.cons_append,
      List.length_cons, show p + 1 + s.length = p + (s.length + 1) by omega]

/-- Reading through signed `char`s makes no difference: each byte is masked first. -/
theorem map_translateBuf (r : Rotors) (c : Counters) (s : List UInt8) :
    (translateBuf r c (s.map fun b => char (b.toNat : ℤ))).map toByte = filterFrom r c s := by
  induction s generalizing c with
  | nil => rfl
  | cons b s ih =>
    rw [List.map_cons, translateBuf, List.map_cons, ih, filterFrom, toByte_char,
      translate_congr r c.n1 c.n2 (index_char _)]

theorem filter_slice (r : Rotors) (pre blk post : List UInt8) :
    ((filter r (pre ++ blk ++ post)).drop pre.length).take blk.length =
      filterFrom r (.at pre.length) blk := by
  have h0 : (⟨0, 0⟩ : Counters) = .at 0 := rfl
  rw [filter, h0, List.append_assoc, filterFrom_append, Nat.zero_add, filterFrom_append,
    List.drop_left' (length_filterFrom ..), List.take_left' (length_filterFrom ..)]

theorem editor_of_fits (r : Rotors) (p : ℕ) (blk rest : List UInt8) (h : blk.length < 2 ^ 31) :
    editor r ⟨p, blk.length⟩ (blk ++ rest) = some (filterFrom r (.at p) blk) := by
  have hn : wrap 32 (blk.length : ℤ) = blk.length := by
    simp only [wrap]
    exact Int.bmod_eq_of_le (by omega) (by omega)
  have hle : ¬ ((blk.length : ℤ) < 0 ∨ ((blk ++ rest).length : ℤ) < blk.length) := by
    simp only [List.length_append]
    omega
  simp only [editor, hn, if_neg hle, Int.toNat_natCast, List.take_left, map_translateBuf]
  rfl

theorem editor_of_large (r : Rotors) (p : ℕ) (blk rest : List UInt8) (h : 2 ^ 31 ≤ blk.length)
    (h' : blk.length < 2 ^ 32) : editor r ⟨p, blk.length⟩ (blk ++ rest) = none := by
  have hn : wrap 32 (blk.length : ℤ) < 0 := by
    simp only [wrap, Int.bmod_def]
    split_ifs <;> omega
  simp only [editor, if_pos (Or.inl hn)]

/-- The editor mode produces for a block the bytes of the filter at its place in the stream. -/
def EditorAgrees (r : Rotors) (pre blk post rest : List UInt8) : Prop :=
  editor r ⟨pre.length, blk.length⟩ (blk ++ rest) =
    some (((filter r (pre ++ blk ++ post)).drop pre.length).take blk.length)

/-- The header's `count` is an unsigned `int`, `nchar` an `int`. -/
theorem editorAgrees_iff (r : Rotors) (pre blk post rest : List UInt8)
    (hlt : blk.length < 2 ^ 32) : EditorAgrees r pre blk post rest ↔ blk.length < 2 ^ 31 := by
  unfold EditorAgrees
  constructor
  · intro h
    by_contra hlarge
    rw [editor_of_large r _ blk rest (by omega) hlt] at h
    exact absurd h (Option.some_ne_none _).symm
  · intro h
    rw [filter_slice, editor_of_fits r _ blk rest h]

/-- `setup` finishes whatever `crypt(3)` returned, the rotors are inverse permutations and
an involution without fixed points, the filter undoes itself under the same key, and the
editor mode agrees with the filter on exactly the blocks that `nchar` can count. -/
theorem filter_inverse_and_editor_iff
    (crypt : (Fin 8 → ℤ) → (Fin 2 → ℤ) → Option (Fin 13 → ℤ)) (pw : List ℤ) (ret : Fin 13 → ℤ)
    (hc : crypt (strncpy pw 8) (fun i => strncpy pw 8 (i.castLE (by decide))) = some ret) :
    ∃ r, setup crypt pw = .ok r ∧
      (∀ i, index (r.t2 (index (r.t1 i))) = i ∧ index (r.t1 (index (r.t2 i))) = i) ∧
      (∀ i, index (r.t3 i) ≠ i ∧ index (r.t3 (index (r.t3 i))) = i) ∧
      (∀ s, filter r (filter r s) = s) ∧
      ∀ pre blk post rest : List UInt8, blk.length < 2 ^ 32 →
        (EditorAgrees r pre blk post rest ↔ blk.length < 2 ^ 31) := by
  obtain ⟨r, hr, hw⟩ := setup_ok hc
  exact ⟨r, hr, fun i => ⟨hw.t2_t1 i, hw.t1_t2 i⟩, fun i => ⟨hw.t3_ne i, hw.t3_t3 i⟩,
    filterFrom_filterFrom hw _, editorAgrees_iff r⟩

/-- A key schedule of thirteen dots, and a block of one byte. -/
theorem filter_inverse_and_editor_iff_dots :
    ∃ r, setup (fun _ _ => some fun _ => 46) [107] = .ok r ∧
      (∀ s, filter r (filter r s) = s) ∧ EditorAgrees r [1] [2] [3] [] := by
  obtain ⟨r, hr, -, -, hf, he⟩ := filter_inverse_and_editor_iff
    (fun _ _ => some fun _ => 46) [107] (fun _ => 46) rfl
  exact ⟨r, hr, hf, (he [1] [2] [3] [] (by decide)).mpr (by decide)⟩

/-- A block of 2 GiB of zeros is not written at all. -/
theorem not_editorAgrees_large : ∃ r, setup (fun _ _ => some fun _ => 46) [107] = .ok r ∧
    ¬ EditorAgrees r [] (List.replicate (2 ^ 31) 0) [] [] := by
  obtain ⟨r, hr, -⟩ := @setup_ok (fun _ _ => some fun _ => 46) [107] (fun _ => 46) rfl
  refine ⟨r, hr, fun h => ?_⟩
  have hlen := (editorAgrees_iff r _ _ _ _ (by rw [List.length_replicate]; decide)).mp h
  rw [List.length_replicate] at hlen
  exact absurd hlen (lt_irrefl _)

end Unitas.Crypt
