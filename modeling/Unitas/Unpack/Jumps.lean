import Mathlib
import Unitas.Unpack.Reads

/-! The older decoder on any file: which entries of `Tree` it comes to, and that it ends. -/
namespace Unitas.Unpack
open Function Unitas.CInt Unitas.Simulation

section Inputs

/-- An index of the array `Tree`. -/
def InTree (i : ℤ) : Prop := 0 ≤ i ∧ i < 1024

instance (i : ℤ) : Decidable (InTree i) := by
  unfold InTree
  infer_instance

def word (lo hi : UInt8) : ℕ := hi.toNat * 256 + lo.toNat

/-- The entries of a key table of `n` keys, and the text after it. A key is one byte, or 255 and
a word; where the file ends inside a key of the second kind, 0 is put in the table first. -/
def keys (readErr : Bool) : ℕ → List UInt8 → List ℤ × Option (List UInt8)
  | 0, bytes => ([], some bytes)
  | _ + 1, [] => ([], none)
  | n + 1, c :: bytes =>
    if c = 255 then
      match bytes with
      | lo :: hi :: bytes =>
        let (entries, text) := keys readErr n bytes
        (word lo hi :: entries, text)
      | _ => (if readErr then [] else [0], none)
    else
      let (entries, text) := keys readErr n bytes
      (c.toNat :: entries, text)

/-- The array after the entries have been stored from `t` on. -/
def stored (key : ℤ → ℤ) (t : ℤ) : List ℤ → ℤ → ℤ
  | [] => key
  | v :: entries => stored (update key t v) (t + 1) entries

/-- The upper `n` of 16 bits, the highest first. -/
def wordBits : ℕ → ℕ → List Bool
  | 0, _ => []
  | n + 1, w => decide (w / 2 ^ 15 % 2 = 1) :: wordBits n (2 * w)

/-- The bits of all whole words of the text. -/
def textBits : List UInt8 → List Bool
  | lo :: hi :: bytes => wordBits 16 (word lo hi) ++ textBits bytes
  | _ => []

/-- Where a bit leads from node `tp` of the key table. -/
def jump (key : ℤ → ℤ) (tp : ℤ) (b : Bool) : ℤ := tp + key (tp + b.toInt)

/-- The node after some bits, back at node 0 after each character. -/
def node (key : ℤ → ℤ) : ℤ → List Bool → ℤ
  | tp, [] => tp
  | tp, b :: bits =>
    if key (jump key tp b) = 0 then node key 0 bits else node key (jump key tp b) bits

/-- The characters that some bits stand for. -/
def chars (key : ℤ → ℤ) : ℤ → List Bool → ℕ
  | _, [] => 0
  | tp, b :: bits =>
    if key (jump key tp b) = 0 then chars key 0 bits + 1 else chars key (jump key tp b) bits

/-- A bit at node `tp`, its jump, and the character where there is one, are in the array. -/
def JumpInside (key : ℤ → ℤ) (tp : ℤ) (b : Bool) : Prop :=
  InTree (tp + b.toInt) ∧ InTree (jump key tp b) ∧
    (key (jump key tp b) = 0 → InTree (jump key tp b + 1))

/-- Up to character `left` of the text every node that the bits lead to is in the array. -/
def TextInside (key : ℤ → ℤ) (bits : List Bool) (left : ℕ) : Prop :=
  ∀ before b after, bits = before ++ b :: after → chars key 0 before < left →
    JumpInside key (node key 0 before) b

/-- The same, bit after bit from node `tp` on. -/
def BitsJump (key : ℤ → ℤ) : List Bool → ℤ → ℕ → Prop
  | [], _, _ => True
  | b :: bits, tp, left =>
    JumpInside key tp b ∧
      if key (jump key tp b) = 0 then left ≤ 1 ∨ BitsJump key bits 0 (left - 1)
      else BitsJump key bits (jump key tp b) left

theorem bitsJump_iff (key : ℤ → ℤ) (bits : List Bool) : ∀ tp left, 0 < left →
    (BitsJump key bits tp left ↔ ∀ before b after, bits = before ++ b :: after →
      chars key tp before < left → JumpInside key (node key tp before) b) := by
  induction bits with
  | nil =>
    intro tp left _
    constructor
    · intro _ before b after h
      simp at h
    · exact fun _ => trivial
  | cons c bits ih =>
    intro tp left hpos
    rw [BitsJump]
    constructor
    · rintro ⟨hfirst, hrest⟩ before b after h hless
      cases before with
      | nil =>
        obtain ⟨rfl, rfl⟩ := List.cons.inj h
        exact hfirst
      | cons c' before =>
        obtain ⟨rfl, htail⟩ := List.cons.inj h
        rw [chars] at hless
        rw [node]
        split_ifs at hrest hless ⊢ with hleaf
        · have hmore := hrest.resolve_left (by omega)
          exact (ih 0 (left - 1) (by omega)).mp hmore before b after htail (by omega)
        · exact (ih _ left hpos).mp hrest before b after htail hless
    · intro h
      refine ⟨h [] c bits rfl hpos, ?_⟩
      have hcons : ∀ before b after, bits = before ++ b :: after →
          chars key tp (c :: before) < left → JumpInside key (node key tp (c :: before)) b :=
        fun before b after htail => h (c :: before) b after (by rw [htail]; rfl)
      simp only [chars, node] at hcons
      split_ifs at hcons ⊢ with hleaf
      · by_cases hone : left ≤ 1
        · exact Or.inl hone
        · right
          apply (ih 0 (left - 1) (by omega)).mpr
          intro before b after htail hless
          exact hcons before b after htail (by omega)
      · exact (ih _ left hpos).mpr hcons

end Inputs

section Input
variable {BUFSIZ : ℕ}

/-- In the middle of a file: what is unread of it, what is in `Tree`, and how many characters
are left to put out, or to a `write` that fails. -/
structure At (BUFSIZ : ℕ) (bytes : List UInt8) (key : ℤ → ℤ) (left : ℤ) (s : State) : Prop where
  unread : s.unread = bytes
  isEof : s.isEof = false
  Tree : ∀ i, s.Tree i = if InTree i then some (key i) else none
  room : s.outbuff.length < BUFSIZ
  left : left =
    if s.writeErr then min s.origsize (BUFSIZ - s.outbuff.length) else s.origsize

/-- The end of the file has been met. -/
def AtEof (s : State) : Prop := s.unread = [] ∧ s.isEof = true ∧ s.readErr = false

theorem getch_eq (s : State) : getch BUFSIZ s =
    let t := s.refill BUFSIZ
    if t.inleft < 0 then .error (.failure .readError) t
    else if t.inleft = 0 then .ok (-1) { t with isEof := true }
    else .ok (t.inbuff t.inp).toNat { t with inp := t.inp + 1, inleft := t.inleft - 1 } := by
  unfold getch
  simp only [bind, EStateM.bind, modify, modifyGet, MonadStateOf.modifyGet, EStateM.modifyGet,
    get, getThe, MonadStateOf.get, EStateM.get]
  split_ifs <;> rfl

theorem bind_ok {α β : Type} {m : Decoder α} {k : α → Decoder β} {s s' : State} {a : α}
    (h : m s = .ok a s') : (m >>= k) s = k a s' := by
  simp only [bind, EStateM.bind, h]

theorem bind_error {α β : Type} {m : Decoder α} {k : α → Decoder β} {s s' : State} {r : Result}
    (h : m s = .error r s') : (m >>= k) s = .error r s' := by
  simp only [bind, EStateM.bind, h]

theorem getch_cons (hB : 0 < BUFSIZ) {c : UInt8} {bytes : List UInt8} {key : ℤ → ℤ} {left : ℤ}
    {s : State} (h : At BUFSIZ (c :: bytes) key left s) :
    ∃ s', getch BUFSIZ s = .ok c.toNat s' ∧ At BUFSIZ bytes key left s' ∧
      s'.readErr = s.readErr ∧ s'.origsize = s.origsize := by
  obtain ⟨inbuff, inp, infile, inleft, hrefill, hpos, hc, hun⟩ := refill_next hB h.unread
  refine ⟨{ s with inbuff, inp := inp + 1, infile, inleft }, ?_, ?_, rfl, rfl⟩
  · rw [getch_eq, hrefill]
    dsimp only
    rw [if_neg (by omega), if_neg (by omega), hc, Int.add_sub_cancel]
  · exact ⟨hun, h.isEof, h.Tree, h.room, h.left⟩

theorem refill_unread_nil {s : State} (h : s.unread = []) :
    s.refill BUFSIZ = { s with inleft := if s.readErr then -1 else 0, inp := 0 } := by
  unfold State.unread at h
  obtain ⟨hbuf, hfile⟩ := List.append_eq_nil_iff.mp h
  have hleft : s.inleft.toNat = 0 := by
    simpa using congrArg List.length hbuf
  exact refill_at_end BUFSIZ hfile (by omega)

/-- At the end of the file `getch` fails, or sets `is_eof` for good. -/
theorem getch_nil {s : State} (h : s.unread = []) :
    (s.readErr = true ∧ ∃ s', getch BUFSIZ s = .error (.failure .readError) s') ∨
      ∃ s', getch BUFSIZ s = .ok (-1) s' ∧ AtEof s' ∧ s'.Tree = s.Tree ∧
        s'.origsize = s.origsize ∧ s.readErr = false := by
  have hfile : s.infile = [] := (List.append_eq_nil_iff.mp h).2
  rw [getch_eq, refill_unread_nil h]
  cases herr : s.readErr with
  | true => exact Or.inl ⟨rfl, _, rfl⟩
  | false =>
    right
    refine ⟨{ s with inleft := 0, inp := 0, isEof := true }, ?_, ⟨?_, rfl, herr⟩, rfl, rfl, rfl⟩
    · simp
    · simp [State.unread, hfile]

theorem getwdsize_cons (hB : 0 < BUFSIZ) {lo hi : UInt8} {bytes : List UInt8} {key : ℤ → ℤ}
    {left : ℤ} {s : State} (h : At BUFSIZ (lo :: hi :: bytes) key left s) :
    ∃ s', getwdsize BUFSIZ s = .ok (word lo hi) s' ∧ At BUFSIZ bytes key left s' ∧
      s'.readErr = s.readErr ∧ s'.origsize = s.origsize := by
  obtain ⟨s₁, h₁, hat₁, herr₁, hsize₁⟩ := getch_cons hB h
  obtain ⟨s₂, h₂, hat₂, herr₂, hsize₂⟩ := getch_cons hB hat₁
  refine ⟨s₂, ?_, hat₂, herr₂.trans herr₁, hsize₂.trans hsize₁⟩
  have hlo := lo.toNat_lt
  unfold getwdsize
  rw [bind_ok h₁, bind_ok h₂]
  simp only [bind, EStateM.bind, get, getThe, MonadStateOf.get, EStateM.get, hat₂.isEof,
    Bool.false_eq_true, if_false]
  rw [mask_of_lt (by omega) (by omega)]
  unfold word
  push_cast
  rfl

theorem getwdsize_eof {s s' : State} {c d : ℤ} (h : getch BUFSIZ s = .ok c s')
    {s'' : State} (h' : getch BUFSIZ s' = .ok d s'') (heof : s''.isEof = true) :
    getwdsize BUFSIZ s = .ok 0 s'' := by
  unfold getwdsize
  rw [bind_ok h, bind_ok h']
  simp only [bind, EStateM.bind, get, getThe, MonadStateOf.get, EStateM.get, heof, if_true]
  rfl

/-- `is_eof` stays set. -/
theorem getch_isEof {s : State} (h : s.isEof = true) :
    (∃ s', getch BUFSIZ s = .error (.failure .readError) s') ∨
      ∃ c s', getch BUFSIZ s = .ok c s' ∧ s'.isEof = true := by
  obtain ⟨inbuff, inleft, inp, infile, hrefill⟩ := refill_frame BUFSIZ s
  rw [getch_eq, hrefill]
  dsimp only
  split_ifs
  · exact Or.inl ⟨_, rfl⟩
  · exact Or.inr ⟨_, _, rfl, rfl⟩
  · exact Or.inr ⟨_, _, rfl, h⟩

theorem getwdsize_isEof {s : State} (h : s.isEof = true) :
    (∃ s', getwdsize BUFSIZ s = .error (.failure .readError) s') ∨
      ∃ s', getwdsize BUFSIZ s = .ok 0 s' ∧ s'.isEof = true := by
  obtain ⟨s₁, h₁⟩ | ⟨c, s₁, h₁, heof₁⟩ := @getch_isEof BUFSIZ _ h
  · exact Or.inl ⟨s₁, bind_error h₁⟩
  · obtain ⟨s₂, h₂⟩ | ⟨d, s₂, h₂, heof₂⟩ := @getch_isEof BUFSIZ _ heof₁
    · refine Or.inl ⟨s₂, ?_⟩
      unfold getwdsize
      rw [bind_ok h₁, bind_error h₂]
    · exact Or.inr ⟨s₂, getwdsize_eof h₁ h₂ heof₂, heof₂⟩

theorem getch_frame {s s' : State} {c : ℤ} (h : getch BUFSIZ s = .ok c s') :
    s'.outbuff = s.outbuff ∧ s'.writeErr = s.writeErr := by
  obtain ⟨inbuff, inleft, inp, infile, hrefill⟩ := refill_frame BUFSIZ s
  rw [getch_eq, hrefill] at h
  dsimp only at h
  split_ifs at h
  · injection h with _ h
    rw [← h]
    exact ⟨rfl, rfl⟩
  · injection h with _ h
    rw [← h]
    exact ⟨rfl, rfl⟩

theorem getwdsize_frame {s s' : State} {v : ℤ} (h : getwdsize BUFSIZ s = .ok v s') :
    s'.outbuff = s.outbuff ∧ s'.writeErr = s.writeErr := by
  unfold getwdsize at h
  cases h₁ : getch BUFSIZ s with
  | error r s₁ =>
    rw [bind_error h₁] at h
    contradiction
  | ok c s₁ =>
    rw [bind_ok h₁] at h
    cases h₂ : getch BUFSIZ s₁ with
    | error r s₂ =>
      rw [bind_error h₂] at h
      contradiction
    | ok d s₂ =>
      obtain ⟨hout₁, herr₁⟩ := getch_frame h₁
      obtain ⟨hout₂, herr₂⟩ := getch_frame h₂
      rw [bind_ok h₂] at h
      simp only [bind, EStateM.bind, get, getThe, MonadStateOf.get, EStateM.get] at h
      split_ifs at h
      · injection h with _ h
        rw [← h]
        exact ⟨hout₂.trans hout₁, herr₂.trans herr₁⟩
      · injection h with _ h
        rw [← h]
        exact ⟨hout₂.trans hout₁, herr₂.trans herr₁⟩

/-- A word that the file does not have is 0, unless the `read` fails. -/
theorem getwdsize_short (hB : 0 < BUFSIZ) {bytes : List UInt8} {key : ℤ → ℤ} {left : ℤ}
    {s : State} (h : At BUFSIZ bytes key left s) (hshort : bytes.length ≤ 1) :
    (s.readErr = true ∧ ∃ s', getwdsize BUFSIZ s = .error (.failure .readError) s') ∨
      ∃ s', getwdsize BUFSIZ s = .ok 0 s' ∧ AtEof s' ∧ s'.Tree = s.Tree ∧
        s'.origsize = s.origsize ∧ s.readErr = false := by
  match bytes, hshort with
  | [], _ =>
    obtain ⟨herr, s', hs'⟩ | ⟨s', hs', heof, htree, hsize, herr⟩ :=
      @getch_nil BUFSIZ _ h.unread
    · exact Or.inl ⟨herr, s', bind_error hs'⟩
    · obtain ⟨s'', hs'', heof', htree', hsize', _⟩ :=
        (@getch_nil BUFSIZ _ heof.1).resolve_left (by simp [heof.2.2])
      exact Or.inr ⟨s'', getwdsize_eof hs' hs'' heof'.2.1, heof', htree'.trans htree,
        hsize'.trans hsize, herr⟩
  | [c], _ =>
    obtain ⟨s', hs', hat, herr', hsize'⟩ := getch_cons hB h
    have hTree : s'.Tree = s.Tree := funext fun i => (hat.Tree i).trans (h.Tree i).symm
    obtain ⟨herr, s'', hs''⟩ | ⟨s'', hs'', heof, htree, hsize, herr⟩ :=
      @getch_nil BUFSIZ _ hat.unread
    · refine Or.inl ⟨herr'.symm.trans herr, s'', ?_⟩
      unfold getwdsize
      rw [bind_ok hs', bind_error hs'']
    · exact Or.inr ⟨s'', getwdsize_eof hs' hs'' heof.2.1, heof, htree.trans hTree,
        hsize.trans hsize', herr'.symm.trans herr⟩

end Input

section Expand
variable {BUFSIZ : ℕ}

/-- The decoder comes to an end, with or without a diagnostic. -/
def Ends {α : Type} (r : EStateM.Result Result State α) : Prop :=
  (∃ a s, r = .ok a s) ∨ ∃ msg s, r = .error (.failure msg) s

/-- With `P` the decoder comes to an end, and without it outside an array. -/
def Decides {α : Type} (P : Prop) (r : EStateM.Result Result State α) : Prop :=
  (P ∧ Ends r) ∨ (¬ P ∧ ∃ s, r = .error .undefined s)

theorem store_in {key : ℤ → ℤ} {bytes : List UInt8} {left : ℤ} {s : State} {t v : ℤ}
    (h : At BUFSIZ bytes key left s) (ht : InTree t) :
    ∃ s', store t v s = .ok () s' ∧ At BUFSIZ bytes (update key t v) left s' ∧
      s'.readErr = s.readErr ∧ s'.origsize = s.origsize := by
  refine ⟨{ s with Tree := update s.Tree t (some v) }, ?_,
    ⟨h.unread, h.isEof, ?_, h.room, h.left⟩, rfl, rfl⟩
  · unfold store
    simp only [bind, EStateM.bind, get, getThe, MonadStateOf.get, EStateM.get]
    rw [if_pos (show 0 ≤ t ∧ t < 1024 from ht)]
    rfl
  · intro i
    dsimp only
    by_cases hi : i = t
    · rw [hi, update_self, update_self, if_pos ht]
    · rw [update_of_ne hi, update_of_ne hi]
      exact h.Tree i

theorem store_out {s : State} {t v : ℤ} (ht : ¬ InTree t) :
    ∃ s', store t v s = .error .undefined s' := by
  refine ⟨s, ?_⟩
  unfold store
  simp only [bind, EStateM.bind, get, getThe, MonadStateOf.get, EStateM.get]
  rw [if_neg (show ¬ (0 ≤ t ∧ t < 1024) from ht)]
  rfl

theorem lookup_in {key : ℤ → ℤ} {bytes : List UInt8} {left : ℤ} {s : State} {i : ℤ}
    (h : At BUFSIZ bytes key left s) (hi : InTree i) : lookup i s = .ok (key i) s := by
  unfold lookup
  simp only [bind, EStateM.bind, get, getThe, MonadStateOf.get, EStateM.get]
  rw [h.Tree, if_pos hi]
  rfl

theorem lookup_out {key : ℤ → ℤ} {bytes : List UInt8} {left : ℤ} {s : State} {i : ℤ}
    (h : At BUFSIZ bytes key left s) (hi : ¬ InTree i) : lookup i s = .error .undefined s := by
  unfold lookup
  simp only [bind, EStateM.bind, get, getThe, MonadStateOf.get, EStateM.get]
  rw [h.Tree, if_neg hi]
  rfl

/-- Reading the key table: a store past the array, an end before the table is full, or the text
with all entries in place. -/
inductive KeysRead (BUFSIZ : ℕ) (readErr : Bool) (n : ℕ) (t : ℤ) (bytes : List UInt8)
    (key : ℤ → ℤ) (left : ℤ) (size : ℤ) : EStateM.Result Result State Unit → Prop
  | outside {s} (h : 1024 < t + (keys readErr n bytes).1.length) :
      KeysRead BUFSIZ readErr n t bytes key left size (.error .undefined s)
  | broken {r} (h : t + (keys readErr n bytes).1.length ≤ 1024)
      (hnone : (keys readErr n bytes).2 = none)
      (hr : (∃ msg s, r = .error (.failure msg) s) ∨ ∃ s, r = .ok () s ∧ s.isEof = true) :
      KeysRead BUFSIZ readErr n t bytes key left size r
  | whole {s text} (h : t + (keys readErr n bytes).1.length ≤ 1024)
      (htext : (keys readErr n bytes).2 = some text)
      (hat : At BUFSIZ text (stored key t (keys readErr n bytes).1) left s)
      (hsize : s.origsize = size) :
      KeysRead BUFSIZ readErr n t bytes key left size (.ok () s)

theorem KeysRead.cons {readErr : Bool} {n : ℕ} {t v : ℤ} {bytes rest : List UInt8}
    {key : ℤ → ℤ} {left : ℤ} {size : ℤ} {r : EStateM.Result Result State Unit}
    (h : KeysRead BUFSIZ readErr n (t + 1) rest (update key t v) left size r)
    (hkeys : keys readErr (n + 1) bytes =
      (v :: (keys readErr n rest).1, (keys readErr n rest).2)) :
    KeysRead BUFSIZ readErr (n + 1) t bytes key left size r := by
  have hlen : t + (keys readErr (n + 1) bytes).1.length =
      t + 1 + (keys readErr n rest).1.length := by
    rw [hkeys, List.length_cons]
    push_cast
    ring
  cases h with
  | outside h => exact .outside (by omega)
  | broken h hnone hr => exact .broken (by omega) (by rw [hkeys]; exact hnone) hr
  | whole h htext hat hsize =>
    refine .whole (by omega) (by rw [hkeys]; exact htext) ?_ hsize
    rw [hkeys]
    exact hat

/-- The rest of the table, after `getwdsize` has met the end of the file. -/
theorem readKeys_atEof (n : ℕ) (t : ℤ) {s : State} (h : AtEof s) :
    (∃ msg s', readKeys BUFSIZ n t s = .error (.failure msg) s') ∨
      ∃ s', readKeys BUFSIZ n t s = .ok () s' ∧ s'.isEof = true := by
  cases n with
  | zero => exact Or.inr ⟨s, rfl, h.2.1⟩
  | succ n =>
    left
    obtain ⟨herr, _⟩ | ⟨s', hs', heof, _⟩ := @getch_nil BUFSIZ _ h.1
    · rw [h.2.2] at herr
      contradiction
    · refine ⟨.notPackedFormat, s', ?_⟩
      unfold readKeys
      rw [bind_ok hs', if_neg (by decide)]
      simp only [bind, EStateM.bind, get, getThe, MonadStateOf.get, EStateM.get, heof.2.1, if_true]
      rfl

/-- A key of two bytes that the file breaks off in is stored as 0, unless the `read` fails. -/
theorem readKeys_broken (hB : 0 < BUFSIZ) {n : ℕ} {t : ℤ} {bytes rest : List UInt8}
    {key : ℤ → ℤ} {left : ℤ} {size : ℤ} {s : State} (h : At BUFSIZ rest key left s)
    (hshort : rest.length ≤ 1) (hpos : 0 ≤ t) (hle : t ≤ 1024)
    (hkeys : keys s.readErr (n + 1) bytes = (if s.readErr then [] else [0], none)) :
    KeysRead BUFSIZ s.readErr (n + 1) t bytes key left size
      ((do store t (← getwdsize BUFSIZ); readKeys BUFSIZ n (t + 1)) s) := by
  obtain ⟨herr, s', hs'⟩ | ⟨s', hs', heof, _, _, herr⟩ := getwdsize_short hB h hshort
  · rw [bind_error hs']
    refine .broken ?_ (by rw [hkeys]) (Or.inl ⟨_, _, rfl⟩)
    rw [hkeys, if_pos herr]
    simpa using hle
  · rw [bind_ok hs']
    have hlen : ((keys s.readErr (n + 1) bytes).1.length : ℤ) = 1 := by
      rw [hkeys, herr]
      rfl
    by_cases ht : InTree t
    · have hstore : store t 0 s' = .ok () { s' with Tree := update s'.Tree t (some 0) } := by
        unfold store
        simp only [bind, EStateM.bind, get, getThe, MonadStateOf.get, EStateM.get]
        rw [if_pos (show 0 ≤ t ∧ t < 1024 from ht)]
        rfl
      rw [bind_ok hstore]
      unfold InTree at ht
      exact .broken (by omega) (by rw [hkeys]) (readKeys_atEof n (t + 1) heof)
    · obtain ⟨s'', hs''⟩ := store_out (s := s') (v := 0) ht
      rw [bind_error hs'']
      unfold InTree at ht
      exact .outside (by omega)

theorem readKeys_spec (hB : 0 < BUFSIZ) (n : ℕ) : ∀ (t : ℤ) (bytes : List UInt8) (key : ℤ → ℤ)
    (left : ℤ) (s : State), At BUFSIZ bytes key left s → 0 ≤ t → t ≤ 1024 →
    KeysRead BUFSIZ s.readErr n t bytes key left s.origsize (readKeys BUFSIZ n t s) := by
  induction n with
  | zero =>
    intro t bytes key left s h _ hle
    exact .whole (by simpa [keys] using hle) rfl h rfl
  | succ n ih =>
    intro t bytes key left s h hpos hle
    unfold readKeys
    obtain _ | ⟨c, bytes⟩ := bytes
    · have hlen : t + ((keys s.readErr (n + 1) []).1.length : ℤ) ≤ 1024 := by
        simpa [keys] using hle
      obtain ⟨_, s', hs'⟩ | ⟨s', hs', heof, _⟩ := @getch_nil BUFSIZ _ h.unread
      · rw [bind_error hs']
        exact .broken hlen rfl (Or.inl ⟨_, _, rfl⟩)
      · rw [bind_ok hs', if_neg (by decide)]
        refine .broken hlen rfl (Or.inl ⟨.notPackedFormat, s', ?_⟩)
        simp only [bind, EStateM.bind, get, getThe, MonadStateOf.get, EStateM.get, heof.2.1,
          if_true]
        rfl
    · obtain ⟨s₁, h₁, hat₁, herr₁, hsize₁⟩ := getch_cons hB h
      rw [bind_ok h₁]
      by_cases hc : c = 255
      · subst hc
        rw [if_pos (by decide)]
        obtain _ | ⟨lo, _ | ⟨hi, bytes⟩⟩ := bytes
        · rw [← herr₁]
          exact readKeys_broken hB hat₁ (by simp) hpos hle rfl
        · rw [← herr₁]
          exact readKeys_broken hB hat₁ (by simp) hpos hle rfl
        · obtain ⟨s₂, h₂, hat₂, herr₂, hsize₂⟩ := getwdsize_cons hB hat₁
          have hkeys : keys s.readErr (n + 1) (255 :: lo :: hi :: bytes) =
              ((word lo hi : ℤ) :: (keys s.readErr n bytes).1, (keys s.readErr n bytes).2) := rfl
          rw [bind_ok h₂]
          by_cases ht : InTree t
          · obtain ⟨s₃, h₃, hat₃, herr₃, hsize₃⟩ := store_in (v := word lo hi) hat₂ ht
            rw [bind_ok h₃]
            have hrest := ih (t + 1) bytes _ left s₃ hat₃ (by omega) (by unfold InTree at ht; omega)
            rw [herr₃, herr₂, herr₁, hsize₃, hsize₂, hsize₁] at hrest
            exact hrest.cons hkeys
          · obtain ⟨s₃, h₃⟩ := store_out (s := s₂) (v := word lo hi) ht
            rw [bind_error h₃]
            refine .outside ?_
            rw [hkeys, List.length_cons]
            unfold InTree at ht
            push_cast
            omega
      · have hne : (c.toNat : ℤ) ≠ 255 := by
          intro h255
          have h255 : c.toNat = 255 := by omega
          exact hc (UInt8.toNat_inj.mp h255)
        have hkeys : keys s.readErr (n + 1) (c :: bytes) =
            ((c.toNat : ℤ) :: (keys s.readErr n bytes).1, (keys s.readErr n bytes).2) := by
          rw [keys.eq_def]
          dsimp only
          rw [if_neg hc]
        rw [if_neg hne]
        simp only [bind, EStateM.bind, get, getThe, MonadStateOf.get, EStateM.get, hat₁.isEof,
          Bool.false_eq_true, if_false]
        rw [mask_of_lt (by omega) (by have := c.toNat_lt; omega)]
        by_cases ht : InTree t
        · obtain ⟨s₃, h₃, hat₃, herr₃, hsize₃⟩ := store_in (v := c.toNat) hat₁ ht
          rw [h₃]
          dsimp only
          have hrest := ih (t + 1) bytes _ left s₃ hat₃ (by omega) (by unfold InTree at ht; omega)
          rw [herr₃, herr₁, hsize₃, hsize₁] at hrest
          exact hrest.cons hkeys
        · obtain ⟨s₃, h₃⟩ := store_out (s := s₁) (v := c.toNat) ht
          rw [h₃]
          refine .outside ?_
          rw [hkeys, List.length_cons]
          unfold InTree at ht
          push_cast
          omega

theorem wrap_neg_iff (w : ℕ) : wrap 16 w < 0 ↔ w / 2 ^ 15 % 2 = 1 := by
  unfold wrap
  rw [Int.bmod_def]
  norm_num
  split_ifs <;> omega

theorem wrap_two_mul (w : ℕ) : wrap 16 (2 * wrap 16 w) = wrap 16 ((2 * w : ℕ) : ℤ) := by
  unfold wrap
  rw [Int.mul_bmod_bmod]
  push_cast
  rfl

/-- A character is put out, or the buffer is full and `write` fails. -/
theorem putch_spec {bytes : List UInt8} {key : ℤ → ℤ} {left : ℕ} {s : State}
    (h : At BUFSIZ bytes key left s) (hpos : 0 < left) (c : ℤ) :
    (left = 1 ∧ ∃ s', putch BUFSIZ c s = .error (.failure .writeError) s') ∨
      ∃ s', putch BUFSIZ c s = .ok () s' ∧ s'.origsize = s.origsize ∧
        (left = 1 → s.origsize = 1) ∧
        (2 ≤ left → s.origsize ≠ 1 ∧
          At BUFSIZ bytes key (left - 1 : ℕ) { s' with origsize := s.origsize - 1 }) := by
  have hroom := h.room
  have hleft := h.left
  unfold putch
  simp only [bind, EStateM.bind, get, getThe, MonadStateOf.get, EStateM.get,
    List.length_append, List.length_singleton]
  by_cases hfull : s.outbuff.length + 1 = BUFSIZ
  · rw [if_pos hfull]
    cases herr : s.writeErr with
    | true =>
      left
      rw [herr, if_pos rfl] at hleft
      refine ⟨by omega, s, ?_⟩
      unfold State.write
      simp only [herr, if_true]
      rfl
    | false =>
      right
      rw [herr, if_neg (by decide)] at hleft
      refine ⟨{ s with
        written := s.written ++ (s.outbuff ++ [UInt8.ofNat (mask c).toNat]), outbuff := [] },
        ?_, rfl, by omega, ?_⟩
      · unfold State.write
        simp only [herr, Bool.false_eq_true, if_false]
        rfl
      · intro h2
        refine ⟨by omega, h.unread, h.isEof, h.Tree, ?_, ?_⟩
        · exact Nat.zero_lt_of_lt hroom
        · dsimp only
          rw [herr, if_neg (by decide)]
          omega
  · rw [if_neg hfull]
    right
    refine ⟨{ s with outbuff := s.outbuff ++ [UInt8.ofNat (mask c).toNat] }, rfl, rfl, ?_, ?_⟩
    · split_ifs at hleft <;> omega
    · intro h2
      refine ⟨?_, h.unread, h.isEof, h.Tree, ?_, ?_⟩
      · split_ifs at hleft <;> omega
      · rw [List.length_append, List.length_singleton]
        omega
      · dsimp only
        rw [List.length_append, List.length_singleton]
        push_cast
        split_ifs at hleft ⊢ <;> omega

/-- Some bits of a word: a jump out of the array, the last character, or the node and the number
of characters left that they lead to. -/
inductive BitsRead (BUFSIZ : ℕ) (bytes : List UInt8) (key : ℤ → ℤ) (bits : List Bool) (tp : ℤ)
    (left : ℕ) : EStateM.Result Result State (Option ℤ) → Prop
  | outside {s} (h : ∀ more, ¬ BitsJump key (bits ++ more) tp left) :
      BitsRead BUFSIZ bytes key bits tp left (.error .undefined s)
  | ended {r} (h : ∀ more, BitsJump key (bits ++ more) tp left)
      (hr : (∃ s, r = .ok none s) ∨ ∃ msg s, r = .error (.failure msg) s) :
      BitsRead BUFSIZ bytes key bits tp left r
  | more {s tp' left'} (h : ∀ more, BitsJump key (bits ++ more) tp left ↔
        BitsJump key more tp' left') (hpos : 0 < left') (hat : At BUFSIZ bytes key left' s) :
      BitsRead BUFSIZ bytes key bits tp left (.ok (some tp') s)

theorem BitsRead.cons {bytes : List UInt8} {key : ℤ → ℤ} {bits : List Bool} {b : Bool}
    {tp tp' : ℤ} {left left' : ℕ} {r : EStateM.Result Result State (Option ℤ)}
    (h : BitsRead BUFSIZ bytes key bits tp' left' r)
    (hstep : ∀ more, BitsJump key (b :: more) tp left ↔ BitsJump key more tp' left') :
    BitsRead BUFSIZ bytes key (b :: bits) tp left r := by
  cases h with
  | outside h => exact .outside fun more hin => h more ((hstep _).mp hin)
  | ended h hr => exact .ended (fun more => (hstep _).mpr (h more)) hr
  | more h hpos hat => exact .more (fun more => (hstep _).trans (h more)) hpos hat

theorem expandBits_spec (n : ℕ) : ∀ (w : ℕ) (bytes : List UInt8) (key : ℤ → ℤ) (tp : ℤ)
    (left : ℕ) (s : State), At BUFSIZ bytes key left s → 0 < left →
    BitsRead BUFSIZ bytes key (wordBits n w) tp left (expandBits BUFSIZ n (wrap 16 w) tp s) := by
  induction n with
  | zero => exact fun _ _ _ _ _ s h hpos => .more (fun _ => Iff.rfl) hpos h
  | succ n ih =>
    intro w bytes key tp left s h hpos
    unfold expandBits wordBits
    set b := decide (w / 2 ^ 15 % 2 = 1) with hb
    have hbit : (if wrap 16 (w : ℤ) < 0 then (1 : ℤ) else 0) = b.toInt := by
      rw [hb]
      by_cases hneg : wrap 16 (w : ℤ) < 0
      · rw [if_pos hneg, decide_eq_true ((wrap_neg_iff w).mp hneg)]
        rfl
      · rw [if_neg hneg, decide_eq_false (fun h => hneg ((wrap_neg_iff w).mpr h))]
        rfl
    rw [hbit, wrap_two_mul]
    by_cases h1 : InTree (tp + b.toInt)
    · rw [bind_ok (lookup_in h h1)]
      by_cases h2 : InTree (jump key tp b)
      · have hnode : lookup (tp + key (tp + b.toInt)) s = .ok (key (jump key tp b)) s :=
          lookup_in h h2
        rw [bind_ok hnode]
        by_cases hleaf : key (jump key tp b) = 0
        · rw [if_pos hleaf]
          by_cases h3 : InTree (jump key tp b + 1)
          · have hchar : lookup (tp + key (tp + b.toInt) + 1) s =
                .ok (key (jump key tp b + 1)) s := lookup_in h h3
            rw [bind_ok hchar]
            have hinside : JumpInside key tp b := ⟨h1, h2, fun _ => h3⟩
            have hlast : left = 1 → ∀ more,
                BitsJump key (b :: (wordBits n (2 * w) ++ more)) tp left := by
              intro hone more
              rw [BitsJump, if_pos hleaf]
              exact ⟨hinside, Or.inl (by omega)⟩
            obtain ⟨hone, s', hs'⟩ | ⟨s', hs', hsize, hone, htwo⟩ :=
              putch_spec h hpos (key (jump key tp b + 1))
            · rw [bind_error hs']
              exact .ended (hlast hone) (Or.inr ⟨_, _, rfl⟩)
            · rw [bind_ok hs']
              simp only [bind, EStateM.bind, get, getThe, MonadStateOf.get, EStateM.get, set,
                MonadStateOf.set, EStateM.set, hsize]
              by_cases hl : left = 1
              · rw [if_pos (by rw [hone hl]; rfl)]
                exact .ended (hlast hl) (Or.inl ⟨_, rfl⟩)
              · obtain ⟨hne, hat⟩ := htwo (by omega)
                rw [if_neg (by omega)]
                refine (ih (2 * w) bytes key 0 (left - 1) _ hat (by omega)).cons fun more => ?_
                rw [BitsJump, if_pos hleaf, or_iff_right (by omega)]
                exact and_iff_right hinside
          · have hchar : lookup (tp + key (tp + b.toInt) + 1) s = .error .undefined s :=
              lookup_out h h3
            rw [bind_error hchar]
            exact .outside fun more hin => h3 (hin.1.2.2 hleaf)
        · rw [if_neg hleaf]
          refine (ih (2 * w) bytes key (jump key tp b) left s h hpos).cons fun more => ?_
          rw [BitsJump, if_neg hleaf]
          exact and_iff_right ⟨h1, h2, fun h0 => absurd h0 hleaf⟩
      · have hnode : lookup (tp + key (tp + b.toInt)) s = .error .undefined s :=
          lookup_out h h2
        rw [bind_error hnode]
        exact .outside fun more hin => h2 hin.1.2.1
    · rw [bind_error (lookup_out h h1)]
      exact .outside fun more hin => h1 hin.1.1

theorem expandWords_word {fuel : ℕ} {tp v : ℤ} {s s' : State}
    (h : getwdsize BUFSIZ s = .ok v s') (heof : s'.isEof = false) :
    expandWords BUFSIZ (fuel + 1) tp s = match expandBits BUFSIZ 16 (wrap 16 v) tp s' with
      | .ok none s => .ok () s
      | .ok (some tp) s => expandWords BUFSIZ fuel tp s
      | .error r s => .error r s := by
  generalize hr : expandBits BUFSIZ 16 (wrap 16 v) tp s' = r
  rw [expandWords, bind_ok h]
  generalize wrap 16 v = w at hr ⊢
  simp only [bind, EStateM.bind, get, getThe, MonadStateOf.get, EStateM.get, heof,
    Bool.false_eq_true, false_and, and_false, if_false, pure, hr]
  rcases r with ⟨_ | _, _⟩ | ⟨_, _⟩ <;> rfl

/-- Every round takes a word of the text or meets its end. -/
theorem expandWords_spec (hB : 0 < BUFSIZ) (fuel : ℕ) : ∀ (bytes : List UInt8) (key : ℤ → ℤ)
    (tp : ℤ) (left : ℕ) (s : State), At BUFSIZ bytes key left s → 0 < left →
    bytes.length < fuel →
    Decides (BitsJump key (textBits bytes) tp left) (expandWords BUFSIZ fuel tp s) := by
  induction fuel with
  | zero => omega
  | succ fuel ih =>
    intro bytes key tp left s h hpos hfuel
    have hsize : 0 < s.origsize := by
      have := h.left
      split_ifs at this <;> omega
    have hend : bytes.length ≤ 1 → Ends (expandWords BUFSIZ (fuel + 1) tp s) := by
      intro hshort
      unfold expandWords
      obtain ⟨_, s', hs'⟩ | ⟨s', hs', heof, _, hsame, _⟩ := getwdsize_short hB h hshort
      · rw [bind_error hs']
        exact Or.inr ⟨_, _, rfl⟩
      · rw [bind_ok hs']
        simp only [bind, EStateM.bind, get, getThe, MonadStateOf.get, EStateM.get]
        have hzero : wrap 16 0 = 0 := by
          unfold wrap
          exact Int.zero_bmod
        rw [if_pos ⟨hzero, heof.2.1, by omega⟩]
        exact Or.inr ⟨_, _, rfl⟩
    obtain _ | ⟨lo, _ | ⟨hi, bytes⟩⟩ := bytes
    · exact Or.inl ⟨trivial, hend (by simp)⟩
    · exact Or.inl ⟨trivial, hend (by simp)⟩
    · unfold textBits
      obtain ⟨s₁, h₁, hat₁, _, _⟩ := getwdsize_cons hB h
      rw [expandWords_word h₁ hat₁.isEof]
      have hbits := expandBits_spec 16 (word lo hi) bytes key tp left s₁ hat₁ hpos
      generalize expandBits BUFSIZ 16 (wrap 16 (word lo hi)) tp s₁ = r at hbits ⊢
      cases hbits with
      | outside h => exact Or.inr ⟨h _, _, rfl⟩
      | ended h hr =>
        refine Or.inl ⟨h _, ?_⟩
        obtain ⟨s', rfl⟩ | ⟨msg, s', rfl⟩ := hr
        · exact Or.inl ⟨_, _, rfl⟩
        · exact Or.inr ⟨_, _, rfl⟩
      | more h hpos hat =>
        rw [h]
        simp only [List.length_cons] at hfuel
        exact ih bytes key _ _ _ hat hpos (by omega)

/-- `expand` from the key table on. -/
def expandKeys (BUFSIZ : ℕ) : Decoder Unit := do
  let keysize ← getwdsize BUFSIZ
  readKeys BUFSIZ keysize.toNat 0
  let s ← get
  if s.isEof then throw (.failure .notPackedFormat)
  expandWords BUFSIZ (s.inleft.toNat + s.infile.length + 1) 0

/-- `expand` after the first half of the size. -/
def expandSize (BUFSIZ : ℕ) (hi : ℤ) : Decoder Unit := do
  let lo ← getwdsize BUFSIZ
  modify fun s => { s with origsize := hi * 256 * 256 + lo }
  let s ← get
  if s.origsize = 0 ∨ s.isEof then throw (.failure .notPackedFormat)
  expandKeys BUFSIZ

theorem expand_eq (s : State) : expand BUFSIZ s = (getwdsize BUFSIZ >>= expandSize BUFSIZ)
    { s with outbuff := [], inp := 2, inleft := s.inleft - 2 } := rfl

/-- The key table fits the array, and so do the jumps of the text after it. -/
def KeysInside (readErr : Bool) (key : ℤ → ℤ) (left : ℕ) : List UInt8 → Prop
  | k0 :: k1 :: data =>
    (keys readErr (word k0 k1) data).1.length ≤ 1024 ∧
      ∀ text, (keys readErr (word k0 k1) data).2 = some text →
        TextInside (stored key 0 (keys readErr (word k0 k1) data).1) (textBits text) left
  | _ => True

theorem expandKeys_spec (hB : 0 < BUFSIZ) {bytes : List UInt8} {key : ℤ → ℤ} {left : ℕ}
    {s : State} (h : At BUFSIZ bytes key left s) (hpos : 0 < left) :
    Decides (KeysInside s.readErr key left bytes) (expandKeys BUFSIZ s) := by
  have hend : bytes.length ≤ 1 → Ends (expandKeys BUFSIZ s) := by
    intro hshort
    unfold expandKeys
    obtain ⟨_, s', hs'⟩ | ⟨s', hs', heof, _⟩ := getwdsize_short hB h hshort
    · rw [bind_error hs']
      exact Or.inr ⟨_, _, rfl⟩
    · rw [bind_ok hs']
      simp only [Int.toNat_zero, readKeys, bind, EStateM.bind, get, getThe, MonadStateOf.get,
        EStateM.get, pure, EStateM.pure, heof.2.1, if_true]
      exact Or.inr ⟨_, _, rfl⟩
  obtain _ | ⟨k0, _ | ⟨k1, data⟩⟩ := bytes
  · exact Or.inl ⟨trivial, hend (by simp)⟩
  · exact Or.inl ⟨trivial, hend (by simp)⟩
  · obtain ⟨s₁, h₁, hat₁, herr₁, hsize₁⟩ := getwdsize_cons hB h
    unfold expandKeys
    rw [bind_ok h₁, Int.toNat_natCast]
    simp only [KeysInside]
    generalize word k0 k1 = n
    have hread := readKeys_spec hB n 0 data key left s₁ hat₁ le_rfl (by decide)
    rw [herr₁] at hread
    generalize hr : readKeys BUFSIZ n 0 s₁ = r at hread
    cases hread with
    | @outside s' hover =>
      right
      rw [bind_error hr]
      exact ⟨fun hin => by omega, _, rfl⟩
    | broken hle hnone hend =>
      left
      refine ⟨⟨by omega, fun text htext => ?_⟩, ?_⟩
      · rw [hnone] at htext
        simp at htext
      · obtain ⟨msg, s', rfl⟩ | ⟨s', rfl, heof⟩ := hend
        · rw [bind_error hr]
          exact Or.inr ⟨_, _, rfl⟩
        · rw [bind_ok hr]
          simp only [bind, EStateM.bind, get, getThe, MonadStateOf.get, EStateM.get, heof, if_true]
          exact Or.inr ⟨_, _, rfl⟩
    | @whole s' text hle htext hat hsize =>
      rw [bind_ok hr]
      simp only [bind, EStateM.bind, get, getThe, MonadStateOf.get, EStateM.get, hat.isEof,
        Bool.false_eq_true, if_false]
      have hlen : text.length < s'.inleft.toNat + s'.infile.length + 1 := by
        rw [← hat.unread]
        simp [State.unread]
      have hwords := expandWords_spec hB _ text _ 0 left s' hat hpos hlen
      have hiff : (((keys s.readErr n data).1.length ≤ 1024 ∧
          ∀ text, (keys s.readErr n data).2 = some text →
            TextInside (stored key 0 (keys s.readErr n data).1) (textBits text) left) ↔
          BitsJump (stored key 0 (keys s.readErr n data).1) (textBits text) 0 left) := by
        rw [bitsJump_iff _ _ _ _ hpos]
        constructor
        · intro hin
          exact hin.2 text htext
        · intro hin
          refine ⟨by omega, fun text' htext' => ?_⟩
          rw [htext, Option.some.injEq] at htext'
          rw [← htext']
          exact hin
      rw [hiff]
      exact hwords

theorem expandSize_isEof {hi : ℤ} {s : State} (h : s.isEof = true) :
    Ends (expandSize BUFSIZ hi s) := by
  unfold expandSize
  obtain ⟨s', hs'⟩ | ⟨s', hs', heof⟩ := @getwdsize_isEof BUFSIZ _ h
  · rw [bind_error hs']
    exact Or.inr ⟨_, _, rfl⟩
  · rw [bind_ok hs']
    refine Or.inr ⟨.notPackedFormat, { s' with origsize := hi * 256 * 256 + 0 }, ?_⟩
    simp only [bind, EStateM.bind, modify, modifyGet, MonadStateOf.modifyGet, EStateM.modifyGet,
      get, getThe, MonadStateOf.get, EStateM.get]
    rw [if_pos (Or.inr heof)]
    rfl

/-- The number of characters in the header of a file. -/
def oldSize (h0 h1 l0 l1 : UInt8) : ℕ := word h0 h1 * 256 * 256 + word l0 l1

/-- The characters that go out before the end, or before a `write` that fails. -/
def charsOut (BUFSIZ : ℕ) (writeErr : Bool) (size : ℕ) : ℕ :=
  if writeErr then min size BUFSIZ else size

/-- A file with a size that is not 0 has a key table and a text inside the array. -/
def SizeInside (BUFSIZ : ℕ) (readErr writeErr : Bool) (key : ℤ → ℤ) : List UInt8 → Prop
  | h0 :: h1 :: l0 :: l1 :: data => 0 < oldSize h0 h1 l0 l1 →
    KeysInside readErr key (charsOut BUFSIZ writeErr (oldSize h0 h1 l0 l1)) data
  | _ => True

theorem expandSize_short (hB : 0 < BUFSIZ) {bytes : List UInt8} {key : ℤ → ℤ} {left : ℤ}
    {s : State} {hi : ℤ} (h : At BUFSIZ bytes key left s) (hshort : bytes.length ≤ 1) :
    Ends (expandSize BUFSIZ hi s) := by
  unfold expandSize
  obtain ⟨_, s', hs'⟩ | ⟨s', hs', heof, _⟩ := getwdsize_short hB h hshort
  · rw [bind_error hs']
    exact Or.inr ⟨_, _, rfl⟩
  · rw [bind_ok hs']
    refine Or.inr ⟨.notPackedFormat, { s' with origsize := hi * 256 * 256 + 0 }, ?_⟩
    simp only [bind, EStateM.bind, modify, modifyGet, MonadStateOf.modifyGet, EStateM.modifyGet,
      get, getThe, MonadStateOf.get, EStateM.get]
    rw [if_pos (Or.inr heof.2.1)]
    rfl

theorem expandSize_spec (hB : 0 < BUFSIZ) {bytes : List UInt8} {key : ℤ → ℤ} {left : ℤ}
    {s : State} {h0 h1 : UInt8} (h : At BUFSIZ bytes key left s) (hempty : s.outbuff = []) :
    Decides (SizeInside BUFSIZ s.readErr s.writeErr key (h0 :: h1 :: bytes))
      (expandSize BUFSIZ (word h0 h1) s) := by
  obtain _ | ⟨l0, _ | ⟨l1, data⟩⟩ := bytes
  · exact Or.inl ⟨trivial, expandSize_short hB h (by simp)⟩
  · exact Or.inl ⟨trivial, expandSize_short hB h (by simp)⟩
  · obtain ⟨s₁, h₁, hat₁, herr₁, _⟩ := getwdsize_cons hB h
    obtain ⟨hout₁, hwerr₁⟩ := getwdsize_frame h₁
    have hsize : ((oldSize h0 h1 l0 l1 : ℕ) : ℤ) = word h0 h1 * 256 * 256 + word l0 l1 := by
      unfold oldSize
      push_cast
      rfl
    unfold expandSize
    rw [bind_ok h₁]
    simp only [SizeInside, bind, EStateM.bind, modify, modifyGet, MonadStateOf.modifyGet,
      EStateM.modifyGet, get, getThe, MonadStateOf.get, EStateM.get, ← hsize]
    generalize oldSize h0 h1 l0 l1 = size
    by_cases hzero : size = 0
    · rw [if_pos (Or.inl (by omega))]
      exact Or.inl ⟨fun hpos => by omega, Or.inr ⟨_, _, rfl⟩⟩
    · rw [if_neg (by rw [hat₁.isEof]; simp [hzero])]
      have hat : At BUFSIZ data key (charsOut BUFSIZ s.writeErr size)
          { s₁ with origsize := (size : ℤ) } := by
        refine ⟨hat₁.unread, hat₁.isEof, hat₁.Tree, ?_, ?_⟩
        · dsimp only
          rw [hout₁, hempty]
          exact hB
        · dsimp only
          rw [hout₁, hempty, hwerr₁, charsOut]
          split_ifs <;> simp
      have hpos : 0 < charsOut BUFSIZ s.writeErr size := by
        unfold charsOut
        split_ifs <;> omega
      have hkeys := expandKeys_spec hB hat hpos
      dsimp only at hkeys
      rw [herr₁] at hkeys
      have hiff : (0 < size → KeysInside s.readErr key (charsOut BUFSIZ s.writeErr size) data) ↔
          KeysInside s.readErr key (charsOut BUFSIZ s.writeErr size) data :=
        forall_prop_of_true (by omega)
      rw [hiff]
      exact hkeys

end Expand

section Packed
variable {BUFSIZ : ℕ}

/-- What a file of the older format must be for `expand` to stay inside `Tree`, in which files
before it may have left something. -/
def OldInside (BUFSIZ : ℕ) (s : State) : Prop :=
  s.isEof = true ∨
    SizeInside BUFSIZ s.readErr s.writeErr (fun i => (s.Tree i).getD 0) (s.infile.drop 2)

theorem unread_drop_two {s : State} (h : 2 ≤ s.inleft) :
    State.unread { s with inp := s.inp + 2, inleft := s.inleft - 2 } = s.unread.drop 2 := by
  obtain ⟨n, hn⟩ : ∃ n : ℕ, s.inleft = n + 2 := ⟨(s.inleft - 2).toNat, by omega⟩
  have h1 : (s.inleft - 2).toNat = n := by omega
  have h2 : s.inleft.toNat = n + 2 := by omega
  simp only [State.unread, h1, h2]
  rw [List.drop_append_of_le_length (by simp)]
  congr 1
  apply List.ext_getElem
  · simp
  · intro i hi hi'
    simp [Nat.add_assoc, Nat.add_comm 2]

theorem returns_iff {P : Prop} {r : EStateM.Result Result State Unit} (h : Decides P r) :
    Returns (ended r).1 ↔ P := by
  obtain ⟨hP, ⟨_, s, rfl⟩ | ⟨msg, s, rfl⟩⟩ | ⟨hP, s, rfl⟩ := h
  · exact iff_of_true (Or.inl rfl) hP
  · exact iff_of_true (Or.inr ⟨msg, rfl⟩) hP
  · refine iff_of_false ?_ hP
    simp [Returns, ended]

/-- From the first word on, of any state the first buffer can leave. -/
theorem expand_words (hB : 0 < BUFSIZ) {bytes : List UInt8} {key : ℤ → ℤ} {left : ℤ} {s : State}
    (h : At BUFSIZ bytes key left s) (hempty : s.outbuff = []) :
    Decides (SizeInside BUFSIZ s.readErr s.writeErr key bytes)
      ((getwdsize BUFSIZ >>= expandSize BUFSIZ) s) := by
  have hend : bytes.length ≤ 1 → Ends ((getwdsize BUFSIZ >>= expandSize BUFSIZ) s) := by
    intro hshort
    obtain ⟨_, s', hs'⟩ | ⟨s', hs', heof, _⟩ := getwdsize_short hB h hshort
    · rw [bind_error hs']
      exact Or.inr ⟨_, _, rfl⟩
    · rw [bind_ok hs']
      exact expandSize_isEof heof.2.1
  obtain _ | ⟨h0, _ | ⟨h1, bytes⟩⟩ := bytes
  · exact Or.inl ⟨trivial, hend (by simp)⟩
  · exact Or.inl ⟨trivial, hend (by simp)⟩
  · obtain ⟨s₁, h₁, hat₁, herr₁, _⟩ := getwdsize_cons hB h
    obtain ⟨hout₁, hwerr₁⟩ := getwdsize_frame h₁
    rw [bind_ok h₁, ← herr₁, ← hwerr₁]
    exact expandSize_spec hB hat₁ (hout₁.trans hempty)

theorem expand_decides (hB : 2 ≤ BUFSIZ) {s : State} {rest : List UInt8}
    (hTree : ∀ i, (s.Tree i).isSome ↔ InTree i) (h : s.infile = US :: US :: rest) :
    Decides (OldInside BUFSIZ s) (expand BUFSIZ (firstRead BUFSIZ s)) := by
  obtain ⟨hleft, _, _⟩ := firstRead_buffer BUFSIZ (s := s) (by rw [h]; simp)
  obtain ⟨_, _, heof, htree⟩ := firstRead_frame BUFSIZ s
  have herr : (firstRead BUFSIZ s).readErr = s.readErr ∧
      (firstRead BUFSIZ s).writeErr = s.writeErr := by
    unfold firstRead State.read
    split_ifs
    · exact ⟨rfl, rfl⟩
    · exact ⟨rfl, rfl⟩
  obtain ⟨hun, _⟩ := @unread_read BUFSIZ (by omega)
    { s with eof := 0, inbuff := update s.inbuff 6 25 } (by dsimp only; rw [h]; simp)
  have hfirst : State.read BUFSIZ { s with eof := 0, inbuff := update s.inbuff 6 25 } =
    firstRead BUFSIZ s := rfl
  rw [hfirst] at hun
  have htwo : 2 ≤ (firstRead BUFSIZ s).inleft := by
    rw [hleft, h]
    simp only [List.length_cons]
    omega
  rw [expand_eq]
  generalize firstRead BUFSIZ s = t at hleft heof htree herr hun htwo
  obtain ⟨hrerr, hwerr⟩ := herr
  have hrest : State.unread { t with outbuff := [], inp := 2, inleft := t.inleft - 2 } =
      s.infile.drop 2 := by
    have hdrop := unread_drop_two (s := { t with inp := 0 }) htwo
    rw [hun] at hdrop
    exact hdrop
  by_cases hstale : s.isEof = true
  · left
    refine ⟨Or.inl hstale, ?_⟩
    obtain ⟨s', hs'⟩ | ⟨s', hs', heof'⟩ := @getwdsize_isEof BUFSIZ
      { t with outbuff := [], inp := 2, inleft := t.inleft - 2 } (heof.trans hstale)
    · rw [bind_error hs']
      exact Or.inr ⟨_, _, rfl⟩
    · rw [bind_ok hs']
      exact expandSize_isEof heof'
  · have hkey : ∀ i, t.Tree i = if InTree i then some ((s.Tree i).getD 0) else none := by
      intro i
      rw [htree]
      by_cases hi : InTree i
      · obtain ⟨v, hv⟩ := Option.isSome_iff_exists.mp ((hTree i).mpr hi)
        rw [if_pos hi, hv]
        rfl
      · rw [if_neg hi]
        exact Option.not_isSome_iff_eq_none.mp (fun h => hi ((hTree i).mp h))
    have hat : At BUFSIZ (s.infile.drop 2) (fun i => (s.Tree i).getD 0)
        (if t.writeErr then min t.origsize (BUFSIZ - (0 : ℕ)) else t.origsize)
        { t with outbuff := [], inp := 2, inleft := t.inleft - 2 } :=
      ⟨hrest, by simpa [heof] using hstale, hkey, by simp; omega, rfl⟩
    have hwords := expand_words (by omega) hat rfl
    dsimp only at hwords
    rw [hrerr, hwerr] at hwords
    have hiff : OldInside BUFSIZ s ↔ SizeInside BUFSIZ s.readErr s.writeErr
        (fun i => (s.Tree i).getD 0) (s.infile.drop 2) := or_iff_right hstale
    rw [hiff]
    exact hwords

theorem getdict_expand (hB : 2 ≤ BUFSIZ) {s : State} {rest : List UInt8}
    (h : s.infile = US :: US :: rest) :
    getdict BUFSIZ s = ended (expand BUFSIZ (firstRead BUFSIZ s)) := by
  obtain ⟨hneg, h0, h1⟩ := firstRead_bytes BUFSIZ hB h
  rw [getdict_eq, if_neg hneg, if_neg (by simp [h0]), if_pos h1]

/-- `expand` returns, with every access inside `Tree`, exactly for these files. -/
theorem getdict_returns_iff (hB : 2 ≤ BUFSIZ) {s : State} {rest : List UInt8}
    (hTree : ∀ i, (s.Tree i).isSome ↔ InTree i) (h : s.infile = US :: US :: rest) :
    Returns (getdict BUFSIZ s).1 ↔ OldInside BUFSIZ s := by
  rw [getdict_expand hB h]
  exact returns_iff (expand_decides hB hTree h)

theorem isSome_constTree (v i : ℤ) : (constTree v i).isSome ↔ InTree i := by
  unfold constTree InTree
  split_ifs with hi
  · exact iff_of_true rfl hi
  · exact iff_of_false (by simp) hi

/-- One key table entry that jumps past the array, and a word of text. -/
def jumpAway : List UInt8 := [31, 31, 0, 0, 1, 0, 1, 0, 255, 0, 4, 0, 0]

theorem getdict_returns_iff_two :
    Returns (getdict 1024 (started [31, 31, 0, 0, 1, 0, 2, 0, 2, 2, 0, 97, 0, 0])).1 ↔
      OldInside 1024 (started [31, 31, 0, 0, 1, 0, 2, 0, 2, 2, 0, 97, 0, 0]) :=
  getdict_returns_iff (by decide) (isSome_constTree 0) rfl

theorem not_getdict_returns : ¬ ∀ (s : State) (rest : List UInt8),
    (∀ i, (s.Tree i).isSome ↔ InTree i) → s.infile = US :: US :: rest →
    Returns (getdict 1024 s).1 := by
  intro h
  have hret := h (started jumpAway) _ (isSome_constTree 0) rfl
  have hfile : (started jumpAway).infile = US :: US :: jumpAway.drop 2 := rfl
  rw [getdict_expand (by decide) hfile,
    returns_iff (expand_decides (by decide) (isSome_constTree 0) hfile)] at hret
  obtain hstale | hsize := hret
  · simp [started, Statics.loaded] at hstale
  · have hsize : 0 < oldSize 0 0 1 0 → KeysInside false (fun i => (constTree 0 i).getD 0)
        (charsOut 1024 false (oldSize 0 0 1 0)) [1, 0, 255, 0, 4, 0, 0] := hsize
    have hone : oldSize 0 0 1 0 = 1 := by decide
    have hkeys : keys false (word 1 0) [255, 0, 4, 0, 0] = ([1024], some [0, 0]) := by decide
    rw [hone] at hsize
    obtain ⟨_, htext⟩ := hsize (by decide)
    rw [hkeys] at htext
    have hbits : textBits [0, 0] = [] ++ false :: List.replicate 15 false := by decide
    have hjump := htext [0, 0] rfl [] false _ hbits (by decide)
    simp [JumpInside, InTree, jump, node, stored] at hjump

end Packed

end Unitas.Unpack
