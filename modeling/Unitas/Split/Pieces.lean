import Mathlib.Data.List.Lex
import Mathlib.Data.UInt
import Mathlib.Tactic.Ring
import Unitas.Lib.CInt
import Unitas.Lib.Lines

/-! `split`: the input goes into files of so many lines or bytes, named in order. Opening,
reading and writing a file succeed. -/
namespace Unitas.Split
open Unitas.CInt Unitas.Lines

def DEFAULT_LINES : ℕ := 1000
def FILENAME_MAX : ℕ := 4096

/-- The options and operands as `main` has parsed them. Without a `name` there is no check
against `f_namemax`. -/
structure Opts where
  suffix_length : ℕ
  line_count : ℕ
  byte_count : ℕ
  name : Option (List UInt8)
  f_namemax : ℕ

/-- Behind the last slash. -/
def tail (name : List UInt8) : List UInt8 := (name.reverse.takeWhile (· ≠ 47)).reverse

def Opts.output_file_name (o : Opts) : List UInt8 := o.name.getD [120]

/-- The sum of the two lengths, an `int`. -/
def Opts.length (o : Opts) : ℤ := wrap 32 (o.output_file_name.length + o.suffix_length)

/-- The checks of `main` on its options. The difference is one of unsigned longs. -/
def Opts.accepted (o : Opts) : Bool :=
  (match o.name with
    | none => true
    | some name => (tail name).length ≤ (o.f_namemax + 2 ^ 64 - o.suffix_length) % 2 ^ 64) &&
  o.length ≤ FILENAME_MAX &&
  (o.line_count = 0 || o.byte_count = 0)

/-- The loop of `next_file_name`, on the suffix from its last character on. -/
def nextSuffix : List UInt8 → Option (List UInt8)
  | [] => none
  | c :: cs => if c + 1 ≤ 122 then some ((c + 1) :: cs) else (nextSuffix cs).map (97 :: ·)

def next_file_name (suffix_length : ℕ) (name : List UInt8) : Option (List UInt8) :=
  let i := name.length - suffix_length
  (nextSuffix (name.drop i).reverse).map fun r => name.take i ++ r.reverse

/-- The files with what has been written to them, the last one first. -/
structure State where
  fname : List UInt8
  out : ℕ
  output_file_open : Bool
  files : List (List UInt8 × List UInt8)

/-- The name with its suffix of `a`s. -/
def Opts.firstName (o : Opts) : List UInt8 :=
  o.output_file_name ++ List.replicate (o.length - o.output_file_name.length).toNat 97

/-- The file names start one below. -/
def start (o : Opts) : State where
  fname := if o.suffix_length = 0 then o.firstName else o.firstName.dropLast ++ [96]
  out := 0
  output_file_open := false
  files := []

/-- A turn of the outer loop, once `out` has reached the count. -/
def State.turn (n : ℕ) (s : State) : State :=
  if s.out < n then s else { s with out := 0, output_file_open := false }

/-- A file is opened on the first character for it. -/
def State.openFile (suffix_length : ℕ) (s : State) : Option State :=
  if s.output_file_open then some s
  else (next_file_name suffix_length s.fname).map fun fname =>
    { s with fname, output_file_open := true, files := (fname, []) :: s.files }

def State.putc (c : UInt8) (s : State) : State :=
  match s.files with
  | [] => s
  | (fname, text) :: files => { s with files := (fname, text ++ [c]) :: files }

/-- The two inner loops, which differ in the characters that are counted. The exit status is 1
when there are no more names. -/
def loop (n suffix_length : ℕ) (counted : UInt8 → Bool) : State → List UInt8 → ℕ × State
  | s, [] => (0, s)
  | s, c :: input =>
    match (s.turn n).openFile suffix_length with
    | none => (1, s.turn n)
    | some t =>
      let t := t.putc c
      loop n suffix_length counted (if counted c then { t with out := t.out + 1 } else t) input

def byteLoop (n suffix_length : ℕ) := loop n suffix_length fun _ => true
def lineLoop (n suffix_length : ℕ) := loop n suffix_length (· = 10)

/-- The exit status and the files in the order they were written in. -/
def main (o : Opts) (input : List UInt8) : ℕ × List (List UInt8 × List UInt8) :=
  if o.accepted then
    let line_count := if o.line_count = 0 then DEFAULT_LINES else o.line_count
    let r := if o.byte_count ≠ 0 then byteLoop o.byte_count o.suffix_length (start o) input
      else lineLoop line_count o.suffix_length (start o) input
    (r.1, r.2.files.reverse)
  else (1, [])

/-! The names. -/

/-- A reversed suffix of letters as a number. -/
def value : List UInt8 → ℕ
  | [] => 0
  | c :: cs => c.toNat - 97 + 26 * value cs

def Letters (r : List UInt8) : Prop := ∀ c ∈ r, 97 ≤ c.toNat ∧ c.toNat ≤ 122

theorem value_lt {r : List UInt8} (h : Letters r) : value r < 26 ^ r.length := by
  induction r with
  | nil => simp [value]
  | cons c cs ih =>
    have hc := h c List.mem_cons_self
    have := ih fun d hd => h d (List.mem_cons_of_mem c hd)
    simp only [value, List.length_cons, pow_succ]
    omega

/-- The next suffix is the next number. There is none after the last one. -/
theorem nextSuffix_letters {r : List UInt8} (h : Letters r) (hlt : value r + 1 < 26 ^ r.length) :
    ∃ r', nextSuffix r = some r' ∧ Letters r' ∧ r'.length = r.length ∧ value r' = value r + 1 := by
  induction r with
  | nil => simp [value] at hlt
  | cons c cs ih =>
    obtain ⟨hc, hcs⟩ := List.forall_mem_cons.mp h
    simp only [value, List.length_cons, pow_succ] at hlt ⊢
    rw [nextSuffix]
    have hsucc : (c + 1).toNat = c.toNat + 1 := by
      rw [UInt8.toNat_add]
      show (c.toNat + 1) % 256 = _
      omega
    split_ifs with hz
    · have hz : c.toNat + 1 ≤ 122 := hsucc ▸ UInt8.le_iff_toNat_le.mp hz
      refine ⟨_, rfl, List.forall_mem_cons.mpr ⟨?_, hcs⟩, rfl, ?_⟩
      · rw [hsucc]
        omega
      · rw [value, hsucc]
        omega
    · have hz : ¬ c.toNat + 1 ≤ 122 := fun hle =>
        hz (UInt8.le_iff_toNat_le.mpr (hsucc ▸ hle))
      obtain ⟨r', hr', hl, hlen, hv⟩ := ih hcs (by omega)
      refine ⟨97 :: r', by rw [hr']; rfl, List.forall_mem_cons.mpr ⟨by decide, hl⟩, by simp [hlen], ?_⟩
      simp only [value, hv, show UInt8.toNat 97 = 97 from rfl]
      omega

/-- What comes after strings of one length does not change their order. -/
theorem append_lt_append {u v : List UInt8} (hlen : u.length = v.length) (h : u < v)
    (x y : List UInt8) : u ++ x < v ++ y := by
  induction u generalizing v with
  | nil =>
    rw [List.eq_nil_of_length_eq_zero hlen.symm] at h
    exact absurd h (List.not_lt_nil _)
  | cons c u ih =>
    cases v with
    | nil => simp at hlen
    | cons d v =>
      rw [List.cons_append, List.cons_append]
      rcases List.cons_lt_cons_iff.mp h with hlt | ⟨rfl, hlt⟩
      · exact List.cons_lt_cons_iff.mpr (.inl hlt)
      · exact List.cons_lt_cons_iff.mpr (.inr ⟨rfl, ih (by simpa using hlen) hlt⟩)

theorem nextSuffix_lt {r r' : List UInt8} (h : nextSuffix r = some r')
    (hr : ∀ c ∈ r, c.toNat ≤ 122) : r'.length = r.length ∧ r.reverse < r'.reverse := by
  induction r generalizing r' with
  | nil => simp [nextSuffix] at h
  | cons c cs ih =>
    obtain ⟨hc, hcs⟩ := List.forall_mem_cons.mp hr
    rw [nextSuffix] at h
    split_ifs at h
    · obtain rfl := Option.some.inj h
      refine ⟨rfl, ?_⟩
      rw [List.reverse_cons, List.reverse_cons]
      refine List.append_left_lt (List.cons_lt_cons_iff.mpr (.inl ?_))
      rw [UInt8.lt_iff_toNat_lt, UInt8.toNat_add]
      show _ < (c.toNat + 1) % 256
      omega
    · obtain ⟨x, hx, rfl⟩ := Option.map_eq_some_iff.mp h
      obtain ⟨hlen, hlt⟩ := ih hx hcs
      refine ⟨by simp [hlen], ?_⟩
      rw [List.reverse_cons, List.reverse_cons]
      exact append_lt_append (by simp [hlen]) hlt _ _

/-- The name after `k` files. -/
def IsName (base : List UInt8) (a k : ℕ) (fname : List UInt8) : Prop :=
  ∃ r, fname = base ++ r.reverse ∧ r.length = a ∧
    if k = 0 then r = 96 :: List.replicate (a - 1) 97 else Letters r ∧ value r + 1 = k

/-- Whether an `int` can hold the length of a name. -/
def Opts.Fits (o : Opts) : Prop := o.output_file_name.length + o.suffix_length < 2 ^ 31

theorem length_of_fits {o : Opts} (hfit : o.Fits) :
    o.length = o.output_file_name.length + o.suffix_length := by
  unfold Opts.Fits at hfit
  rw [Opts.length, wrap]
  exact Int.bmod_eq_of_le (by omega) (by omega)

theorem firstName_of_fits {o : Opts} (hfit : o.Fits) :
    o.firstName = o.output_file_name ++ List.replicate o.suffix_length 97 := by
  rw [Opts.firstName, length_of_fits hfit, add_sub_cancel_left, Int.toNat_natCast]

theorem isName_start {o : Opts} (ha : 0 < o.suffix_length) (hfit : o.Fits) :
    IsName o.output_file_name o.suffix_length 0 (start o).fname := by
  refine ⟨96 :: List.replicate (o.suffix_length - 1) 97, ?_, ?_, by simp⟩
  · have hne : List.replicate o.suffix_length (97 : UInt8) ≠ [] := by
      simp only [ne_eq, List.replicate_eq_nil_iff]
      omega
    rw [start, if_neg (Nat.ne_of_gt ha), firstName_of_fits hfit, List.dropLast_append_of_ne_nil hne]
    simp
  · simp
    omega

theorem nextSuffix_first (a : ℕ) :
    nextSuffix (96 :: List.replicate a 97) = some (List.replicate (a + 1) 97) := by
  rw [nextSuffix, if_pos (by decide)]
  rfl

theorem value_replicate (a : ℕ) : value (List.replicate a 97) = 0 := by
  induction a with
  | zero => rfl
  | succ a ih => simp [List.replicate_succ, value, ih]

theorem next_file_name_append {a : ℕ} (base r : List UInt8) (h : r.length = a) :
    next_file_name a (base ++ r.reverse) = (nextSuffix r).map fun r' => base ++ r'.reverse := by
  simp [next_file_name, h]

/-- There are `26 ^ a` names, each after the one before it, and the first has only `a`s. -/
theorem next_file_name_isName {base fname : List UInt8} {a k : ℕ} (ha : 0 < a)
    (h : IsName base a k fname) (hk : k < 26 ^ a) :
    ∃ fname', next_file_name a fname = some fname' ∧ IsName base a (k + 1) fname' ∧
      fname < fname' ∧ (k = 0 → fname' = base ++ List.replicate a 97) := by
  obtain ⟨r, rfl, hlen, hr⟩ := h
  have hnext : ∃ r', nextSuffix r = some r' ∧ Letters r' ∧ value r' = k ∧
      (∀ c ∈ r, c.toNat ≤ 122) ∧ (k = 0 → r' = List.replicate a 97) := by
    by_cases hk0 : k = 0
    · rw [if_pos hk0] at hr
      subst hr
      have ha' : a - 1 + 1 = a := by omega
      refine ⟨_, nextSuffix_first (a - 1), ?_, ?_, ?_, fun _ => by rw [ha']⟩
      · intro c hc
        rw [List.eq_of_mem_replicate hc]
        decide
      · rw [value_replicate, hk0]
      · refine List.forall_mem_cons.mpr ⟨by decide, fun c hc => ?_⟩
        rw [List.eq_of_mem_replicate hc]
        decide
    · rw [if_neg hk0] at hr
      obtain ⟨r', hr', hl, -, hv⟩ := nextSuffix_letters hr.1 (by rw [hlen]; omega)
      exact ⟨r', hr', hl, by omega, fun c hc => (hr.1 c hc).2, fun h => absurd h hk0⟩
  obtain ⟨r', hr', hl, hv, hle, hfirst⟩ := hnext
  obtain ⟨hlen', hlt⟩ := nextSuffix_lt hr' hle
  refine ⟨base ++ r'.reverse, by rw [next_file_name_append base r hlen, hr']; rfl,
    ⟨r', rfl, by rw [hlen', hlen], by rw [if_neg (by omega)]; exact ⟨hl, by rw [hv]⟩⟩,
    List.append_left_lt hlt, fun h0 => ?_⟩
  rw [hfirst h0, List.reverse_replicate]

/-! The loop. -/

section Loop
variable (n a : ℕ) (counted : UInt8 → Bool) (base : List UInt8)

/-- A piece that is not the last one. -/
def Full (text : List UInt8) : Prop :=
  text.countP counted = n ∧ ∃ x c, text = x ++ [c] ∧ counted c = true

/-- The names and the earlier texts once `pre` has been read. -/
structure Named (pre : List UInt8) (s : State) : Prop where
  name : IsName base a s.files.length s.fname
  names : (s.files.map Prod.fst).Pairwise (· > ·)
  last : ∀ name ∈ s.files.map Prod.fst, name ≤ s.fname
  first : ∀ f ∈ s.files.getLast?, f.1 = base ++ List.replicate a 97
  texts : (s.files.reverse.map Prod.snd).flatten = pre
  full : ∀ f ∈ s.files.tail, Full n counted f.2

/-- The state between two characters. -/
structure Inv (pre : List UInt8) (s : State) : Prop extends Named n a counted base pre s where
  current : s.files = [] ∧ s.out = 0 ∧ s.output_file_open = false ∨
    s.output_file_open = true ∧ ∃ f files, s.files = f :: files ∧ f.2 ≠ [] ∧
      f.2.countP counted = s.out ∧ s.out ≤ n ∧ (s.out = n → Full n counted f.2)

/-- The state in front of a `putc`. -/
structure Ready (pre : List UInt8) (s : State) : Prop extends Named n a counted base pre s where
  isOpen : s.output_file_open = true
  current : ∃ f files, s.files = f :: files ∧ f.2.countP counted = s.out ∧ s.out < n

variable {n a counted base} {pre : List UInt8} {s : State}

theorem countP_full {files : List (List UInt8 × List UInt8)} (h : ∀ f ∈ files, Full n counted f.2) :
    (files.reverse.map Prod.snd).flatten.countP counted = files.length * n := by
  induction files with
  | nil => simp
  | cons f files ih =>
    obtain ⟨hf, hfiles⟩ := List.forall_mem_cons.mp h
    simp only [List.reverse_cons, List.map_append, List.flatten_append, List.countP_append,
      List.map_cons, List.map_nil, List.flatten_cons, List.flatten_nil, List.append_nil,
      List.length_cons, ih hfiles, hf.1]
    ring

/-- A new file is opened when all those before it are full. -/
theorem ready_of_full (hn : 0 < n) (ha : 0 < a) (h : Named n a counted base pre s)
    (hfull : ∀ f ∈ s.files, Full n counted f.2) (hu : pre.countP counted < n * 26 ^ a)
    (hout : s.out = 0) (hopen : s.output_file_open = false) :
    ∃ t, s.openFile a = some t ∧ Ready n a counted base pre t := by
  have hk : s.files.length < 26 ^ a := by
    have hcount := countP_full hfull
    rw [h.texts, Nat.mul_comm] at hcount
    exact Nat.lt_of_mul_lt_mul_left (hcount ▸ hu)
  obtain ⟨fname, hnext, hname, hlt, hfirst⟩ := next_file_name_isName ha h.name hk
  refine ⟨{ s with fname, output_file_open := true, files := (fname, []) :: s.files }, ?_, ?_⟩
  · simp [State.openFile, hopen, hnext]
  · refine { name := hname, names := ?_, last := ?_, first := ?_, texts := ?_, full := hfull,
             isOpen := rfl, current := ⟨_, _, rfl, hout.symm, by rw [hout]; exact hn⟩ }
    · exact List.pairwise_cons.mpr ⟨fun m hm => List.lt_of_le_of_lt (h.last m hm) hlt, h.names⟩
    · intro m hm
      rcases List.mem_cons.mp hm with rfl | hm
      · exact List.le_refl _
      · exact List.le_of_lt (List.lt_of_le_of_lt (h.last m hm) hlt)
    · intro f hf
      cases hfs : s.files with
      | nil =>
        rw [hfs] at hf
        obtain rfl : (fname, []) = f := by simpa using hf
        exact hfirst (by simp [hfs])
      | cons g files =>
        rw [hfs, List.getLast?_cons_cons, ← hfs] at hf
        exact h.first f hf
    · simp [← h.texts]

theorem ready_of_inv (hn : 0 < n) (ha : 0 < a) (h : Inv n a counted base pre s)
    (hu : pre.countP counted < n * 26 ^ a) :
    ∃ t, (s.turn n).openFile a = some t ∧ Ready n a counted base pre t := by
  rcases h.current with ⟨hf, hout, hopen⟩ | ⟨hopen, f, files, hf, hne, hcount, hle, hfull⟩
  · have hturn : s.turn n = s := by simp [State.turn, hout, hn]
    rw [hturn]
    exact ready_of_full hn ha h.toNamed (by simp [hf]) hu hout hopen
  · by_cases hlt : s.out < n
    · have hturn : s.turn n = s := by simp [State.turn, hlt]
      rw [hturn]
      exact ⟨s, by simp [State.openFile, hopen],
        { h.toNamed with isOpen := hopen, current := ⟨f, files, hf, hcount, hlt⟩ }⟩
    · have hturn : s.turn n = { s with out := 0, output_file_open := false } := by
        simp [State.turn, hlt]
      have hall : ∀ g ∈ s.files, Full n counted g.2 := by
        have htail := h.full
        rw [hf] at htail ⊢
        exact List.forall_mem_cons.mpr ⟨hfull (by omega), htail⟩
      rw [hturn]
      exact ready_of_full hn ha { h.toNamed with } hall hu rfl rfl

theorem inv_putc {c : UInt8} (h : Ready n a counted base pre s) :
    Inv n a counted base (pre ++ [c])
      (if counted c then { s.putc c with out := (s.putc c).out + 1 } else s.putc c) := by
  obtain ⟨f, files, hf, hcount, hlt⟩ := h.current
  have hputc : s.putc c = { s with files := (f.1, f.2 ++ [c]) :: files } := by
    rw [State.putc, hf]
  have hname := h.name
  have hnames := h.names
  have hlast := h.last
  have hfirst := h.first
  have htexts := h.texts
  have hfull := h.full
  rw [hf] at hname hnames hlast hfirst htexts hfull
  have hfirst' : ∀ g ∈ ((f.1, f.2 ++ [c]) :: files).getLast?, g.1 = base ++ List.replicate a 97 := by
    cases files with
    | nil => simpa using hfirst
    | cons g files => simpa [List.getLast?_cons_cons] using hfirst
  have htexts' : ((((f.1, f.2 ++ [c]) :: files).reverse).map Prod.snd).flatten = pre ++ [c] := by
    rw [← htexts]
    simp
  rw [hputc]
  split_ifs with hc
  · exact { name := hname, names := hnames, last := hlast, first := hfirst', texts := htexts',
            full := hfull
            current := .inr ⟨h.isOpen, _, _, rfl, by simp, by simp [hcount, hc], hlt,
              fun heq => ⟨by simp [hcount, hc]; exact heq, _, _, rfl, hc⟩⟩ }
  · exact { name := hname, names := hnames, last := hlast, first := hfirst', texts := htexts',
            full := hfull
            current := .inr ⟨h.isOpen, _, _, rfl, by simp, by simp [hcount, hc], by simp; omega,
              fun heq => absurd heq (by simp; omega)⟩ }

theorem loop_inv (hn : 0 < n) (ha : 0 < a) (input : List UInt8) (h : Inv n a counted base pre s)
    (hu : ∀ x c rest, pre ++ input = x ++ c :: rest → x.countP counted < n * 26 ^ a) :
    ∃ t, loop n a counted s input = (0, t) ∧ Inv n a counted base (pre ++ input) t := by
  induction input generalizing pre s with
  | nil => exact ⟨s, rfl, by simpa using h⟩
  | cons c input ih =>
    obtain ⟨t, ht, hready⟩ := ready_of_inv hn ha h (hu pre c input rfl)
    rw [loop, ht]
    have := ih (inv_putc (c := c) hready) (by simpa using hu)
    simpa using this

theorem inv_start {o : Opts} (ha : 0 < o.suffix_length) (hfit : o.Fits) :
    Inv n o.suffix_length counted o.output_file_name [] (start o) where
  name := isName_start ha hfit
  names := by simp [start]
  last := by simp [start]
  first := by simp [start]
  texts := by simp [start]
  full := by simp [start]
  current := .inl ⟨rfl, rfl, rfl⟩

/-- What the loop leaves, in the order of the files. -/
theorem pieces_of_inv (h : Inv n a counted base pre s) :
    let files := s.files.reverse
    (files.map Prod.fst).Pairwise (· < ·) ∧
      (∀ f ∈ files.head?, f.1 = base ++ List.replicate a 97) ∧
      (files.map Prod.snd).flatten = pre ∧
      (∀ f ∈ files.dropLast, Full n counted f.2) ∧ ∀ f ∈ files, f.2 ≠ [] := by
  have hnil (f : List UInt8 × List UInt8) (hf : Full n counted f.2) : f.2 ≠ [] := by
    obtain ⟨x, c, hx, -⟩ := hf.2
    simp [hx]
  refine ⟨?_, ?_, h.texts, ?_, ?_⟩
  · rw [List.map_reverse, List.pairwise_reverse]
    exact h.names
  · rw [List.head?_reverse]
    exact h.first
  · rw [List.dropLast_reverse]
    exact fun f hf => h.full f (List.mem_reverse.mp hf)
  · intro f hf
    have hf := List.mem_reverse.mp hf
    have htail := h.full
    rcases h.current with ⟨hs, -⟩ | ⟨-, g, files, hs, hne, -⟩
    · rw [hs] at hf
      simp at hf
    · rw [hs] at hf htail
      rcases List.mem_cons.mp hf with rfl | hf
      · exact hne
      · exact hnil f (htail f hf)

end Loop

/-- The count of lines or bytes for one piece. -/
def Opts.count (o : Opts) : ℕ :=
  if o.byte_count ≠ 0 then o.byte_count
  else if o.line_count = 0 then DEFAULT_LINES else o.line_count

/-- The lines or bytes of a text. -/
def Opts.units (o : Opts) (text : List UInt8) : ℕ :=
  if o.byte_count ≠ 0 then text.length else (fileLines text).length

/-- The text has as many bytes or whole lines as a piece has. -/
def Opts.IsPiece (o : Opts) (text : List UInt8) : Prop :=
  o.units text = o.count ∧ (o.byte_count = 0 → text.getLast? = some 10)

/-- The names come in order, and the pieces make up the input. -/
def Opts.Pieces (o : Opts) (input : List UInt8) : Prop :=
  (main o input).1 = 0 ∧
    let files := (main o input).2
    (files.map Prod.fst).Pairwise (· < ·) ∧
      (∀ f ∈ files.head?, f.1 = o.output_file_name ++ List.replicate o.suffix_length 97) ∧
      (files.map Prod.snd).flatten = input ∧
      (∀ f ∈ files.dropLast, o.IsPiece f.2) ∧ ∀ f ∈ files, f.2 ≠ []

instance (o : Opts) (text : List UInt8) : Decidable (o.IsPiece text) :=
  inferInstanceAs (Decidable (_ ∧ _))

instance (o : Opts) (input : List UInt8) : Decidable (o.Pieces input) :=
  inferInstanceAs (Decidable (_ ∧ _))

/-- As long as there are names enough, the pieces make up the input. -/
theorem pieces_of_fits {o : Opts} {input : List UInt8} (haccepted : o.accepted = true)
    (ha : 0 < o.suffix_length) (hneeded : o.units input ≤ o.count * 26 ^ o.suffix_length)
    (hfit : o.Fits) : o.Pieces input := by
  unfold Opts.Pieces
  by_cases hb : o.byte_count = 0
  · have hcount : o.count = if o.line_count = 0 then DEFAULT_LINES else o.line_count := by
      simp [Opts.count, hb]
    have hn : 0 < o.count := by
      rw [hcount]
      split_ifs
      · decide
      · omega
    obtain ⟨t, ht, hinv⟩ := @loop_inv _ _ (· = 10) _ _ _ hn ha input (inv_start ha hfit)
      fun x c rest hx => Nat.lt_of_lt_of_le
        (by
          rw [List.nil_append] at hx
          simp only [Opts.units, hb, ne_eq, not_true_eq_false, if_false, hx]
          exact countP_lt_length_fileLines x c rest) hneeded
    have hmain : main o input = (0, t.files.reverse) := by
      simp [main, haccepted, hb, lineLoop, ← hcount, ht]
    rw [hmain]
    obtain ⟨h1, h2, h3, h4, h5⟩ := pieces_of_inv hinv
    refine ⟨rfl, h1, h2, h3, fun f hf => ?_, h5⟩
    obtain ⟨hcnt, x, c, hx, hc⟩ := h4 f hf
    obtain rfl : c = 10 := by simpa using hc
    refine ⟨?_, fun _ => by simp [hx]⟩
    simp only [Opts.units, hb, ne_eq, not_true_eq_false, if_false, ← hcnt, hx,
      length_fileLines_newline]
    simp
  · have hcount : o.count = o.byte_count := by simp [Opts.count, hb]
    obtain ⟨t, ht, hinv⟩ := @loop_inv o.count _ (fun _ => true) _ _ _ (by omega) ha input
      (inv_start ha hfit) fun x c rest hx => Nat.lt_of_lt_of_le
        (by
          rw [List.nil_append] at hx
          simp [Opts.units, hb, hx]) hneeded
    have hmain : main o input = (0, t.files.reverse) := by
      rw [hcount] at ht
      simp [main, haccepted, hb, byteLoop, ht]
    rw [hmain]
    obtain ⟨h1, h2, h3, h4, h5⟩ := pieces_of_inv hinv
    refine ⟨rfl, h1, h2, h3, fun f hf => ⟨?_, fun h0 => absurd h0 hb⟩, h5⟩
    have := (h4 f hf).1
    simpa [Opts.units, hb] using this

/-- The first files stay. -/
theorem loop_names {n a : ℕ} {counted : UInt8 → Bool} (input : List UInt8) : ∀ s : State,
    ∃ l, (loop n a counted s input).2.files.map Prod.fst = l ++ s.files.map Prod.fst := by
  induction input with
  | nil => exact fun s => ⟨[], rfl⟩
  | cons c input ih =>
    intro s
    have hturn : (s.turn n).files = s.files := by
      unfold State.turn
      split_ifs <;> rfl
    rw [loop]
    cases hopen : (s.turn n).openFile a with
    | none => exact ⟨[], by rw [List.nil_append]; exact congrArg _ hturn⟩
    | some t =>
      have ht : ∃ l, t.files.map Prod.fst = l ++ s.files.map Prod.fst := by
        rw [State.openFile] at hopen
        split_ifs at hopen
        · obtain rfl := Option.some.inj hopen
          exact ⟨[], by rw [List.nil_append, hturn]⟩
        · obtain ⟨fname, -, rfl⟩ := Option.map_eq_some_iff.mp hopen
          exact ⟨[fname], by simp [hturn]⟩
      obtain ⟨l, hl⟩ := ht
      have hputc : (t.putc c).files.map Prod.fst = t.files.map Prod.fst := by
        rw [State.putc]
        cases hf : t.files with
        | nil => simp [hf]
        | cons f files => simp
      dsimp only
      split_ifs
      · obtain ⟨l', hl'⟩ := ih { t.putc c with out := (t.putc c).out + 1 }
        exact ⟨l' ++ l, by rw [hl', List.append_assoc, ← hl, ← hputc]⟩
      · obtain ⟨l', hl'⟩ := ih (t.putc c)
        exact ⟨l' ++ l, by rw [hl', List.append_assoc, ← hl, ← hputc]⟩

/-- Where the sum of the lengths does not fit, no suffix is written, and the first file's name has
the last character of the name replaced. -/
theorem loop_first {o : Opts} {n : ℕ} {counted : UInt8 → Bool} {c : UInt8} {input : List UInt8}
    (hn : 0 < n) (hname : o.output_file_name.length < 2 ^ 31) (ha : o.suffix_length < 2 ^ 31)
    (hfit : ¬ o.Fits) :
    ((loop n o.suffix_length counted (start o) (c :: input)).2.files.map Prod.fst).getLast? =
      some (o.output_file_name.dropLast ++ [97]) := by
  unfold Opts.Fits at hfit
  have hlength : o.length < 0 := by
    simp only [Opts.length, wrap, Int.bmod_def]
    split_ifs <;> omega
  have hzero : (o.length - o.output_file_name.length).toNat = 0 := by omega
  have hstart : (start o).fname = o.output_file_name.dropLast ++ [96] := by
    rw [start, if_neg (by omega), Opts.firstName, hzero, List.replicate_zero, List.append_nil]
  have hnext : next_file_name o.suffix_length (start o).fname =
      some (o.output_file_name.dropLast ++ [97]) := by
    rw [hstart, next_file_name]
    generalize hi : (o.output_file_name.dropLast ++ [96]).length - o.suffix_length = i
    have hle : i ≤ o.output_file_name.dropLast.length := by
      rw [List.length_append, List.length_singleton] at hi
      omega
    rw [List.drop_append_of_le_length hle, List.take_append_of_le_length hle, List.reverse_append,
      List.reverse_singleton, List.singleton_append, nextSuffix, if_pos (by decide)]
    simp only [Option.map_some, List.reverse_cons, List.reverse_reverse, ← List.append_assoc,
      List.take_append_drop]
    rfl
  have hturn : (start o).turn n = start o := if_pos hn
  rw [loop, hturn, State.openFile, if_neg (by simp [start]), hnext]
  dsimp only [Option.map_some, State.putc]
  split_ifs
  · obtain ⟨l, hl⟩ := loop_names input _
    rw [hl]
    simp [start]
  · obtain ⟨l, hl⟩ := loop_names input _
    rw [hl]
    simp [start]

/-- `main` comes to one of the loops. -/
theorem main_files {o : Opts} (haccepted : o.accepted = true) (input : List UInt8) :
    ∃ n counted, 0 < n ∧
      (main o input).2 = (loop n o.suffix_length counted (start o) input).2.files.reverse := by
  by_cases hb : o.byte_count = 0
  · refine ⟨if o.line_count = 0 then DEFAULT_LINES else o.line_count, (· = 10), ?_, ?_⟩
    · split_ifs
      · decide
      · omega
    · simp [main, haccepted, hb, lineLoop]
  · exact ⟨o.byte_count, fun _ => true, by omega, by simp [main, haccepted, hb, byteLoop]⟩

/-- Where the sum of the lengths is no `int`, the first piece has a name that is too short. -/
theorem not_pieces_of_unfit {o : Opts} {input : List UInt8} (haccepted : o.accepted = true)
    (hint : o.suffix_length < 2 ^ 31) (hname : o.output_file_name.length < 2 ^ 31)
    (hfit : ¬ o.Fits) (hne : input ≠ []) : ¬ o.Pieces input := by
  obtain ⟨n, counted, hn, hfiles⟩ := main_files haccepted input
  obtain ⟨c, rest, rfl⟩ := List.exists_cons_of_ne_nil hne
  have hlast := @loop_first o n counted c rest hn hname hint hfit
  rintro ⟨-, -, hfirst, -⟩
  rw [hfiles, List.head?_reverse] at hfirst
  rw [List.getLast?_map, Option.map_eq_some_iff] at hlast
  obtain ⟨f, hf, hfname⟩ := hlast
  have hlen := congrArg List.length ((hfirst f hf).symm.trans hfname)
  simp only [List.length_append, List.length_replicate, List.length_dropLast,
    List.length_singleton] at hlen
  unfold Opts.Fits at hfit
  omega

end Unitas.Split
