import Mathlib.Data.List.TakeWhile
import Mathlib.Data.PNat.Notation
import Mathlib.Logic.Function.Basic

/-! Messages and files over the `g` protocol: `gwrmsg`, `grdmsg`, `gwrdata` and `grddata`.
What `pkwrite` puts into packets `pkread` finds in the same order, however many have come by
the time of the call. -/
namespace Unitas.Bnu.Gio

/-- The data of each packet. A short one is padded on the line only. -/
abbrev Packets := List (List UInt8)

/-- `do { … } while (icount)`. -/
def pkwrite (xsize : ℕ+) (ibuf : List UInt8) : Packets :=
  if ibuf.drop xsize = [] then [ibuf.take xsize]
  else ibuf.take xsize :: pkwrite xsize (ibuf.drop xsize)
termination_by ibuf.length
decreasing_by
  rename_i hne
  have hlt : (xsize : ℕ) < ibuf.length := by
    by_contra hle
    exact hne (List.drop_of_length_le (by omega))
  have hpos : 0 < (xsize : ℕ) := xsize.2
  rw [List.length_drop]
  omega

/-- The loop of `pkread` over the packets that have come, the first of them read in part,
perhaps: what is copied, and what stays. -/
def pkreadFrom (xfr : Bool) : Packets → ℕ → List UInt8 × Packets
  | [], _ => ([], [])
  | p :: ps, icount =>
    if icount = 0 then ([], p :: ps)
    else
      let cc := min p.length icount
      if cc = 0 ∧ xfr then ([], p :: ps)
      else if p.length - cc = 0 then
        if cc = 0 then ([], ps)
        else
          let (ibuf, ps) := pkreadFrom true ps (icount - cc)
          (p.take cc ++ ibuf, ps)
      -- Here `cc` is all of `icount`.
      else (p.take cc, p.drop cc :: ps)

/-- `pkread`, which waits for a packet and then has `more` others; `none` where it waits for
ever. -/
def pkread (more icount : ℕ) (line : Packets) : Option (List UInt8 × Packets) :=
  if line = [] then none
  else
    let (ibuf, rest) := pkreadFrom false (line.take (more + 1)) icount
    some (ibuf, rest ++ line.drop (more + 1))

/-! ### `gio.c` -/

def strlen (s : List UInt8) : ℕ := (s.takeWhile (· ≠ 0)).length

/-- `len`, rounded up to packets. -/
def padded (xpacksize len : ℕ) : ℕ :=
  if len % xpacksize ≠ 0 then len + xpacksize - len % xpacksize else len

/-- `gwrmsg`, with what happens to be in `bufr` before; `none` where it writes behind the end
of `bufr`. -/
def gwrmsg (BUFSIZ : ℕ) (xpacksize : ℕ+) (bufr : List UInt8) (type : UInt8) (str : List UInt8) :
    Option Packets :=
  let text := type :: str.takeWhile (· ≠ 0)
  let bufr := text ++ 0 :: bufr.drop (text.length + 1)
  let bufr := if text.getLast? = some 10 then bufr.set (text.length - 1) 0 else bufr
  let len := padded xpacksize (strlen bufr + 1)
  if text.length + 1 ≤ BUFSIZ ∧ len ≤ BUFSIZ then
    some (pkwrite xpacksize ((bufr.set (len - 1) 0).take len))
  else none

/-- `while ((len = read(fd1, bufr, BUFSIZ)) > 0)`. -/
def gwrBlocks (BUFSIZ xsize : ℕ+) (file : List UInt8) : Packets :=
  if file = [] then []
  else pkwrite xsize (file.take BUFSIZ) ++
    if (file.take BUFSIZ).length ≠ BUFSIZ then [] else gwrBlocks BUFSIZ xsize (file.drop BUFSIZ)
termination_by file.length
decreasing_by
  rename_i hne _
  have hpos : 0 < (BUFSIZ : ℕ) := BUFSIZ.2
  have hlen := List.length_pos_iff.mpr hne
  rw [List.length_drop]
  omega

def gwrdata (BUFSIZ xsize : ℕ+) (file : List UInt8) : Packets :=
  gwrBlocks BUFSIZ xsize file ++ pkwrite xsize []

/-- What is on the line, and how many `pkread`s there have been. -/
structure Reader where
  line : Packets
  calls : ℕ

/-- `arrived` tells how many packets have come for each call of `pkread`. -/
def Reader.pkread (arrived : ℕ → ℕ) (icount : ℕ) (r : Reader) : Option (List UInt8 × Reader) :=
  (Gio.pkread (arrived r.calls) icount r.line).map fun x => (x.1, ⟨x.2, r.calls + 1⟩)

/-- No `pkread` leaves as many packets and bytes on the line as it has found. -/
def Reader.size (r : Reader) : ℕ := r.line.length + r.line.flatten.length

variable (arrived : ℕ → ℕ)

def grdmsgFrom (packsize : ℕ) : ℕ → Reader → Option (List UInt8 × Reader)
  | 0, _ => none
  | fuel + 1, r => do
    let (str, r) ← r.pkread arrived packsize
    if str.getLast? = some 0 then some (str, r)
    else
      let (rest, r) ← grdmsgFrom packsize fuel r
      some (str ++ rest, r)

/-- `grdmsg`: the string at `str`. -/
def grdmsg (packsize : ℕ) (r : Reader) : Option (List UInt8 × Reader) :=
  (grdmsgFrom arrived packsize r.size r).map fun x => (x.1.takeWhile (· ≠ 0), x.2)

def grdblkFrom : ℕ → ℕ → Reader → Option (List UInt8 × Reader)
  | 0, _, _ => none
  | fuel + 1, len, r =>
    if len = 0 then some ([], r)
    else do
      let (blk, r) ← r.pkread arrived len
      if blk = [] then some ([], r)
      else
        let (rest, r) ← grdblkFrom fuel (len - blk.length) r
        some (blk ++ rest, r)

def grdblk (len : ℕ) (r : Reader) : Option (List UInt8 × Reader) :=
  grdblkFrom arrived (r.size + 1) len r

def grddataFrom (BUFSIZ : ℕ) : ℕ → Reader → Option (List UInt8 × Reader)
  | 0, _ => none
  | fuel + 1, r => do
    let (bufr, r) ← grdblk arrived BUFSIZ r
    if bufr.length < BUFSIZ then some (bufr, r)
    else
      let (rest, r) ← grddataFrom BUFSIZ fuel r
      some (bufr ++ rest, r)

/-- `grddata`: what it writes to the file, whose writes do not fail. -/
def grddata (BUFSIZ : ℕ) (r : Reader) : Option (List UInt8 × Reader) :=
  grddataFrom arrived BUFSIZ (r.size + 1) r

/-! ### Messages -/

variable {arrived} {xsize : ℕ+}

theorem pkreadFrom_zero (xfr : Bool) (ps : Packets) : pkreadFrom xfr ps 0 = ([], ps) := by
  cases ps with
  | nil => rfl
  | cons p ps => simp [pkreadFrom]

/-- A packet that is as long as what is asked for comes alone. -/
theorem pkread_full {p : List UInt8} {icount : ℕ} (hlen : p.length = icount) (hpos : 0 < icount)
    (more : ℕ) (ps : Packets) : pkread more icount (p :: ps) = some (p, ps) := by
  subst hlen
  have hfrom : pkreadFrom false (p :: ps.take more) p.length = (p, ps.take more) := by
    simp [pkreadFrom, pkreadFrom_zero, Nat.ne_of_gt hpos]
  simp [pkread, hfrom]

theorem pkwrite_of_le {ibuf : List UInt8} (h : ibuf.length ≤ xsize) :
    pkwrite xsize ibuf = [ibuf] := by
  rw [pkwrite, if_pos (List.drop_of_length_le h), List.take_of_length_le h]

theorem pkwrite_of_lt {ibuf : List UInt8} (h : (xsize : ℕ) < ibuf.length) :
    pkwrite xsize ibuf = ibuf.take xsize :: pkwrite xsize (ibuf.drop xsize) := by
  rw [pkwrite, if_neg]
  intro hnil
  have hlen := congrArg List.length hnil
  rw [List.length_drop, List.length_nil] at hlen
  omega

/-- A block of whole packets of which only the last ends in a null byte. -/
structure Framed (xsize : ℕ) (blk : List UInt8) : Prop where
  dvd : xsize ∣ blk.length
  last : blk.getLast? = some 0
  inner : ∀ k, 0 < k → k * xsize < blk.length → (blk.take (k * xsize)).getLast? ≠ some 0

theorem Framed.le {blk : List UInt8} (h : Framed xsize blk) : (xsize : ℕ) ≤ blk.length := by
  apply Nat.le_of_dvd _ h.dvd
  rw [List.length_pos_iff]
  rintro rfl
  cases h.last

theorem Framed.drop {blk : List UInt8} (h : Framed xsize blk) (hlt : (xsize : ℕ) < blk.length) :
    Framed xsize (blk.drop xsize) where
  dvd := by
    rw [List.length_drop]
    exact Nat.dvd_sub h.dvd (Nat.dvd_refl _)
  last := by rw [List.getLast?_drop, if_neg (by omega), h.last]
  inner k hk hklt := by
    have hsplit : blk.take ((k + 1) * xsize) =
        blk.take xsize ++ (blk.drop xsize).take (k * xsize) := by
      rw [Nat.succ_mul, Nat.add_comm, List.take_add]
    have hpos : 0 < k * (xsize : ℕ) := Nat.mul_pos hk xsize.2
    rw [List.length_drop] at hklt
    have hinner := h.inner (k + 1) (Nat.succ_pos k) (by rw [Nat.succ_mul]; omega)
    rw [hsplit, List.getLast?_append] at hinner
    intro hlast
    simp [hlast] at hinner

variable (arrived) in
theorem grdmsgFrom_eq (rest : Packets) (blk : List UInt8) (h : Framed xsize blk) (fuel n : ℕ)
    (hfuel : (pkwrite xsize blk).length ≤ fuel) :
    ∃ n', grdmsgFrom arrived xsize fuel ⟨pkwrite xsize blk ++ rest, n⟩ =
      some (blk, ⟨rest, n'⟩) := by
  induction fuel generalizing blk n with
  | zero =>
    have hne : pkwrite xsize blk ≠ [] := by
      rw [pkwrite]
      split_ifs <;> simp
    exact absurd (Nat.le_zero.mp hfuel) (by simpa using hne)
  | succ fuel ih =>
    have hle := h.le
    rcases Nat.eq_or_lt_of_le hle with heq | hlt
    · rw [pkwrite_of_le heq.ge]
      refine ⟨n + 1, ?_⟩
      simp [grdmsgFrom, Reader.pkread, pkread_full heq.symm xsize.2, h.last]
    · have hlen : (blk.take xsize).length = xsize := List.length_take_of_le hle
      have hinner : (blk.take xsize).getLast? ≠ some 0 := by
        have hinner := h.inner 1 Nat.one_pos
        rw [Nat.one_mul] at hinner
        exact hinner hlt
      rw [pkwrite_of_lt hlt] at hfuel ⊢
      obtain ⟨n', hrec⟩ := ih (blk.drop xsize) (h.drop hlt) (n + 1)
        (Nat.le_of_succ_le_succ hfuel)
      refine ⟨n', ?_⟩
      simp [grdmsgFrom, Reader.pkread, pkread_full hlen xsize.2, hinner, hrec]

theorem padded_spec {p : ℕ} (hp : 0 < p) (n : ℕ) :
    p ∣ padded p n ∧ n ≤ padded p n ∧ padded p n < n + p := by
  have hdiv := Nat.div_add_mod n p
  have hmod := Nat.mod_lt n hp
  unfold padded
  split_ifs with h
  · refine ⟨⟨n / p + 1, ?_⟩, by omega, by omega⟩
    rw [Nat.mul_succ]
    omega
  · exact ⟨⟨n / p, by omega⟩, le_rfl, by omega⟩

/-- A string, its null byte and as many bytes more as fill the packet. -/
theorem framed_of_append {p : ℕ} {msg tail : List UInt8} (hmsg : ∀ c ∈ msg, c ≠ 0)
    (htail : tail.getLast? = some 0) (hdvd : p ∣ (msg ++ tail).length)
    (hlen : (msg ++ tail).length < msg.length + 1 + p) : Framed p (msg ++ tail) where
  dvd := hdvd
  last := by rw [List.getLast?_append, htail]; rfl
  inner k hk hklt := by
    have hle : k * p ≤ msg.length := by
      obtain ⟨m, hm⟩ := hdvd
      rw [hm, Nat.mul_comm k p] at hklt
      have hkm : k + 1 ≤ m := Nat.lt_of_mul_lt_mul_left hklt
      have hmul : p * (k + 1) ≤ p * m := Nat.mul_le_mul_left p hkm
      rw [Nat.mul_succ, Nat.mul_comm p k] at hmul
      omega
    rw [List.take_append_of_le_length hle]
    intro hlast
    exact hmsg 0 (List.mem_of_mem_take (List.mem_of_getLast? hlast)) rfl

/-- A message without the newline at its end. -/
def chomp (text : List UInt8) : List UInt8 :=
  if text.getLast? = some 10 then text.dropLast else text

theorem takeWhile_append_zero {msg tail : List UInt8} (hmsg : ∀ c ∈ msg, c ≠ 0) :
    (msg ++ 0 :: tail).takeWhile (· ≠ 0) = msg := by
  rw [List.takeWhile_append_of_pos (by simpa using hmsg)]
  simp

/-- The buffer once the newline is gone. -/
theorem chomp_bufr (text d : List UInt8) :
    ∃ tl, (if text.getLast? = some 10 then (text ++ 0 :: d).set (text.length - 1) 0
      else text ++ 0 :: d) = chomp text ++ 0 :: tl := by
  unfold chomp
  split_ifs with h
  · obtain ⟨ys, rfl⟩ := List.getLast?_eq_some_iff.mp h
    refine ⟨0 :: d, ?_⟩
    rw [List.append_assoc, List.set_append_right _ _ (by simp)]
    simp
  · exact ⟨d, rfl⟩

theorem length_chomp_le (text : List UInt8) : (chomp text).length ≤ text.length := by
  unfold chomp
  split_ifs
  · rw [List.length_dropLast]
    exact Nat.sub_le _ _
  · exact le_rfl

theorem mem_of_mem_chomp {text : List UInt8} {c : UInt8} (h : c ∈ chomp text) : c ∈ text := by
  unfold chomp at h
  split_ifs at h
  · exact List.dropLast_subset _ h
  · exact h

/-- Where the last byte of the block is set to null. -/
theorem block_eq {msg tl : List UInt8} {len : ℕ} (hlt : msg.length < len)
    (hle : len ≤ (msg ++ 0 :: tl).length) :
    ∃ tail, ((msg ++ 0 :: tl).set (len - 1) 0).take len = msg ++ 0 :: tail ∧
      (0 :: tail).getLast? = some 0 ∧ (msg ++ 0 :: tail).length = len := by
  obtain ⟨j, rfl⟩ : ∃ j, len = msg.length + j + 1 := ⟨len - msg.length - 1, by omega⟩
  have hset : (msg ++ 0 :: tl).set (msg.length + j) 0 = msg ++ (0 :: tl).set j 0 := by
    rw [List.set_append_right _ _ (Nat.le_add_right ..), Nat.add_sub_cancel_left]
  have htake : (msg ++ (0 :: tl).set j 0).take (msg.length + j + 1) =
      msg ++ ((0 :: tl).set j 0).take (j + 1) := by
    rw [Nat.add_assoc, List.take_length_add_append]
  have hj : j < (0 :: tl).length := by
    rw [List.length_append] at hle
    omega
  have hlast : (((0 :: tl).set j 0).take (j + 1)).getLast? = some 0 := by
    rw [List.getLast?_take, if_neg (Nat.succ_ne_zero j), Nat.add_sub_cancel,
      List.getElem?_set_self hj]
    rfl
  have hhead : ((0 :: tl).set j 0).take (j + 1) = 0 :: (tl.set (j - 1) 0).take j := by
    cases j with
    | zero => simp
    | succ j => simp
  rw [hhead] at hlast
  refine ⟨_, ?_, hlast, ?_⟩
  · rw [Nat.add_sub_cancel, hset, htake, hhead]
  · rw [List.length_cons] at hj
    rw [List.length_append, List.length_cons, List.length_take, List.length_set]
    omega

/-- What `gwrmsg` writes is framed, and its string is the message. -/
theorem gwrmsg_eq {BUFSIZ : ℕ} {bufr : List UInt8} {type : UInt8} {str : List UInt8}
    (hbufr : bufr.length = BUFSIZ) (htext : ∀ c ∈ type :: str, c ≠ 0)
    (hlen : str.length + xsize < BUFSIZ) :
    ∃ blk, gwrmsg BUFSIZ xsize bufr type str = some (pkwrite xsize blk) ∧
      Framed xsize blk ∧ blk.takeWhile (· ≠ 0) = chomp (type :: str) := by
  have hstr : str.takeWhile (· ≠ 0) = str := by
    rw [List.takeWhile_eq_self_iff]
    exact fun c hc => by simpa using htext c (List.mem_cons_of_mem _ hc)
  have hpos : 0 < (xsize : ℕ) := xsize.2
  obtain ⟨tl, htl⟩ := chomp_bufr (type :: str) (bufr.drop ((type :: str).length + 1))
  have hmsg : ∀ c ∈ chomp (type :: str), c ≠ 0 := fun c hc => htext c (mem_of_mem_chomp hc)
  have hmsglen := length_chomp_le (type :: str)
  have htllen := congrArg List.length htl
  have hwhole : (chomp (type :: str) ++ 0 :: tl).length = BUFSIZ := by
    rw [← htllen, List.length_cons]
    split_ifs <;> simp <;> omega
  have hstrlen : strlen (chomp (type :: str) ++ 0 :: tl) = (chomp (type :: str)).length := by
    rw [strlen, takeWhile_append_zero hmsg]
  obtain ⟨hdvd, hge, hlt⟩ := padded_spec hpos ((chomp (type :: str)).length + 1)
  rw [List.length_cons] at hmsglen
  have hfits : padded (xsize : ℕ) ((chomp (type :: str)).length + 1) ≤
      (chomp (type :: str) ++ 0 :: tl).length := by
    rw [hwhole]
    omega
  obtain ⟨tail, hblk, hlast, hblklen⟩ := block_eq (Nat.lt_of_succ_le hge) hfits
  refine ⟨chomp (type :: str) ++ 0 :: tail, ?_, ?_, takeWhile_append_zero hmsg⟩
  · unfold gwrmsg
    simp only [hstr, htl, hstrlen, hblk]
    rw [if_pos ⟨by rw [List.length_cons]; omega, by omega⟩]
  · exact framed_of_append hmsg hlast (hblklen ▸ hdvd) (by rw [hblklen]; omega)

/-! ### Files -/

/-- What `pkread` takes off packets with data, in front of an empty one. -/
structure Taken (ps : Packets) (icount : ℕ) (ibuf : List UInt8) (ps' : Packets) : Prop where
  data : ps.flatten = ibuf ++ ps'.flatten
  le : ibuf.length ≤ icount
  ne : ∀ p ∈ ps', p ≠ []

theorem pkreadFrom_taken (rest : Packets) (m : ℕ) {ps : Packets} (hps : ∀ p ∈ ps, p ≠ [])
    (icount : ℕ) {xfr : Bool} (hxfr : xfr = true ∨ ps ≠ []) :
    ∃ ps', Taken ps icount (pkreadFrom xfr ((ps ++ [] :: rest).take m) icount).1 ps' ∧
      (pkreadFrom xfr ((ps ++ [] :: rest).take m) icount).2 ++ (ps ++ [] :: rest).drop m =
        ps' ++ [] :: rest := by
  induction m generalizing ps icount xfr with
  | zero => exact ⟨ps, ⟨rfl, Nat.zero_le _, hps⟩, rfl⟩
  | succ m ih =>
    rcases Nat.eq_zero_or_pos icount with rfl | hpos
    · rw [pkreadFrom_zero, List.take_append_drop]
      exact ⟨ps, ⟨rfl, le_rfl, hps⟩, rfl⟩
    cases ps with
    | nil =>
      have htrue : xfr = true := hxfr.resolve_right (by simp)
      have hfrom : pkreadFrom xfr (([] :: rest).take (m + 1)) icount =
          ([], ([] :: rest).take (m + 1)) := by
        simp [pkreadFrom, htrue]
      rw [List.nil_append, hfrom, List.take_append_drop]
      exact ⟨[], ⟨rfl, Nat.zero_le _, hps⟩, rfl⟩
    | cons p ps =>
      have hp : p.length ≠ 0 := fun h => hps p (by simp) (List.length_eq_zero_iff.mp h)
      have hps' : ∀ q ∈ ps, q ≠ [] := fun q hq => hps q (by simp [hq])
      rw [List.cons_append, List.take_succ_cons, List.drop_succ_cons]
      rcases Nat.lt_or_ge icount p.length with hlt | hge
      · have hfrom : pkreadFrom xfr (p :: (ps ++ [] :: rest).take m) icount =
            (p.take icount, p.drop icount :: (ps ++ [] :: rest).take m) := by
          have hmin : min p.length icount = icount := Nat.min_eq_right hlt.le
          simp [pkreadFrom, hmin, Nat.ne_of_gt hpos, Nat.sub_ne_zero_of_lt hlt]
        refine ⟨p.drop icount :: ps, ⟨?_, ?_, ?_⟩, ?_⟩
        · rw [hfrom, List.flatten_cons, List.flatten_cons, ← List.append_assoc,
            List.take_append_drop]
        · rw [hfrom]
          exact List.length_take_le ..
        · rintro q (_ | ⟨_, hq⟩)
          · rw [Ne, List.drop_eq_nil_iff]
            omega
          · exact hps' q hq
        · rw [hfrom, List.cons_append, List.take_append_drop]
          rfl
      · obtain ⟨ps', htaken, hline⟩ := ih hps' (icount - p.length) (.inl (Eq.refl true))
        have hfrom : pkreadFrom xfr (p :: (ps ++ [] :: rest).take m) icount =
            (p ++ (pkreadFrom true ((ps ++ [] :: rest).take m) (icount - p.length)).1,
              (pkreadFrom true ((ps ++ [] :: rest).take m) (icount - p.length)).2) := by
          have hmin : min p.length icount = p.length := Nat.min_eq_left hge
          have hp' : p ≠ [] := hps p (by simp)
          simp [pkreadFrom, hmin, Nat.ne_of_gt hpos, hp']
        refine ⟨ps', ⟨?_, ?_, htaken.ne⟩, by rw [hfrom, hline]⟩
        · rw [hfrom, List.flatten_cons, List.append_assoc, htaken.data]
        · have hle := htaken.le
          rw [hfrom, List.length_append]
          omega

theorem pkreadFrom_ne_nil {p : List UInt8} (hp : p ≠ []) (ps : Packets) {icount : ℕ}
    (hpos : 0 < icount) (xfr : Bool) : (pkreadFrom xfr (p :: ps) icount).1 ≠ [] := by
  have hlen := List.length_pos_iff.mpr hp
  have hmin : min p.length icount ≠ 0 := by omega
  unfold pkreadFrom
  simp only [if_neg (Nat.ne_of_gt hpos), hmin, false_and, if_false]
  split_ifs <;> simp [hp, Nat.ne_of_gt hpos]

variable (arrived) in
theorem Reader.pkread_data {ps : Packets} (hps : ∀ p ∈ ps, p ≠ []) (hne : ps ≠ [])
    {icount : ℕ} (hpos : 0 < icount) (rest : Packets) (n : ℕ) :
    ∃ ibuf ps', ibuf ≠ [] ∧ Taken ps icount ibuf ps' ∧
      Reader.pkread arrived icount ⟨ps ++ [] :: rest, n⟩ =
        some (ibuf, ⟨ps' ++ [] :: rest, n + 1⟩) := by
  obtain ⟨ps', htaken, hline⟩ :=
    pkreadFrom_taken rest (arrived n + 1) hps icount (.inr hne : false = true ∨ ps ≠ [])
  refine ⟨_, ps', ?_, htaken, ?_⟩
  · obtain ⟨p, qs, rfl⟩ := List.exists_cons_of_ne_nil hne
    exact pkreadFrom_ne_nil (hps p (by simp)) _ hpos false
  · simp only [Reader.pkread, Gio.pkread]
    rw [if_neg (by simp), hline]
    rfl

theorem Reader.pkread_empty {icount : ℕ} (hpos : 0 < icount) (rest : Packets) (n : ℕ) :
    Reader.pkread arrived icount ⟨[] :: rest, n⟩ = some ([], ⟨rest, n + 1⟩) := by
  simp [Reader.pkread, Gio.pkread, pkreadFrom, Nat.ne_of_gt hpos]

variable (arrived) in
/-- `grdblk` gets `len` bytes, or all there are and the empty packet behind them. -/
theorem grdblkFrom_eq (rest : Packets) (fuel len n : ℕ) {ps : Packets} (hps : ∀ p ∈ ps, p ≠ [])
    (hfuel : ps.flatten.length < fuel) :
    (ps.flatten.length < len ∧ ∃ n', grdblkFrom arrived fuel len ⟨ps ++ [] :: rest, n⟩ =
        some (ps.flatten, ⟨rest, n'⟩)) ∨
      len ≤ ps.flatten.length ∧ ∃ blk ps' n', Taken ps len blk ps' ∧ blk.length = len ∧
        grdblkFrom arrived fuel len ⟨ps ++ [] :: rest, n⟩ =
          some (blk, ⟨ps' ++ [] :: rest, n'⟩) := by
  induction fuel generalizing len n ps with
  | zero => exact absurd hfuel (Nat.not_lt_zero _)
  | succ fuel ih =>
    rcases Nat.eq_zero_or_pos len with rfl | hpos
    · exact .inr ⟨Nat.zero_le _, [], ps, n, ⟨rfl, le_rfl, hps⟩, rfl, by simp [grdblkFrom]⟩
    have hlen := Nat.ne_of_gt hpos
    by_cases hne : ps = []
    · subst hne
      refine .inl ⟨hpos, n + 1, ?_⟩
      simp [grdblkFrom, hlen, Reader.pkread_empty hpos]
    · obtain ⟨ibuf, ps', hibuf, htaken, hread⟩ :=
        Reader.pkread_data arrived hps hne hpos rest n
      have hdata := congrArg List.length htaken.data
      rw [List.length_append] at hdata
      have hibuflen := List.length_pos_iff.mpr hibuf
      have hle := htaken.le
      rcases ih (len - ibuf.length) (n + 1) htaken.ne (by omega) with
        ⟨hlt, n', hrec⟩ | ⟨hge, blk, ps'', n', htaken', hblk, hrec⟩
      · refine .inl ⟨by omega, n', ?_⟩
        simp [grdblkFrom, hlen, hread, hibuf, hrec, htaken.data]
      · refine .inr ⟨by omega, ibuf ++ blk, ps'', n', ⟨?_, ?_, htaken'.ne⟩, ?_, ?_⟩
        · rw [htaken.data, htaken'.data, List.append_assoc]
        · rw [List.length_append]
          omega
        · rw [List.length_append]
          omega
        · simp [grdblkFrom, hlen, hread, hibuf, hrec]

variable (arrived) in
/-- `grddata` gets the data in front of the empty packet, and that packet. -/
theorem grddataFrom_eq (BUFSIZ : ℕ) (hpos : 0 < BUFSIZ) (rest : Packets) (fuel n : ℕ)
    {ps : Packets} (hps : ∀ p ∈ ps, p ≠ []) (hfuel : ps.flatten.length < fuel) :
    ∃ n', grddataFrom arrived BUFSIZ fuel ⟨ps ++ [] :: rest, n⟩ =
      some (ps.flatten, ⟨rest, n'⟩) := by
  induction fuel generalizing n ps with
  | zero => exact absurd hfuel (Nat.not_lt_zero _)
  | succ fuel ih =>
    have hsize : ps.flatten.length < Reader.size ⟨ps ++ [] :: rest, n⟩ + 1 := by
      simp only [Reader.size, List.flatten_append, List.length_append]
      omega
    rcases grdblkFrom_eq arrived rest _ BUFSIZ n hps hsize with
      ⟨hlt, n', hblk⟩ | ⟨hge, blk, ps', n', htaken, hlen, hblk⟩
    · refine ⟨n', ?_⟩
      simp [grddataFrom, grdblk, hblk, hlt, -List.length_flatten]
    · have hdata := congrArg List.length htaken.data
      rw [List.length_append] at hdata
      obtain ⟨n'', hrec⟩ := ih n' htaken.ne (by omega)
      refine ⟨n'', ?_⟩
      simp [grddataFrom, grdblk, hblk, hlen, hrec, htaken.data]

variable (xsize) in
theorem pkwrite_data {ibuf : List UInt8} (hne : ibuf ≠ []) :
    (pkwrite xsize ibuf).flatten = ibuf ∧ ∀ p ∈ pkwrite xsize ibuf, p ≠ [] := by
  have hpos : 0 < (xsize : ℕ) := xsize.2
  fun_induction pkwrite xsize ibuf with
  | case1 ibuf hnil =>
    have htake : ibuf.take xsize = ibuf :=
      List.take_of_length_le (List.drop_eq_nil_iff.mp hnil)
    simpa [htake] using hne
  | case2 ibuf hdrop ih =>
    obtain ⟨hflat, hps⟩ := ih hdrop
    constructor
    · rw [List.flatten_cons, hflat, List.take_append_drop]
    · rintro p (_ | ⟨_, hp⟩)
      · simp [hne, Nat.ne_of_gt hpos]
      · exact hps p hp

variable (xsize) in
theorem gwrBlocks_data (BUFSIZ : ℕ+) (file : List UInt8) :
    (gwrBlocks BUFSIZ xsize file).flatten = file ∧
      ∀ p ∈ gwrBlocks BUFSIZ xsize file, p ≠ [] := by
  have hpos : 0 < (BUFSIZ : ℕ) := BUFSIZ.2
  fun_induction gwrBlocks BUFSIZ xsize file with
  | case1 => simp
  | case2 file hne ih =>
    have htake : file.take BUFSIZ ≠ [] := by simp [hne, Nat.ne_of_gt hpos]
    obtain ⟨hflat, hps⟩ := pkwrite_data xsize htake
    split_ifs with hshort
    · have hall : file.take BUFSIZ = file := by
        apply List.take_of_length_le
        rw [List.length_take] at hshort
        omega
      rw [hall] at hflat hps ⊢
      rw [List.append_nil]
      exact ⟨hflat, hps⟩
    · constructor
      · rw [List.flatten_append, hflat, ih.1, List.take_append_drop]
      · intro p hp
        rcases List.mem_append.mp hp with hp | hp
        · exact hps p hp
        · exact ih.2 p hp

/-! ### Sequences of calls -/

/-- `bufr` is what happens to be in the buffer of `gwrmsg`. -/
inductive Call
  | msg (bufr : List UInt8) (type : UInt8) (str : List UInt8)
  | data (file : List UInt8)

def Call.write (BUFSIZ xsize : ℕ+) : Call → Option Packets
  | .msg bufr type str => gwrmsg BUFSIZ xsize bufr type str
  | .data file => some (gwrdata BUFSIZ xsize file)

/-- The call at the other end. -/
def Call.read (arrived : ℕ → ℕ) (BUFSIZ packsize : ℕ+) (r : Reader) :
    Call → Option (List UInt8 × Reader)
  | .msg .. => grdmsg arrived packsize r
  | .data _ => grddata arrived BUFSIZ r

/-- What it is to return or to write. -/
def Call.content : Call → List UInt8
  | .msg _ type str => chomp (type :: str)
  | .data file => file

def Call.Ok (BUFSIZ xsize : ℕ+) : Call → Prop
  | .msg bufr type str => bufr.length = BUFSIZ ∧ (∀ c ∈ type :: str, c ≠ 0) ∧
      str.length + xsize < BUFSIZ
  | .data _ => True

def writeAll (BUFSIZ xsize : ℕ+) : List Call → Option Packets
  | [] => some []
  | call :: calls => do
    let line ← call.write BUFSIZ xsize
    let lines ← writeAll BUFSIZ xsize calls
    some (line ++ lines)

def readAll (arrived : ℕ → ℕ) (BUFSIZ packsize : ℕ+) :
    List Call → Reader → Option (List (List UInt8) × Reader)
  | [], r => some ([], r)
  | call :: calls, r => do
    let (content, r) ← call.read arrived BUFSIZ packsize r
    let (contents, r) ← readAll arrived BUFSIZ packsize calls r
    some (content :: contents, r)

variable (arrived) in
/-- One call takes what the other has written and nothing behind it. -/
theorem Call.read_write {BUFSIZ : ℕ+} {call : Call} (h : call.Ok BUFSIZ xsize) (rest : Packets)
    (n : ℕ) : ∃ line n', call.write BUFSIZ xsize = some line ∧
      call.read arrived BUFSIZ xsize ⟨line ++ rest, n⟩ = some (call.content, ⟨rest, n'⟩) := by
  cases call with
  | msg bufr type str =>
    obtain ⟨hbufr, htext, hlen⟩ := h
    obtain ⟨blk, hwrite, hframed, hmsg⟩ := gwrmsg_eq hbufr htext hlen
    have hsize : (pkwrite xsize blk).length ≤ Reader.size ⟨pkwrite xsize blk ++ rest, n⟩ := by
      simp only [Reader.size, List.length_append]
      omega
    obtain ⟨n', hread⟩ := grdmsgFrom_eq arrived rest blk hframed _ n hsize
    refine ⟨_, n', hwrite, ?_⟩
    simp only [Call.read, grdmsg, hread, Option.map_some, hmsg, Call.content]
  | data file =>
    obtain ⟨hflat, hps⟩ := gwrBlocks_data xsize BUFSIZ file
    have hempty : pkwrite xsize [] = [[]] := pkwrite_of_le (Nat.zero_le _)
    have hline : gwrdata BUFSIZ xsize file ++ rest =
        gwrBlocks BUFSIZ xsize file ++ [] :: rest := by
      rw [gwrdata, hempty, List.append_assoc]
      rfl
    have hsize : (gwrBlocks BUFSIZ xsize file).flatten.length <
        Reader.size ⟨gwrBlocks BUFSIZ xsize file ++ [] :: rest, n⟩ + 1 := by
      simp only [Reader.size, List.flatten_append, List.length_append]
      omega
    obtain ⟨n', hread⟩ :=
      grddataFrom_eq arrived BUFSIZ BUFSIZ.2 rest _ n hps hsize
    refine ⟨_, n', rfl, ?_⟩
    rw [hline, Call.read, grddata, hread, hflat]
    rfl

/-- Every call at the other end gets what its call has sent, whatever has come when, and
leaves the packets of the later ones. -/
theorem readAll_writeAll (arrived : ℕ → ℕ) (BUFSIZ xsize : ℕ+) (calls : List Call)
    (h : ∀ call ∈ calls, call.Ok BUFSIZ xsize) (rest : Packets) (n : ℕ) :
    ∃ line n', writeAll BUFSIZ xsize calls = some line ∧
      readAll arrived BUFSIZ xsize calls ⟨line ++ rest, n⟩ =
        some (calls.map Call.content, ⟨rest, n'⟩) := by
  induction calls generalizing n with
  | nil => exact ⟨[], n, rfl, rfl⟩
  | cons call calls ih =>
    have hcalls : ∀ c ∈ calls, c.Ok BUFSIZ xsize := fun c hc => h c (by simp [hc])
    obtain ⟨lines, _, hwrites, -⟩ := ih hcalls 0
    obtain ⟨line, n', hwrite, hread⟩ :=
      Call.read_write arrived (h call (by simp)) (lines ++ rest) n
    obtain ⟨lines', n'', hwrites', hreads⟩ := ih hcalls n'
    obtain rfl : lines = lines' := Option.some.inj (hwrites.symm.trans hwrites')
    refine ⟨line ++ lines, n'', by simp [writeAll, hwrite, hwrites], ?_⟩
    simp [readAll, hread, hreads]

/-- A message that fills a packet with its null byte, and a file of one packet. -/
theorem readAll_writeAll_two :
    ∃ line n', writeAll ⟨8, by decide⟩ ⟨4, by decide⟩
        [.msg (List.replicate 8 9) 83 [97, 98], .data [1, 2, 3, 4]] = some line ∧
      readAll (fun _ => 5) ⟨8, by decide⟩ ⟨4, by decide⟩
        [.msg (List.replicate 8 9) 83 [97, 98], .data [1, 2, 3, 4]] ⟨line ++ [], 0⟩ =
          some ([[83, 97, 98], [1, 2, 3, 4]], ⟨[], n'⟩) := by
  have htext : ∀ c ∈ [(83 : UInt8), 97, 98], c ≠ 0 :=
    List.forall_mem_cons.mpr ⟨by decide, List.forall_mem_cons.mpr ⟨by decide,
      List.forall_mem_singleton.mpr (by decide)⟩⟩
  have hok : ∀ call ∈ [Call.msg (List.replicate 8 9) 83 [97, 98], .data [1, 2, 3, 4]],
      call.Ok ⟨8, by decide⟩ ⟨4, by decide⟩ :=
    List.forall_mem_cons.mpr ⟨show Call.Ok _ _ (.msg ..) from ⟨rfl, htext, by decide⟩,
      List.forall_mem_singleton.mpr (show Call.Ok _ _ (.data _) from trivial)⟩
  exact readAll_writeAll (fun _ => 5) ⟨8, by decide⟩ ⟨4, by decide⟩ _ hok [] 0

end Unitas.Bnu.Gio
