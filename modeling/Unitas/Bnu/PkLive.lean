import Mathlib
import Unitas.Bnu.Pk
import Unitas.Lib.Transition

/-! What the two sides of the `g` protocol have agreed on when both are live. -/
namespace Unitas.Bnu.Pk
open Unitas.Transition

variable {own other : Party} {pk : Pack} {b : Bufs} {i : Fin 8} {n val : ℕ}

/-! ### Packet sizes -/

theorem halvings_eq_log {fuel n : ℕ} (h : n < 2 ^ fuel) : halvings fuel n = Nat.log 2 n := by
  induction fuel generalizing n with
  | zero => rw [halvings, Nat.log_of_lt (by omega)]
  | succ fuel ih =>
    unfold halvings
    split_ifs with hone
    · rw [Nat.log_of_lt (by omega)]
    · rw [ih (by rw [pow_succ] at h; omega),
        ← Nat.log_of_one_lt_of_le Nat.one_lt_two (show 2 ≤ n by omega)]

theorem pksize_eq_log (h : n ≤ 4096) : pksize n = Nat.log 2 (n / 32) :=
  halvings_eq_log (show n / 32 < 2 ^ 15 by omega)

theorem Party.le_size (p : Party) : 32 ≤ p.size ∧ p.size ≤ 4096 := by
  have hle := p.protocol.old_le
  have hge := p.protocol.le_old
  unfold Party.size Protocol.packsize
  simp only [MINPACKSIZE, MAXPACKSIZE, PACKSIZE, OLDPACKSIZE] at *
  cases p.protocol.options with
  | none =>
    dsimp only
    split_ifs <;> omega
  | some o =>
    dsimp only
    split_ifs <;> omega

theorem Party.bufs_le (p : Party) : p.bufs ≤ 7 := by
  have hle := p.le
  unfold Protocol.windows at hle
  simp only [MINWINDOWS, MAXWINDOWS, WINDOWS] at hle
  cases hopt : p.protocol.options with
  | none =>
    rw [hopt] at hle
    dsimp only at hle
    omega
  | some o =>
    rw [hopt] at hle
    dsimp only at hle
    split_ifs at hle <;> omega

theorem pksize_lt (h : n ≤ 4096) : pksize n < 8 := by
  rw [pksize_eq_log h]
  exact Nat.log_lt_of_lt_pow' (by omega) (by omega)

/-- What a side takes the packet size `n` of the other for. -/
def told (n : ℕ) : ℕ := pksizes.getD (pksize n + 1) 0

theorem pksizes_getD : ∀ k < 8, pksizes.getD (k + 1) 0 = 32 * 2 ^ k := by decide

theorem told_eq (h : n ≤ 4096) : told n = 32 * 2 ^ pksize n := pksizes_getD _ (pksize_lt h)

theorem told_eq_iff (h : 32 ≤ n) (h' : n ≤ 4096) : told n = n ↔ ∃ k, n = 32 * 2 ^ k := by
  rw [told_eq h']
  constructor
  · intro heq
    exact ⟨_, heq.symm⟩
  · rintro ⟨k, rfl⟩
    rw [pksize_eq_log h', Nat.mul_div_cancel_left _ (by decide), Nat.log_pow Nat.one_lt_two]

/-! ### What each side knows -/

/-- A packet that a side can have sent. -/
def Packet.From (own : Party) : Packet → Prop
  | .cntl c => ∃ (i : Fin 8) (val : ℕ), val < 8 ∧ c = i * 8 + val ∧
      (i = INITC ∨ i = INITA → val = own.bufs) ∧ (i = INITB → val = pksize own.size)
  | .data _ => True

/-- With INITA a side has learned the window of the other, with INITB its packet size. -/
structure Pack.Knows (own other : Party) (pk : Pack) : Prop where
  rsize : pk.rsize = own.size
  rwindow : pk.rwindow = own.bufs
  swindow : pk.state.inita = true ∨ pk.state.live = true → pk.swindow = other.bufs
  xsize : pk.state.initb = true ∨ pk.state.live = true → pk.xsize = told other.size

theorem Pack.Knows.val_spec (h : pk.Knows own other) (pr i : Fin 8) : pk.val pr i < 8 ∧
    (i = INITC ∨ i = INITA → pk.val pr i = own.bufs) ∧
    (i = INITB → pk.val pr i = pksize own.size) := by
  have hbufs := own.bufs_le
  have hsize := pksize_lt own.le_size.2
  unfold Pack.val
  rw [h.rsize, h.rwindow]
  split_ifs with hr hb hw
  · rcases hr with rfl | rfl
    · exact ⟨pr.isLt, fun heq => absurd heq (by decide), fun heq => absurd heq (by decide)⟩
    · exact ⟨pr.isLt, fun heq => absurd heq (by decide), fun heq => absurd heq (by decide)⟩
  · subst hb
    exact ⟨hsize, fun heq => absurd heq (by decide), fun _ => rfl⟩
  · exact ⟨by omega, fun _ => rfl, fun heq => absurd heq hb⟩
  · exact ⟨by decide, fun heq => absurd heq hw, fun heq => absurd heq hb⟩

/-- A side that knows what it is to know, and what it has sent. -/
def Sound (own other : Party) (out : Pack × List Packet) : Prop :=
  out.1.Knows own other ∧ ∀ q ∈ out.2, q.From own

theorem Pack.Knows.sound (h : pk.Knows own other) : Sound own other (pk, []) := ⟨h, nofun⟩

theorem Pack.Knows.sendData (h : pk.Knows own other) (b : Bufs) :
    Sound own other (pk.sendData b) := by
  unfold Pack.sendData
  split_ifs
  · exact h.sound
  · exact ⟨⟨h.rsize, h.rwindow, h.swindow, h.xsize⟩, List.forall_mem_singleton.mpr trivial⟩
  · exact h.sound

theorem Pack.Knows.pkoutput (h : pk.Knows own other) (b : Bufs) :
    Sound own other (Pk.pkoutput b pk) := by
  unfold Pk.pkoutput
  split
  · rename_i i _
    split_ifs
    · obtain ⟨hlt, hwindow, hsize⟩ := h.val_spec b.pr i
      exact ⟨⟨h.rsize, h.rwindow, h.swindow, h.xsize⟩,
        List.forall_mem_singleton.mpr ⟨i, _, hlt, rfl, hwindow, hsize⟩⟩
    · exact h.sendData b
  · exact h.sendData b

theorem Pack.Knows.initb (h : pk.Knows own other) (hval : val = pksize other.size) :
    (pk.initb val).Knows own other := by
  subst hval
  unfold Pack.initb
  dsimp only
  split_ifs
  · exact ⟨h.rsize, h.rwindow, h.swindow, fun _ => rfl⟩
  · exact ⟨h.rsize, h.rwindow, h.swindow, fun _ => rfl⟩
  · exact ⟨h.rsize, h.rwindow, h.swindow, fun _ => rfl⟩

theorem Pack.Knows.initc (h : pk.Knows own other) (hval : val = other.bufs) :
    (pk.initc val).Knows own other := by
  subst hval
  have hpos : other.bufs ≠ 0 := other.pos.ne'
  unfold Pack.initc
  rw [if_pos hpos]
  split_ifs with hab
  · exact ⟨h.rsize, h.rwindow, fun _ => rfl, fun _ => h.xsize (.inl hab.2)⟩
  · exact ⟨h.rsize, h.rwindow, fun _ => rfl, h.xsize⟩

theorem Pack.Knows.inita (h : pk.Knows own other) (hval : val = other.bufs) :
    (pk.inita val).Knows own other := by
  subst hval
  have hpos : other.bufs ≠ 0 := other.pos.ne'
  unfold Pack.inita
  rw [if_neg fun hzero => hpos hzero.1, if_pos hpos]
  exact ⟨h.rsize, h.rwindow, fun _ => rfl, h.xsize⟩

theorem Pack.Knows.cntl (h : pk.Knows own other)
    (hwindow : i = INITC ∨ i = INITA → val = other.bufs)
    (hsize : i = INITB → val = pksize other.size) : (pk.cntl i val).Knows own other := by
  unfold Pack.cntl
  split_ifs with hb hc ha
  · exact h.initb (hsize hb)
  · exact h.initc (hwindow (.inl hc))
  · exact h.inita (hwindow (.inr ha))
  · exact ⟨h.rsize, h.rwindow, h.swindow, h.xsize⟩
  · exact h

theorem decode (i : Fin 8) (h : val < 8) : (i * 8 + val) % 8 = val ∧
    Fin.ofNat 8 ((i * 8 + val) / 8) = i ∧ (i * 8 + val) / 64 % 4 = 0 := by
  have hi := i.isLt
  refine ⟨by omega, Fin.ext ?_, by omega⟩
  change (i * 8 + val) / 8 % 8 = i
  omega

theorem pkcntl_eq (b : Bufs) (pk : Pack) (i : Fin 8) (h : val < 8) :
    pkcntl b (i * 8 + val) pk =
      if i = CLOSE then ({ pk with state := { DEAD with down := true, rclose := true } }, [])
      else if ∃ j, (pk.cntl i val).msg j then pkoutput b (pk.cntl i val)
      else (pk.cntl i val, []) := by
  obtain ⟨hval, hi, htop⟩ := decode i h
  unfold pkcntl
  dsimp only
  rw [hval, hi, htop, if_neg (not_not.mpr rfl)]

theorem Pack.Knows.pkgetpack (h : pk.Knows own other) (b : Bufs) {q : Packet} (hq : q.From other) :
    Sound own other (Pk.pkgetpack b pk q) := by
  cases q with
  | cntl c =>
    obtain ⟨i, val, hval, rfl, hwindow, hsize⟩ := hq
    have hcntl := h.cntl hwindow hsize
    change Sound own other (pkcntl b _ pk)
    rw [pkcntl_eq b pk i hval]
    split_ifs
    · exact Pack.Knows.sound ⟨h.rsize, h.rwindow, nofun, nofun⟩
    · exact hcntl.pkoutput b
    · exact hcntl.sound
  | data ksize =>
    change Sound own other (pkdata b ksize pk)
    unfold pkdata
    split_ifs
    · exact h.sound
    · have hmsg : Pack.Knows own other { pk with msg := fun i => pk.msg i || pk.rmsg i } :=
        ⟨h.rsize, h.rwindow, h.swindow, h.xsize⟩
      exact hmsg.pkoutput b
    · exact h.sound

theorem pkopen_sound (own other : Party) : Sound own other (pkopen own) := by
  unfold pkopen
  apply Pack.Knows.pkoutput
  exact ⟨rfl, rfl, nofun, nofun⟩

/-! ### Runs -/

variable {p : Bool → Party} {s s' : Net}

variable {out : Pack × List Packet}

@[simp]
theorem Net.put_pack (s : Net) (i : Bool) : (s.put i out).pack i = out.1 :=
  Function.update_self ..

@[simp]
theorem Net.put_pack_not (s : Net) (i : Bool) : (s.put i out).pack (!i) = s.pack !i :=
  Function.update_of_ne (by cases i <;> decide) ..

@[simp]
theorem Net.put_line (s : Net) (i : Bool) : (s.put i out).line i = s.line i :=
  Function.update_of_ne (by cases i <;> decide) ..

@[simp]
theorem Net.put_line_not (s : Net) (i : Bool) :
    (s.put i out).line (!i) = (s.line !i) ++ out.2 :=
  Function.update_self ..

@[simp]
theorem Net.drop_line (s : Net) (i : Bool) (j : ℕ) :
    (s.drop i j).line i = (s.line i).eraseIdx j :=
  Function.update_self ..

@[simp]
theorem Net.drop_line_not (s : Net) (i : Bool) (j : ℕ) : (s.drop i j).line (!i) = s.line !i :=
  Function.update_of_ne (by cases i <;> decide) ..

structure Net.Agreed (p : Bool → Party) (s : Net) : Prop where
  pack : ∀ i, (s.pack i).Knows (p i) (p !i)
  line : ∀ i, ∀ q ∈ s.line i, q.From (p !i)

theorem Net.Agreed.put (h : s.Agreed p) {i : Bool} (hout : Sound (p i) (p !i) out) :
    (s.put i out).Agreed p := by
  constructor
  · intro k
    obtain rfl | rfl := Bool.eq_or_eq_not k i
    · rw [Net.put_pack]
      exact hout.1
    · rw [Net.put_pack_not]
      exact h.pack _
  · intro k
    obtain rfl | rfl := Bool.eq_or_eq_not k i
    · rw [Net.put_line]
      exact h.line k
    · rw [Net.put_line_not]
      refine List.forall_mem_append.mpr ⟨h.line _, ?_⟩
      rw [Bool.not_not]
      exact hout.2

theorem Net.Agreed.drop (h : s.Agreed p) (i : Bool) (j : ℕ) : (s.drop i j).Agreed p := by
  constructor
  · exact h.pack
  · intro k
    obtain rfl | rfl := Bool.eq_or_eq_not k i
    · rw [Net.drop_line]
      exact fun q hq => h.line _ q (List.mem_of_mem_eraseIdx hq)
    · rw [Net.drop_line_not]
      exact h.line _

theorem Net.Agreed.step (h : s.Agreed p) {a : Act} (hstep : Pk.step s a = some s') :
    s'.Agreed p := by
  have hk := h.pack
  cases a with
  | getpack i j b =>
    rw [Pk.step] at hstep
    split_ifs at hstep
    obtain ⟨q, hq, rfl⟩ := Option.map_eq_some_iff.mp hstep
    exact (h.drop i j).put ((hk i).pkgetpack b (h.line i q (List.mem_of_getElem? hq)))
  | lose i j =>
    obtain rfl := Option.some.inj hstep
    exact h.drop i j
  | retransmit i b =>
    rw [Pk.step] at hstep
    split_ifs at hstep
    obtain rfl := Option.some.inj hstep
    apply h.put
    unfold Pk.retransmit
    apply Pack.Knows.pkoutput
    exact ⟨(hk i).rsize, (hk i).rwindow, (hk i).swindow, (hk i).xsize⟩
  | accept i bad =>
    obtain rfl := Option.some.inj hstep
    apply h.put
    apply Pack.Knows.sound
    exact ⟨(hk i).rsize, (hk i).rwindow, (hk i).swindow, (hk i).xsize⟩
  | output i b =>
    obtain rfl := Option.some.inj hstep
    exact h.put ((hk i).pkoutput b)
  | drain i =>
    obtain rfl := Option.some.inj hstep
    apply h.put
    apply Pack.Knows.sound
    exact ⟨(hk i).rsize, (hk i).rwindow, (hk i).swindow, (hk i).xsize⟩
  | close i b =>
    obtain rfl := Option.some.inj hstep
    apply h.put
    apply Pack.Knows.pkoutput
    exact ⟨(hk i).rsize, (hk i).rwindow, (hk i).swindow, (hk i).xsize⟩

theorem start_agreed (p : Bool → Party) : (start p).Agreed p where
  pack i := (pkopen_sound (p i) (p !i)).1
  line i := (pkopen_sound (p !i) (p i)).2

/-- A state of a run from `pkopen` on. -/
abbrev Reached (p : Bool → Party) (s : Net) : Prop := Reach step (fun _ _ => True) (start p) s

theorem Reached.agreed (h : Reached p s) : s.Agreed p :=
  h.invariant (start_agreed p) fun _ _ _ hinv _ hstep => hinv.step hstep

def Net.Live (s : Net) : Prop := ∀ i, (s.pack i).state.live = true

/-- Both sides send no more, and no other packets, than the other takes. -/
def Net.Agree (s : Net) : Prop := ∀ i,
  (s.pack i).xsize = (s.pack !i).rsize ∧ (s.pack i).swindow ≤ (s.pack !i).rwindow

theorem Net.Agreed.agree_iff (h : s.Agreed p) (hlive : s.Live) :
    s.Agree ↔ ∀ i, ∃ k, (p i).size = 32 * 2 ^ k := by
  have hside : ∀ i, ((s.pack i).xsize = (s.pack !i).rsize ∧
      (s.pack i).swindow ≤ (s.pack !i).rwindow) ↔ ∃ k, (p !i).size = 32 * 2 ^ k := by
    intro i
    obtain ⟨hle, hle'⟩ := (p !i).le_size
    rw [(h.pack i).xsize (.inr (hlive i)), (h.pack i).swindow (.inr (hlive i)),
      (h.pack !i).rsize, (h.pack !i).rwindow, told_eq_iff hle hle']
    exact and_iff_left le_rfl
  constructor
  · intro hagree i
    have hi := (hside !i).mp (hagree !i)
    rwa [Bool.not_not] at hi
  · exact fun hsize i => (hside i).mpr (hsize !i)

/-! ### A run in which nothing is lost -/

theorem pkoutput_one (hmsg : pk.msg = set (fun _ => false) i) (hi : i ≠ RR) (b : Bufs) :
    pkoutput b pk =
      ({ pk with msg := fun _ => false }, [.cntl (i * 8 + pk.val b.pr i)]) := by
  have hfirst : ∀ i, (List.finRange 8).find? (set (fun _ => false) i) = some i := by decide
  have hset : ∀ i, set (fun _ => false) i i = true := by decide
  have hclear : Function.update (set (fun _ => false) i) i false = fun _ => false := by
    rw [set, Function.update_idem, Function.update_eq_self]
  unfold pkoutput
  rw [hmsg, hfirst]
  dsimp only
  rw [if_pos (.inl ⟨i, hi, hset i⟩), hclear]

/-- What a side does with the messages it gets before it is live. -/
theorem pkgetpack_one (pk' : Pack) (hi : i ≠ CLOSE) (hval : val < 8) {k : Fin 8}
    (hcntl : pk.cntl i val = pk') (hmsg : pk'.msg = set (fun _ => false) k) (hk : k ≠ RR)
    (b : Bufs) : pkgetpack b pk (.cntl (i * 8 + val)) =
      ({ pk' with msg := fun _ => false }, [.cntl (k * 8 + pk'.val b.pr k)]) := by
  have hset : ∀ k, set (fun _ => false) k k = true := by decide
  change pkcntl b _ pk = _
  rw [pkcntl_eq b pk i hval, if_neg hi, hcntl, if_pos ⟨k, hmsg ▸ hset k⟩, pkoutput_one hmsg hk]

def opened (p : Party) : Pack where
  state := DEAD
  rsize := p.size
  xsize := p.size
  lpsize := 0
  rwindow := p.bufs
  swindow := p.protocol.windows.toNat
  msg _ := false
  rmsg := set (fun _ => false) INITA

theorem pkopen_eq (p : Party) : pkopen p = (opened p, [.cntl (INITA * 8 + p.bufs)]) :=
  pkoutput_one rfl (by decide) _

def afterInita (p o : Party) : Pack :=
  { opened p with
    state := { DEAD with inita := true }
    rmsg := set (opened p).rmsg INITB
    swindow := o.bufs }

theorem getpack_inita (p o : Party) (b : Bufs) :
    pkgetpack b (opened p) (.cntl (INITA * 8 + o.bufs)) =
      (afterInita p o, [.cntl (INITB * 8 + pksize p.size)]) := by
  have hbufs := o.bufs_le
  refine pkgetpack_one { afterInita p o with msg := set (fun _ => false) INITB } (by decide)
    (by omega) ?_ rfl (by decide) b
  change (opened p).inita o.bufs = _
  unfold Pack.inita
  rw [if_neg fun hzero => o.pos.ne' hzero.1, if_pos o.pos.ne']
  rfl

def afterInitb (p o : Party) : Pack :=
  { afterInita p o with
    state := { DEAD with inita := true, initb := true }
    xsize := told o.size
    lpsize := pksize o.size + 1
    rmsg := clear (afterInita p o).rmsg INITA }

theorem getpack_initb (p o : Party) (b : Bufs) :
    pkgetpack b (afterInita p o) (.cntl (INITB * 8 + pksize o.size)) =
      (afterInitb p o, [.cntl (INITC * 8 + p.bufs)]) :=
  pkgetpack_one { afterInitb p o with msg := set (fun _ => false) INITC } (by decide)
    (pksize_lt o.le_size.2) rfl rfl (by decide) b

def afterInitc (p o : Party) : Pack :=
  { afterInitb p o with state := LIVE, rmsg := clear (afterInitb p o).rmsg INITB }

theorem getpack_initc (p o : Party) (b : Bufs) :
    pkgetpack b (afterInitb p o) (.cntl (INITC * 8 + o.bufs)) = (afterInitc p o, []) := by
  have hbufs := o.bufs_le
  have hcntl : (afterInitb p o).cntl INITC o.bufs = afterInitc p o := by
    change (afterInitb p o).initc o.bufs = _
    unfold Pack.initc
    rw [if_pos o.pos.ne']
    rfl
  change pkcntl b _ _ = _
  rw [pkcntl_eq b _ INITC (by omega), if_neg (by decide), hcntl, if_neg]
  rintro ⟨j, hj⟩
  cases hj

/-- A side gets the first packet on its line. -/
theorem Reached.getpack (h : Reached p s) {i : Bool} {q : Packet} {qs : List Packet}
    (hline : s.line i = q :: qs) (hdown : (s.pack i).state.down = false)
    (hout : pkgetpack b (s.pack i) q = out) : Reached p ((s.drop i 0).put i out) := by
  refine .next (a := .getpack i 0 b) h trivial ?_
  rw [step, if_neg (Bool.eq_false_iff.mp hdown), hline, ← hout]
  rfl

/-- Each side gets the packet of the other. -/
theorem Reached.round (h : Reached p s) {x y : Bool → Pack} {m : Bool → Packet}
    {out : Bool → List Packet} (hpack : s.pack = x) (hline : ∀ i, s.line i = [m !i])
    (hdown : ∀ i, (x i).state.down = false)
    (hout : ∀ i, pkgetpack ⟨false, false, 0⟩ (x i) (m !i) = (y i, out i)) :
    ∃ s', Reached p s' ∧ s'.pack = y ∧ ∀ i, s'.line i = out !i := by
  subst hpack
  have h₁ := h.getpack (hline true) (hdown true) (hout true)
  have hfalse : ((s.drop true 0).put true (y true, out true)).line false =
      m true :: out true :=
    (Net.put_line_not _ true).trans (congrArg (· ++ out true)
      ((Net.drop_line_not s true 0).trans (hline false)))
  have hpack : ((s.drop true 0).put true (y true, out true)).pack false = s.pack false :=
    Net.put_pack_not _ true
  have h₂ := h₁.getpack hfalse (hpack ▸ hdown false) (hpack ▸ hout false)
  refine ⟨_, h₂, funext fun i => ?_, fun i => ?_⟩
  · cases i with
    | false => exact Net.put_pack ..
    | true =>
      have htrue : ((s.drop true 0).put true (y true, out true)).pack true = y true :=
        Net.put_pack ..
      exact (Net.put_pack_not _ false).trans htrue
  · cases i with
    | false =>
      rw [Net.put_line, Net.drop_line, hfalse]
      rfl
    | true =>
      rw [show true = !false from rfl, Net.put_line_not, Net.drop_line_not]
      change ((s.drop true 0).put true (y true, out true)).line true ++ _ = _
      rw [Net.put_line, Net.drop_line, hline true]
      rfl

theorem exists_live (p : Bool → Party) : ∃ s, Reached p s ∧ s.Live := by
  have h₀ : Reached p (start p) := .start
  have hstart : ∀ i, (start p).line i = [.cntl (INITA * 8 + (p !i).bufs)] := by
    intro i
    exact congrArg Prod.snd (pkopen_eq _)
  obtain ⟨s₁, h₁, hpack₁, hline₁⟩ := h₀.round (x := fun i => opened (p i))
    (y := fun i => afterInita (p i) (p !i)) (m := fun i => .cntl (INITA * 8 + (p i).bufs))
    (funext fun i => congrArg Prod.fst (pkopen_eq _)) hstart (fun _ => rfl)
    fun i => getpack_inita _ _ _
  obtain ⟨s₂, h₂, hpack₂, hline₂⟩ := h₁.round (m := fun i => .cntl (INITB * 8 + pksize (p i).size))
    (y := fun i => afterInitb (p i) (p !i)) hpack₁ hline₁ (fun _ => rfl)
    fun i => getpack_initb _ _ _
  obtain ⟨s₃, h₃, hpack₃, -⟩ := h₂.round (m := fun i => .cntl (INITC * 8 + (p i).bufs))
    (y := fun i => afterInitc (p i) (p !i)) hpack₂ hline₂ (fun _ => rfl)
    fun i => getpack_initc _ _ _
  refine ⟨s₃, h₃, fun i => ?_⟩
  rw [hpack₃]
  rfl

/-! ### Agreement -/

/-- Exactly when both packet sizes are 32, 64, 128 and so on, the two sides agree whenever both
are live. -/
theorem live_agree_iff (p : Bool → Party) :
    (∀ s, Reached p s → s.Live → s.Agree) ↔ ∀ i, ∃ k, (p i).size = 32 * 2 ^ k := by
  constructor
  · intro h
    obtain ⟨s, hs, hlive⟩ := exists_live p
    exact (hs.agreed.agree_iff hlive).mp (h s hs hlive)
  · intro hsize s hs hlive
    exact (hs.agreed.agree_iff hlive).mpr hsize

/-- Both sides have asked for packets of 96 bytes. -/
def both96 (_ : Bool) : Party where
  protocol := ⟨true, some (7, 96), 64, by decide, by decide⟩
  bufs := 7
  pos := by decide
  le := by decide

theorem live_disagree : ¬ ∀ s, Reached both96 s → s.Live → s.Agree := by
  intro h
  obtain ⟨s, hs, hlive⟩ := exists_live both96
  obtain ⟨k, hk⟩ := (hs.agreed.agree_iff hlive).mp (h s hs hlive) true
  have hsize : (both96 true).size = 96 := by decide
  rw [hsize] at hk
  have hpow : 2 ^ k = 3 := by omega
  cases k with
  | zero => cases hpow
  | succ k => omega

end Unitas.Bnu.Pk
