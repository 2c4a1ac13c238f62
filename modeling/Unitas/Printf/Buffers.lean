import Unitas.Lib.Transition
import Unitas.Printf.Stops
import Unitas.Printf.Output

/-! The stores of `printf` into its three buffers, which are arrays of `BUFSIZ` characters here. -/
namespace Unitas.Printf
open Unitas.Stopping Unitas.Transition

inductive Buffer
  | buf
  | fbuf
  | bbuf
  deriving DecidableEq, Repr

/-- A store of characters from an index on, with a NUL behind them or without. -/
structure Store where
  buffer : Buffer
  pos : ℕ
  text : List UInt8
  nul : Bool

def Store.bytes (w : Store) : List UInt8 := w.text ++ if w.nul then [0] else []

/-- Where `main` stands: in the format, and in the argument of `%b`, with an octal escape there. -/
structure Machine where
  state : Mode
  o : ℕ
  got : Bool
  t : ℕ
  i : List UInt8
  b : Option (List UInt8 × Option ℕ)
  buf : List UInt8
  fbuf : List UInt8
  bbuf : List UInt8

def Machine.get (m : Machine) : Buffer → List UInt8
  | .buf => m.buf
  | .fbuf => m.fbuf
  | .bbuf => m.bbuf

def Machine.set (m : Machine) (a : List UInt8) : Buffer → Machine
  | .buf => { m with buf := a }
  | .fbuf => { m with fbuf := a }
  | .bbuf => { m with bbuf := a }

def overwrite (a : List UInt8) (pos : ℕ) (bytes : List UInt8) : List UInt8 :=
  a.take pos ++ bytes ++ a.drop (pos + bytes.length)

/-- No index may be beyond the end. -/
def Machine.store (m : Machine) (w : Store) : Except Stop Machine :=
  if w.pos + w.bytes.length ≤ BUFSIZ then
    .ok (m.set (overwrite (m.get w.buffer) w.pos w.bytes) w.buffer)
  else .error .overrun

def Store.charAt (b : Buffer) (pos : ℕ) (c : UInt8) : Store :=
  if c = 0 then ⟨b, pos, [], true⟩ else ⟨b, pos, [c], false⟩

/-- `buf[strlen(buf)]=c` -/
def Store.char (m : Machine) (b : Buffer) (c : UInt8) : Store := .charAt b (strlen (m.get b)) c

/-- The string that an array holds. -/
def string (a : List UInt8) : List UInt8 := a.takeWhile (· ≠ 0)

/-- `sprintf` to the end of `buf`. -/
def Store.print (lib : Libc) (m : Machine) (fbuf : List UInt8) (arg : Arg) : Except Stop Store :=
  match lib.sprintf (string fbuf) arg with
  | none => .error .undefined
  | some s => .ok ⟨.buf, strlen m.buf, s, true⟩

/-- The letter that comes into `fbuf` in place of the conversion's own, and what is converted. -/
def conversion (args : List (List UInt8)) (m : Machine) (c : UInt8) : Option (Option UInt8 × Arg) :=
  let arg := argv args m.t
  if c = 67 ∨ c = 99 then some (some 99, .char ((arg.getD []).headD 0))
  else if c = 83 ∨ c = 115 then some (some 115, .str (arg.getD []))
  else if c = 110 then some (some 100, .num (strlen m.buf))
  else if isNumber c then some (none, .num ((arg.map strtol).getD 0))
  else none

/-- `fbuf[strlen(fbuf)-1]=d` -/
def relabel (fbuf : List UInt8) : Option UInt8 → List UInt8
  | none => fbuf
  | some d => fbuf.set (strlen fbuf - 1) d

/-- `fbuf` with the conversion's letter. -/
def Machine.spec (m : Machine) (c : UInt8) : List UInt8 := m.fbuf.set (strlen m.fbuf) c

def storesPercent (lib : Libc) (args : List (List UInt8)) (m : Machine) (c : UInt8) :
    Except Stop (List Store) := do
  let first := (if c = 37 then [Store.char m .buf 37] else []) ++ [Store.char m .fbuf c]
  match conversion args m c with
  | none => .ok first
  | some (d, arg) => do
    let w ← Store.print lib m (relabel (m.spec c) d) arg
    let letter := d.toList.map fun d => ⟨.fbuf, strlen (m.spec c) - 1, [d], false⟩
    .ok (first ++ letter ++ [w])

/-- The end of `%b`. -/
def storesB (lib : Libc) (m : Machine) : Except Stop (List Store) := do
  let w ← Store.print lib m (relabel m.fbuf (some 115)) (.str (string m.bbuf))
  .ok [⟨.fbuf, strlen m.fbuf - 1, [115], false⟩, w]

/-- Whether the character goes on with the octal escape. -/
def goesOn (octal : Option ℕ) (c : UInt8) : Bool :=
  octal.any fun o => isOctal c && decide ((o <<< 3 ||| (c.toNat - 48)) ≤ 255)

/-- What is stored before the control goes on. -/
def Machine.stores (lib : Libc) (args : List (List UInt8)) (m : Machine) :
    Except Stop (List Store) :=
  match m.b with
  | some ([], _) => storesB lib m
  | some (c :: j, octal) =>
    if goesOn octal c then .ok []
    else match octal with
    | some o => .ok [.charAt .bbuf (strlen m.buf) (UInt8.ofNat o)]
    | none =>
      if c = 92 then
        match j with
        | [] => .ok [⟨.bbuf, strlen m.bbuf, [92], true⟩]
        | d :: _ =>
          if isOctal d then .ok []
          else if d = 99 then storesB lib m
          else .ok [Store.char m .bbuf ((escape d).getD 92)]
      else .ok [Store.char m .bbuf c]
  | none =>
    match m.i with
    | [] => .ok (if m.state = .octal then [Store.char m .buf (UInt8.ofNat m.o)] else [])
    | c :: _ =>
      match m.state with
      | .normal => .ok (if c = 37 ∨ c = 92 then [] else [Store.char m .buf c])
      | .backslash =>
        .ok (if isOctal c then []
          else match escape c with
          | some e => [Store.char m .buf e]
          | none => [⟨.buf, strlen m.buf, [92, c], false⟩])
      | .octal =>
        .ok (if goesOn (some m.o) c then [] else [Store.char m .buf (UInt8.ofNat m.o)])
      | .percent => storesPercent lib args m c

/-- The next place, once that is stored. At the end `buf` is written. -/
def Machine.control (format : List UInt8) (args : List (List UInt8)) (m : Machine) :
    Except Stop Machine :=
  match m.b with
  | some ([], _) => .ok { m with state := .normal, b := none }
  | some (c :: j, octal) =>
    if goesOn octal c then
      .ok { m with b := some (j, octal.map fun o => o <<< 3 ||| (c.toNat - 48)) }
    else match octal with
    | some _ => .ok { m with b := some (c :: j, none) }
    | none =>
      if c = 92 then
        match j with
        | [] => .ok { m with b := some ([], none) }
        | d :: j =>
          if isOctal d then .ok { m with b := some (j, some (d.toNat - 48)) }
          else if d = 99 then .error (.exit (string m.buf))
          -- A character that is no escape is met again without the backslash.
          else .ok { m with b := some (if (escape d).isSome then j else d :: j, none) }
      else .ok { m with b := some (j, none) }
  | none =>
    match m.i with
    | [] =>
      if m.state = .octal ∨ m.state = .normal then
        if m.t < argc args ∧ m.got then .ok { m with i := format }
        else .error (.exit (string m.buf))
      else .error .malformed
    | c :: i =>
      let next := if m.t < argc args then m.t + 1 else m.t
      match m.state with
      | .normal =>
        if c = 37 then .ok { m with got := true, state := .percent, i,
                                    fbuf := 37 :: List.replicate (BUFSIZ - 1) 0 }
        else if c = 92 then .ok { m with state := .backslash, i }
        else .ok { m with i }
      | .backslash =>
        if isOctal c then .ok { m with o := c.toNat - 48, state := .octal, i }
        else .ok { m with state := .normal, i }
      | .octal =>
        if goesOn (some m.o) c then .ok { m with o := m.o <<< 3 ||| (c.toNat - 48), i }
        else .ok { m with state := .normal }
      | .percent =>
        if c = 98 then
          if m.t ≤ argc args then
            .ok { m with b := some ((argv args m.t).getD [], none), t := next, i,
                         bbuf := List.replicate BUFSIZ 0 }
          else .ok { m with state := .normal, i }
        else if isText c then .ok { m with state := .normal, t := next, i }
        else if isNumber c then .ok { m with state := .normal, t := m.t + 1, i }
        else if c = 37 ∨ c = 110 then .ok { m with state := .normal, i }
        else .ok { m with i }

/-- A turn of one of the two loops. -/
def Machine.advance (lib : Libc) (format : List UInt8) (args : List (List UInt8)) (m : Machine) :
    Except Stop Machine := do
  let ws ← m.stores lib args
  let m ← ws.foldlM Machine.store m
  m.control format args

/-- `memset(buf, 0, BUFSIZ)`; in the other two is what was there. -/
def Machine.start (format fbuf bbuf : List UInt8) : Machine where
  state := .normal
  o := 0
  got := false
  t := 2
  i := format
  b := none
  buf := List.replicate BUFSIZ 0
  fbuf := fbuf
  bbuf := bbuf

/-! A text and what is added to it are together shorter than their buffer. -/

/-- There is room behind the string of an array for `n` characters. -/
def Room (a : List UInt8) (n : ℕ) : Prop := strlen a + n < BUFSIZ

def RoomPrint (lib : Libc) (m : Machine) (fbuf : List UInt8) (arg : Arg) : Prop :=
  ∀ s ∈ lib.sprintf (string fbuf) arg, Room m.buf s.length

def Machine.Roomy (lib : Libc) (args : List (List UInt8)) (m : Machine) : Prop :=
  match m.b with
  | some ([], _) => RoomPrint lib m (relabel m.fbuf (some 115)) (.str (string m.bbuf))
  | some (c :: j, octal) =>
    goesOn octal c = true ∨
    match octal with
    | some o => UInt8.ofNat o = 0 ∨ Room m.buf 1
    | none =>
      if c = 92 ∧ j.head? = some 99 then
        RoomPrint lib m (relabel m.fbuf (some 115)) (.str (string m.bbuf))
      else (c = 92 ∧ j.head?.any isOctal = true) ∨ Room m.bbuf 1
  | none =>
    match m.i with
    | [] => m.state = .octal → UInt8.ofNat m.o ≠ 0 → Room m.buf 1
    | c :: _ =>
      match m.state with
      | .normal => c = 37 ∨ c = 92 ∨ Room m.buf 1
      | .backslash => isOctal c = true ∨ Room m.buf (if (escape c).isSome then 1 else 2)
      | .octal => goesOn (some m.o) c = true ∨ UInt8.ofNat m.o = 0 ∨ Room m.buf 1
      | .percent => Room m.fbuf 1 ∧ (c = 37 → Room m.buf 1) ∧
        ∀ p ∈ conversion args m c, RoomPrint lib m (relabel (m.spec c) p.1) p.2

/-! The last character of an array stays NUL. -/

def Kept (a : List UInt8) : Prop := ∃ l, l.length + 1 = BUFSIZ ∧ a = l ++ [0]

theorem strlen_le (l r : List UInt8) : strlen (l ++ 0 :: r) ≤ l.length := by
  induction l with
  | nil => simp [strlen]
  | cons c l ih =>
    unfold strlen at ih ⊢
    by_cases hc : c = 0
    · simp [hc]
    · simp only [List.cons_append, ne_eq, hc, not_false_eq_true, decide_true,
        List.takeWhile_cons_of_pos, List.length_cons]
      exact Nat.succ_le_succ ih

theorem Kept.strlen_lt {a : List UInt8} (h : Kept a) : strlen a < BUFSIZ := by
  obtain ⟨l, hl, rfl⟩ := h
  have := strlen_le l []
  omega

theorem kept_replicate : Kept (List.replicate BUFSIZ 0) :=
  ⟨List.replicate (BUFSIZ - 1) 0, by rw [List.length_replicate]; rfl,
    (List.replicate_succ').trans rfl⟩

theorem Kept.overwrite {a : List UInt8} (h : Kept a) {w : Store}
    (hfit : w.pos + w.text.length < BUFSIZ) : Kept (overwrite a w.pos w.bytes) := by
  obtain ⟨l, hl, rfl⟩ := h
  by_cases hlast : w.pos + w.bytes.length ≤ l.length
  · refine ⟨Printf.overwrite l w.pos w.bytes, ?_, ?_⟩
    · simp only [Printf.overwrite, List.length_append, List.length_take, List.length_drop]
      omega
    · rw [Printf.overwrite, Printf.overwrite, List.take_append_of_le_length (by omega),
        List.drop_append_of_le_length hlast]
      simp only [List.append_assoc]
  · have hbytes : w.bytes = w.text ++ [0] := by
      cases hnul : w.nul with
      | true => simp [Store.bytes, hnul]
      | false =>
        simp only [Store.bytes, hnul, Bool.false_eq_true, if_false, List.append_nil] at hlast
        omega
    have hlen : w.bytes.length = w.text.length + 1 := by rw [hbytes]; simp
    refine ⟨l.take w.pos ++ w.text, ?_, ?_⟩
    · rw [List.length_append, List.length_take]
      omega
    · rw [Printf.overwrite, List.take_append_of_le_length (by omega),
        List.drop_eq_nil_of_le (by rw [List.length_append, List.length_singleton]; omega), hbytes]
      simp only [List.append_assoc, List.append_nil]

theorem Kept.set {a : List UInt8} (h : Kept a) {k : ℕ} (hk : k + 1 < BUFSIZ) (c : UInt8) :
    Kept (a.set k c) := by
  obtain ⟨l, hl, rfl⟩ := h
  exact ⟨l.set k c, by rw [List.length_set]; exact hl, List.set_append_left _ _ (by omega)⟩

/-- Whether an array is in use. -/
def Machine.Live (m : Machine) : Buffer → Prop
  | .buf => True
  | .fbuf => m.got = true
  | .bbuf => m.b.isSome = true

/-- Every array that is in use ends in a NUL. -/
structure Machine.Inv (m : Machine) : Prop where
  kept : ∀ b, m.Live b → Kept (m.get b)
  percent : m.state = .percent → m.got = true
  b : m.b.isSome = true → m.state = .percent

theorem Machine.Inv.fbuf {m : Machine} (h : m.Inv) (hs : m.state = .percent) : Kept m.fbuf :=
  h.kept .fbuf (h.percent hs)

section
variable (m : Machine) (a : List UInt8) (b : Buffer)

@[simp] theorem set_state : (m.set a b).state = m.state := by cases b <;> rfl

@[simp] theorem set_got : (m.set a b).got = m.got := by cases b <;> rfl

@[simp] theorem set_b : (m.set a b).b = m.b := by cases b <;> rfl

@[simp] theorem set_live (b' : Buffer) : (m.set a b).Live b' ↔ m.Live b' := by
  cases b' <;> simp [Machine.Live]

end

theorem get_set (m : Machine) (a : List UInt8) (b b' : Buffer) :
    (m.set a b).get b' = if b' = b then a else m.get b' := by
  cases b <;> cases b' <;> rfl

/-- A store that has room. -/
def Store.Fits (m : Machine) (w : Store) : Prop :=
  m.Live w.buffer ∧ w.pos + w.text.length < BUFSIZ

theorem store_inv {m : Machine} (h : m.Inv) {w : Store} (hfits : w.Fits m) :
    ∃ a, m.store w = .ok (m.set a w.buffer) ∧ (m.set a w.buffer).Inv := by
  have hbytes : w.bytes.length ≤ w.text.length + 1 := by
    rw [Store.bytes, List.length_append]
    cases w.nul <;> simp
  refine ⟨_, if_pos (by have := hfits.2; omega), ?_⟩
  have hkept := (h.kept _ hfits.1).overwrite hfits.2
  constructor
  · intro b hb
    rw [get_set]
    split_ifs
    · exact hkept
    · exact h.kept b ((set_live ..).mp hb)
  · simpa using h.percent
  · simpa using h.b

/-- The stores change nothing but the arrays. -/
theorem stores_inv (ws : List Store) : ∀ {m : Machine}, m.Inv → (∀ w ∈ ws, w.Fits m) →
    ∃ x y z, ws.foldlM Machine.store m = .ok { m with buf := x, fbuf := y, bbuf := z } ∧
      ({ m with buf := x, fbuf := y, bbuf := z } : Machine).Inv := by
  induction ws with
  | nil => exact fun {m} h _ => ⟨m.buf, m.fbuf, m.bbuf, rfl, h⟩
  | cons w ws ih =>
    intro m h hfits
    obtain ⟨hw, hws⟩ := List.forall_mem_cons.mp hfits
    obtain ⟨a, hstore, hinv⟩ := store_inv h hw
    have hlive : ∀ v ∈ ws, v.Fits (m.set a w.buffer) := fun v hv =>
      ⟨(set_live ..).mpr (hws v hv).1, (hws v hv).2⟩
    obtain ⟨x, y, z, hrun, hlast⟩ := ih hinv hlive
    have hset : ({ m.set a w.buffer with buf := x, fbuf := y, bbuf := z } : Machine) =
        { m with buf := x, fbuf := y, bbuf := z } := by
      cases w.buffer <;> rfl
    rw [hset] at hrun hlast
    refine ⟨x, y, z, ?_, hlast⟩
    rw [List.foldlM_cons, hstore]
    exact hrun

theorem Machine.Inv.buf {m : Machine} (h : m.Inv) : Kept m.buf := h.kept .buf trivial

/-- The same arrays, with another place in the format or in the argument. -/
theorem Machine.Inv.moved {m : Machine} (h : m.Inv) (state : Mode) (o t : ℕ) (i : List UInt8)
    (b : Option (List UInt8 × Option ℕ)) (hstate : state = .percent → m.state = .percent)
    (hb : b.isSome = true → m.b.isSome = true ∧ state = .percent) :
    ({ m with state, o, t, i, b } : Machine).Inv where
  kept
    | .buf, _ => h.kept .buf trivial
    | .fbuf, hlive => h.kept .fbuf hlive
    | .bbuf, hlive => h.kept .bbuf (hb hlive).1
  percent hs := h.percent (hstate hs)
  b hlive := (hb hlive).2

theorem kept_percent : Kept (37 :: List.replicate (BUFSIZ - 1) 0) :=
  ⟨37 :: List.replicate (BUFSIZ - 2) 0, by rw [List.length_cons, List.length_replicate]; rfl,
    congrArg (37 :: ·) ((List.replicate_succ' (n := BUFSIZ - 2)).trans rfl)⟩

theorem controlB_inv {format : List UInt8} {args : List (List UInt8)} {m m' : Machine} (h : m.Inv)
    {p : List UInt8 × Option ℕ} (hb : m.b = some p) (hcontrol : m.control format args = .ok m') :
    m'.Inv := by
  have hsome : m.b.isSome = true := by rw [hb]; rfl
  have hin (b : Option (List UInt8 × Option ℕ)) : ({ m with b } : Machine).Inv :=
    h.moved m.state m.o m.t m.i b id fun _ => ⟨hsome, h.b hsome⟩
  obtain ⟨j, octal⟩ := p
  rw [Machine.control, hb] at hcontrol
  cases j with
  | nil =>
    obtain rfl := Except.ok.inj hcontrol
    exact h.moved .normal m.o m.t m.i none nofun nofun
  | cons c j =>
    dsimp only at hcontrol
    by_cases hgo : goesOn octal c = true
    · rw [if_pos hgo] at hcontrol
      obtain rfl := Except.ok.inj hcontrol
      exact hin _
    · rw [if_neg hgo] at hcontrol
      cases octal with
      | some o =>
        obtain rfl := Except.ok.inj hcontrol
        exact hin _
      | none =>
        dsimp only at hcontrol
        by_cases h92 : c = 92
        · rw [if_pos h92] at hcontrol
          cases j with
          | nil =>
            obtain rfl := Except.ok.inj hcontrol
            exact hin _
          | cons d j =>
            dsimp only at hcontrol
            by_cases ho : isOctal d = true
            · rw [if_pos ho] at hcontrol
              obtain rfl := Except.ok.inj hcontrol
              exact hin _
            · rw [if_neg ho] at hcontrol
              by_cases h99 : d = 99
              · rw [if_pos h99] at hcontrol
                exact nomatch hcontrol
              · rw [if_neg h99] at hcontrol
                obtain rfl := Except.ok.inj hcontrol
                exact hin _
        · rw [if_neg h92] at hcontrol
          obtain rfl := Except.ok.inj hcontrol
          exact hin _

/-- The next place is one where the arrays in use end in a NUL as well. -/
theorem control_inv {format : List UInt8} {args : List (List UInt8)} {m m' : Machine} (h : m.Inv)
    (hcontrol : m.control format args = .ok m') : m'.Inv := by
  cases hb : m.b with
  | some p => exact controlB_inv h hb hcontrol
  | none =>
    rw [Machine.control, hb] at hcontrol
    cases hi : m.i with
    | nil =>
      rw [hi] at hcontrol
      dsimp only at hcontrol
      split_ifs at hcontrol
      obtain rfl := Except.ok.inj hcontrol
      exact h.moved m.state m.o m.t format none id nofun
    | cons c i =>
      rw [hi] at hcontrol
      dsimp only at hcontrol
      cases hs : m.state with
      | normal =>
        rw [hs] at hcontrol
        dsimp only at hcontrol
        split_ifs at hcontrol
        · obtain rfl := Except.ok.inj hcontrol
          refine ⟨?_, fun _ => rfl, nofun⟩
          rintro (_ | _ | _) hlive
          · exact h.buf
          · exact kept_percent
          · exact absurd hlive Bool.false_ne_true
        · obtain rfl := Except.ok.inj hcontrol
          exact h.moved .backslash m.o m.t i none nofun nofun
        · obtain rfl := Except.ok.inj hcontrol
          exact h.moved .normal m.o m.t i none nofun nofun
      | backslash =>
        rw [hs] at hcontrol
        dsimp only at hcontrol
        split_ifs at hcontrol
        · obtain rfl := Except.ok.inj hcontrol
          exact h.moved .octal (c.toNat - 48) m.t i none nofun nofun
        · obtain rfl := Except.ok.inj hcontrol
          exact h.moved .normal m.o m.t i none nofun nofun
      | octal =>
        rw [hs] at hcontrol
        dsimp only at hcontrol
        split_ifs at hcontrol
        · obtain rfl := Except.ok.inj hcontrol
          exact h.moved .octal (m.o <<< 3 ||| (c.toNat - 48)) m.t i none nofun nofun
        · obtain rfl := Except.ok.inj hcontrol
          exact h.moved .normal m.o m.t (c :: i) none nofun nofun
      | percent =>
        have hnormal (t : ℕ) : ({ m with state := .normal, t, i, b := none } : Machine).Inv :=
          h.moved .normal m.o t i none nofun nofun
        rw [hs] at hcontrol
        dsimp only at hcontrol
        by_cases h98 : c = 98
        · rw [if_pos h98] at hcontrol
          by_cases ht : m.t ≤ argc args
          · rw [if_pos ht] at hcontrol
            obtain rfl := Except.ok.inj hcontrol
            refine ⟨?_, fun _ => h.percent hs, fun _ => rfl⟩
            rintro (_ | _ | _) hlive
            · exact h.buf
            · exact h.kept .fbuf hlive
            · exact kept_replicate
          · rw [if_neg ht] at hcontrol
            obtain rfl := Except.ok.inj hcontrol
            exact hnormal m.t
        · rw [if_neg h98] at hcontrol
          by_cases htext : isText c = true
          · rw [if_pos htext] at hcontrol
            obtain rfl := Except.ok.inj hcontrol
            exact hnormal _
          · rw [if_neg htext] at hcontrol
            split_ifs at hcontrol
            · obtain rfl := Except.ok.inj hcontrol
              exact hnormal (m.t + 1)
            · obtain rfl := Except.ok.inj hcontrol
              exact hnormal m.t
            · obtain rfl := Except.ok.inj hcontrol
              exact h.moved .percent m.o m.t i none (fun _ => hs) nofun

theorem control_ne_overrun {format : List UInt8} {args : List (List UInt8)} (m : Machine) :
    m.control format args ≠ .error .overrun := by
  intro h
  rw [Machine.control] at h
  repeat' split at h
  all_goals cases h

theorem fits_char {m : Machine} (h : m.Inv) (b : Buffer) (hlive : m.Live b) {c : UInt8}
    (hroom : c = 0 ∨ Room (m.get b) 1) : (Store.char m b c).Fits m := by
  have hlt := (h.kept b hlive).strlen_lt
  rw [Store.char, Store.charAt]
  split_ifs with hc
  · exact ⟨hlive, hlt⟩
  · exact ⟨hlive, hroom.resolve_left hc⟩

variable {lib : Libc} {args : List (List UInt8)}

theorem fits_print {m : Machine} {fbuf : List UInt8} {arg : Arg}
    (hroom : RoomPrint lib m fbuf arg) {w : Store} (hw : Store.print lib m fbuf arg = .ok w) :
    w.Fits m := by
  rw [Store.print] at hw
  cases hs : lib.sprintf (string fbuf) arg with
  | none =>
    rw [hs] at hw
    exact nomatch hw
  | some s =>
    rw [hs] at hw
    obtain rfl := Except.ok.inj hw
    exact ⟨trivial, hroom s hs⟩

/-- The end of a `%b` stores where there is room. -/
theorem storesB_fits {m : Machine} (h : m.Inv) (hb : m.b.isSome = true)
    (hroom : RoomPrint lib m (relabel m.fbuf (some 115)) (.str (string m.bbuf))) {ws : List Store}
    (hws : storesB lib m = .ok ws) : ∀ w ∈ ws, w.Fits m := by
  obtain ⟨w, hw, hws⟩ := exists_of_bind_ok hws
  obtain rfl := Except.ok.inj hws
  have hlt := (h.fbuf (h.b hb)).strlen_lt
  have hsize : 1 < BUFSIZ := by decide
  refine List.forall_mem_cons.mpr ⟨⟨h.percent (h.b hb), ?_⟩, List.forall_mem_singleton.mpr ?_⟩
  · show strlen m.fbuf - 1 + 1 < BUFSIZ
    omega
  · exact fits_print hroom hw

theorem storesPercent_fits {m : Machine} (h : m.Inv) (hs : m.state = .percent) {c : UInt8}
    (hfbuf : Room m.fbuf 1) (hbuf : c = 37 → Room m.buf 1)
    (hroom : ∀ p ∈ conversion args m c, RoomPrint lib m (relabel (m.spec c) p.1) p.2)
    {ws : List Store} (hws : storesPercent lib args m c = .ok ws) : ∀ w ∈ ws, w.Fits m := by
  have hspec : Kept (m.spec c) := (h.fbuf hs).set hfbuf c
  have hlt := hspec.strlen_lt
  have hsize : 1 < BUFSIZ := by decide
  have hfirst : ∀ w ∈ (if c = 37 then [Store.char m .buf 37] else []) ++ [Store.char m .fbuf c],
      w.Fits m := by
    refine List.forall_mem_append.mpr ⟨?_, List.forall_mem_singleton.mpr ?_⟩
    · split_ifs with hc
      · exact List.forall_mem_singleton.mpr (fits_char h .buf trivial (.inr (hbuf hc)))
      · exact fun w hw => absurd hw List.not_mem_nil
    · exact fits_char h .fbuf (h.percent hs) (.inr hfbuf)
  rw [storesPercent] at hws
  cases hconv : conversion args m c with
  | none =>
    rw [hconv] at hws
    obtain rfl := Except.ok.inj hws
    exact hfirst
  | some p =>
    rw [hconv] at hws
    obtain ⟨w, hw, hws⟩ := exists_of_bind_ok hws
    obtain rfl := Except.ok.inj hws
    refine List.forall_mem_append.mpr ⟨List.forall_mem_append.mpr ⟨hfirst, ?_⟩,
      List.forall_mem_singleton.mpr ?_⟩
    · rw [List.forall_mem_map]
      intro d _
      refine ⟨h.percent hs, ?_⟩
      show strlen (m.spec c) - 1 + 1 < BUFSIZ
      omega
    · exact fits_print (hroom p hconv) hw

theorem stores_fits {m : Machine} (h : m.Inv) (hroom : m.Roomy lib args) {ws : List Store}
    (hws : m.stores lib args = .ok ws) : ∀ w ∈ ws, w.Fits m := by
  have hnil : ∀ w ∈ ([] : List Store), w.Fits m := fun w hw => absurd hw List.not_mem_nil
  rw [Machine.stores] at hws
  rw [Machine.Roomy] at hroom
  cases hb : m.b with
  | some p =>
    have hsome : m.b.isSome = true := by rw [hb]; rfl
    obtain ⟨j, octal⟩ := p
    rw [hb] at hws hroom
    cases j with
    | nil => exact storesB_fits h hsome hroom hws
    | cons c j =>
      dsimp only at hws hroom
      by_cases hgo : goesOn octal c = true
      · rw [if_pos hgo] at hws
        obtain rfl := Except.ok.inj hws
        exact hnil
      · rw [if_neg hgo] at hws
        have hroom := hroom.resolve_left hgo
        cases octal with
        | some o =>
          obtain rfl := Except.ok.inj hws
          refine List.forall_mem_singleton.mpr ?_
          have hlt := h.buf.strlen_lt
          rw [Store.charAt]
          split_ifs with h0
          · exact ⟨hsome, hlt⟩
          · exact ⟨hsome, hroom.resolve_left h0⟩
        | none =>
          dsimp only at hws hroom
          by_cases h92 : c = 92
          · rw [if_pos h92] at hws
            cases j with
            | nil =>
              obtain rfl := Except.ok.inj hws
              simp only [List.head?_nil, Option.any_none, Bool.false_eq_true, and_false,
                reduceCtorEq, if_false, false_or] at hroom
              exact List.forall_mem_singleton.mpr ⟨hsome, hroom⟩
            | cons d j =>
              dsimp only at hws
              simp only [h92, List.head?_cons, Option.some.injEq, true_and,
                Option.any_some] at hroom
              by_cases ho : isOctal d = true
              · rw [if_pos ho] at hws
                obtain rfl := Except.ok.inj hws
                exact hnil
              · rw [if_neg ho] at hws
                by_cases h99 : d = 99
                · rw [if_pos h99] at hws hroom
                  exact storesB_fits h hsome hroom hws
                · rw [if_neg h99] at hws hroom
                  obtain rfl := Except.ok.inj hws
                  exact List.forall_mem_singleton.mpr
                    (fits_char h .bbuf hsome (.inr (hroom.resolve_left ho)))
          · rw [if_neg h92] at hws
            rw [if_neg fun hc => h92 hc.1] at hroom
            obtain rfl := Except.ok.inj hws
            exact List.forall_mem_singleton.mpr
              (fits_char h .bbuf hsome (.inr (hroom.resolve_left fun hc => h92 hc.1)))
  | none =>
    rw [hb] at hws hroom
    cases hi : m.i with
    | nil =>
      rw [hi] at hws hroom
      obtain rfl := Except.ok.inj hws
      split_ifs with hs
      · refine List.forall_mem_singleton.mpr (fits_char h .buf trivial ?_)
        exact (em _).imp_right (hroom hs)
      · exact hnil
    | cons c i =>
      rw [hi] at hws hroom
      cases hs : m.state with
      | normal =>
        rw [hs] at hws hroom
        obtain rfl := Except.ok.inj hws
        split_ifs with hc
        · exact hnil
        · obtain ⟨h37, h92⟩ := not_or.mp hc
          exact List.forall_mem_singleton.mpr (fits_char h .buf trivial
            (.inr ((hroom.resolve_left h37).resolve_left h92)))
      | backslash =>
        rw [hs] at hws hroom
        obtain rfl := Except.ok.inj hws
        split_ifs with ho
        · exact hnil
        · have hroom := hroom.resolve_left ho
          cases he : escape c with
          | some e =>
            rw [he] at hroom
            exact List.forall_mem_singleton.mpr (fits_char h .buf trivial (.inr hroom))
          | none =>
            rw [he] at hroom
            exact List.forall_mem_singleton.mpr ⟨trivial, hroom⟩
      | octal =>
        rw [hs] at hws hroom
        obtain rfl := Except.ok.inj hws
        split_ifs with hgo
        · exact hnil
        · exact List.forall_mem_singleton.mpr
            (fits_char h .buf trivial (hroom.resolve_left hgo))
      | percent =>
        rw [hs] at hws hroom
        exact storesPercent_fits h hs hroom.1 hroom.2.1 hroom.2.2 hws

theorem room_of_char {m : Machine} {b : Buffer} {c : UInt8} (hc : c ≠ 0)
    (hfits : (Store.char m b c).Fits m) : Room (m.get b) 1 := by
  have h := hfits.2
  rwa [Store.char, Store.charAt, if_neg hc] at h

theorem escape_ne_zero {c e : UInt8} (h : escape c = some e) : e ≠ 0 := by
  rw [escape] at h
  split at h
  all_goals first
    | (obtain rfl := Option.some.inj h
       decide)
    | exact nomatch h

theorem roomPrint_of_fits {m : Machine} {fbuf : List UInt8} {arg : Arg}
    (h : ∀ w, Store.print lib m fbuf arg = .ok w → w.Fits m) : RoomPrint lib m fbuf arg := by
  intro s hs
  have hprint : Store.print lib m fbuf arg = .ok ⟨.buf, strlen m.buf, s, true⟩ := by
    rw [Store.print, hs]
  exact (h _ hprint).2

theorem roomB_of_fits {m : Machine} {ws : List Store} (hws : storesB lib m = .ok ws)
    (hfits : ∀ w ∈ ws, w.Fits m) :
    RoomPrint lib m (relabel m.fbuf (some 115)) (.str (string m.bbuf)) := by
  refine roomPrint_of_fits fun w hw => hfits w ?_
  rw [storesB, hw] at hws
  obtain rfl := Except.ok.inj hws
  exact List.mem_cons_of_mem _ List.mem_cons_self

theorem roomPercent_of_fits {m : Machine} {c : UInt8} (hc : c ≠ 0) {ws : List Store}
    (hws : storesPercent lib args m c = .ok ws) (hfits : ∀ w ∈ ws, w.Fits m) :
    Room m.fbuf 1 ∧ (c = 37 → Room m.buf 1) ∧
      ∀ p ∈ conversion args m c, RoomPrint lib m (relabel (m.spec c) p.1) p.2 := by
  have hfirst (h : ∀ w ∈ (if c = 37 then [Store.char m .buf 37] else []) ++
      [Store.char m .fbuf c], w.Fits m) : Room m.fbuf 1 ∧ (c = 37 → Room m.buf 1) := by
    obtain ⟨hbuf, hfbuf⟩ := List.forall_mem_append.mp h
    refine ⟨room_of_char hc (hfbuf _ List.mem_cons_self), fun h37 => ?_⟩
    rw [if_pos h37] at hbuf
    exact @room_of_char m .buf 37 (by decide) (hbuf _ List.mem_cons_self)
  rw [storesPercent] at hws
  cases hconv : conversion args m c with
  | none =>
    rw [hconv] at hws
    obtain rfl := Except.ok.inj hws
    exact ⟨(hfirst hfits).1, (hfirst hfits).2, nofun⟩
  | some p =>
    rw [hconv] at hws
    obtain ⟨w, hw, hws⟩ := exists_of_bind_ok hws
    obtain rfl := Except.ok.inj hws
    obtain ⟨hrest, hlast⟩ := List.forall_mem_append.mp hfits
    have h := hfirst (List.forall_mem_append.mp hrest).1
    refine ⟨h.1, h.2, ?_⟩
    rintro q ⟨⟩
    refine roomPrint_of_fits fun w' hw' => ?_
    obtain rfl := Except.ok.inj (hw.symm.trans hw')
    exact hlast w List.mem_cons_self

/-- Nothing less will do: where all stores of a turn are inside, there is room. -/
theorem roomy_of_fits {m : Machine} (hi : 0 ∉ m.i) (hj : ∀ p ∈ m.b, 0 ∉ p.1) {ws : List Store}
    (hws : m.stores lib args = .ok ws) (hfits : ∀ w ∈ ws, w.Fits m) : m.Roomy lib args := by
  rw [Machine.stores] at hws
  rw [Machine.Roomy]
  cases hb : m.b with
  | some p =>
    obtain ⟨j, octal⟩ := p
    have hj := hj _ hb
    rw [hb] at hws
    cases j with
    | nil => exact roomB_of_fits hws hfits
    | cons c j =>
      rw [List.mem_cons, not_or] at hj
      dsimp only at hws ⊢
      by_cases hgo : goesOn octal c = true
      · exact .inl hgo
      · rw [if_neg hgo] at hws
        refine .inr ?_
        cases octal with
        | some o =>
          obtain rfl := Except.ok.inj hws
          have h := (hfits _ List.mem_cons_self).2
          dsimp only
          by_cases h0 : UInt8.ofNat o = 0
          · exact .inl h0
          · rw [Store.charAt, if_neg h0] at h
            exact .inr h
        | none =>
          dsimp only at hws ⊢
          by_cases h92 : c = 92
          · rw [if_pos h92] at hws
            cases j with
            | nil =>
              obtain rfl := Except.ok.inj hws
              rw [if_neg (by simp)]
              exact .inr (hfits _ List.mem_cons_self).2
            | cons d j =>
              rw [List.mem_cons, not_or] at hj
              dsimp only at hws
              by_cases ho : isOctal d = true
              · have h99 : d ≠ 99 := by rintro rfl; exact absurd ho (by decide)
                rw [if_neg (by simp [h99])]
                exact .inl ⟨h92, ho⟩
              · rw [if_neg ho] at hws
                by_cases h99 : d = 99
                · rw [if_pos h99] at hws
                  rw [if_pos ⟨h92, by rw [h99]; rfl⟩]
                  exact roomB_of_fits hws hfits
                · rw [if_neg h99] at hws
                  rw [if_neg (by simp [h99])]
                  obtain rfl := Except.ok.inj hws
                  refine .inr (room_of_char ?_ (hfits _ List.mem_cons_self))
                  cases he : escape d with
                  | none => decide
                  | some e => exact escape_ne_zero he
          · rw [if_neg h92] at hws
            rw [if_neg fun hc => h92 hc.1]
            obtain rfl := Except.ok.inj hws
            exact .inr (room_of_char (Ne.symm hj.1) (hfits _ List.mem_cons_self))
  | none =>
    rw [hb] at hws
    cases hformat : m.i with
    | nil =>
      rw [hformat] at hws
      obtain rfl := Except.ok.inj hws
      intro hs h0
      rw [if_pos hs] at hfits
      exact room_of_char h0 (hfits _ List.mem_cons_self)
    | cons c i =>
      rw [hformat] at hws hi
      rw [List.mem_cons, not_or] at hi
      have hc : c ≠ 0 := Ne.symm hi.1
      cases hs : m.state with
      | normal =>
        rw [hs] at hws
        obtain rfl := Except.ok.inj hws
        by_cases h : c = 37 ∨ c = 92
        · exact h.imp_right .inl
        · rw [if_neg h] at hfits
          exact .inr (.inr (room_of_char hc (hfits _ List.mem_cons_self)))
      | backslash =>
        rw [hs] at hws
        obtain rfl := Except.ok.inj hws
        by_cases ho : isOctal c = true
        · exact .inl ho
        · rw [if_neg ho] at hfits
          refine .inr ?_
          cases he : escape c with
          | some e =>
            rw [he] at hfits
            exact room_of_char (escape_ne_zero he) (hfits _ List.mem_cons_self)
          | none =>
            rw [he] at hfits
            exact (hfits _ List.mem_cons_self).2
      | octal =>
        rw [hs] at hws
        obtain rfl := Except.ok.inj hws
        by_cases hgo : goesOn (some m.o) c = true
        · exact .inl hgo
        · rw [if_neg hgo] at hfits
          by_cases h0 : UInt8.ofNat m.o = 0
          · exact .inr (.inl h0)
          · exact .inr (.inr (room_of_char h0 (hfits _ List.mem_cons_self)))
      | percent =>
        rw [hs] at hws
        exact roomPercent_of_fits hc hws hfits

theorem roomy_iff_fits {m : Machine} (h : m.Inv) (hi : 0 ∉ m.i) (hj : ∀ p ∈ m.b, 0 ∉ p.1)
    {ws : List Store} (hws : m.stores lib args = .ok ws) :
    m.Roomy lib args ↔ ∀ w ∈ ws, w.Fits m :=
  ⟨fun hroom => stores_fits h hroom hws, roomy_of_fits hi hj hws⟩

/-- A store that does not fit is outside of the array or takes its last NUL. -/
theorem fits_of_kept {a : List UInt8} (ha : a.length = BUFSIZ) {w : Store}
    (htext : w.nul = true ∨ ∃ t c, w.text = t ++ [c] ∧ c ≠ 0)
    (hin : w.pos + w.bytes.length ≤ BUFSIZ) (hkept : Kept (overwrite a w.pos w.bytes)) :
    w.pos + w.text.length < BUFSIZ := by
  by_contra hlong
  cases hnul : w.nul with
  | true =>
    rw [Store.bytes, hnul, List.length_append] at hin
    simp only [if_true, List.length_singleton] at hin
    omega
  | false =>
    obtain ⟨t, c, ht, hc⟩ := htext.resolve_left (by rw [hnul]; decide)
    have hbytes : w.bytes = t ++ [c] := by
      rw [Store.bytes, hnul, ht]
      exact List.append_nil _
    obtain ⟨l, -, heq⟩ := hkept
    rw [ht] at hlong
    rw [hbytes] at hin heq
    rw [overwrite, List.drop_eq_nil_of_le (by omega), List.append_nil, ← List.append_assoc] at heq
    exact hc (List.cons.inj (List.append_inj_right' heq rfl)).1

theorem print_ne_overrun {m : Machine} {fbuf : List UInt8} {arg : Arg} :
    Store.print lib m fbuf arg ≠ .error .overrun := by
  intro h
  rw [Store.print] at h
  split at h
  all_goals cases h

theorem storesB_ne_overrun (m : Machine) : storesB lib m ≠ .error .overrun := by
  intro h
  rcases or_of_bind_error h with h | ⟨w, -, h⟩
  · exact print_ne_overrun h
  · cases h

theorem storesPercent_ne_overrun (m : Machine) (c : UInt8) :
    storesPercent lib args m c ≠ .error .overrun := by
  intro h
  rw [storesPercent] at h
  cases hconv : conversion args m c with
  | none =>
    rw [hconv] at h
    cases h
  | some p =>
    rw [hconv] at h
    rcases or_of_bind_error h with h | ⟨w, -, h⟩
    · exact print_ne_overrun h
    · cases h

theorem stores_ne_overrun (m : Machine) : m.stores lib args ≠ .error .overrun := by
  intro h
  rw [Machine.stores] at h
  repeat' split at h
  all_goals first
    | exact storesB_ne_overrun m h
    | exact storesPercent_ne_overrun m _ h
    | cases h

/-- A turn with room stores inside the arrays and leaves the NULs at their ends. -/
theorem advance_inv {format : List UInt8} {m : Machine} (h : m.Inv) (hroom : m.Roomy lib args) :
    (∀ m', m.advance lib format args = .ok m' → m'.Inv) ∧
      m.advance lib format args ≠ .error .overrun := by
  rw [Machine.advance]
  cases hws : m.stores lib args with
  | error e =>
    refine ⟨nofun, fun h' => ?_⟩
    obtain rfl := Except.error.inj h'
    exact stores_ne_overrun m hws
  | ok ws =>
    obtain ⟨x, y, z, hrun, hinv⟩ := stores_inv ws h (stores_fits h hroom hws)
    simp only [bind, Except.bind, hrun]
    exact ⟨fun m' h' => control_inv hinv h', control_ne_overrun _⟩

/-- The turns of `main`. -/
def Machine.step (lib : Libc) (format : List UInt8) (args : List (List UInt8)) (m : Machine)
    (_ : Unit) : Option Machine := (m.advance lib format args).toOption

/-- In a run whose turns all have room, every array that is in use ends in a NUL, and nothing is
stored outside of it. -/
theorem machine_kept (lib : Libc) (format : List UInt8) (args : List (List UInt8))
    (fbuf bbuf : List UInt8) {m : Machine}
    (h : Reach (Machine.step lib format args) (fun m _ => m.Roomy lib args)
      (.start format fbuf bbuf) m) :
    (∀ b, m.Live b → Kept (m.get b)) ∧
      (m.Roomy lib args → m.advance lib format args ≠ .error .overrun) := by
  have hinv : m.Inv := by
    refine h.invariant ⟨?_, nofun, nofun⟩ fun m _ m' hm hroom hstep => ?_
    · rintro (_ | _ | _) hlive
      · exact kept_replicate
      · exact absurd hlive Bool.false_ne_true
      · exact absurd hlive Bool.false_ne_true
    · refine (@advance_inv lib args format m hm hroom).1 m' ?_
      rw [Machine.step] at hstep
      cases hadvance : m.advance lib format args with
      | error e =>
        rw [hadvance] at hstep
        exact nomatch hstep
      | ok m'' =>
        rw [hadvance] at hstep
        exact congrArg _ (Option.some.inj hstep)
  exact ⟨hinv.kept, fun hroom => (advance_inv hinv hroom).2⟩

/-- The first two turns for the format `%s`. -/
theorem machine_kept_two : ∃ m : Machine, m.state = .percent ∧
    (∀ b, m.Live b → Kept (m.get b)) ∧
      (m.Roomy plain [[97]] → m.advance plain [37, 115] [[97]] ≠ .error .overrun) := by
  refine ⟨_, ?_, machine_kept plain [37, 115] [[97]] [] []
    (.next (a := ()) .start (.inl rfl) rfl)⟩
  rfl

/-- `%s` with an argument of `BUFSIZ` characters. -/
theorem not_machine_kept : ¬ ∀ (lib : Libc) (format : List UInt8) (args : List (List UInt8))
    (fbuf bbuf : List UInt8) (m : Machine),
    Reach (Machine.step lib format args) (fun _ _ => True) (.start format fbuf bbuf) m →
    (∀ b, m.Live b → Kept (m.get b)) ∧ m.advance lib format args ≠ .error .overrun := by
  intro h
  let a : List UInt8 := List.replicate BUFSIZ 97
  let m : Machine := ⟨.percent, 0, true, 2, [115], none, List.replicate BUFSIZ 0,
    37 :: List.replicate (BUFSIZ - 1) 0, []⟩
  have hreach : Reach (Machine.step plain [37, 115] [a]) (fun _ _ => True)
      (.start [37, 115] [] []) m := .next (a := ()) .start trivial rfl
  refine (h plain [37, 115] [a] [] [] m hreach).2 ?_
  have hstring : string (relabel (m.spec 115) (some 115)) = [37, 115] := rfl
  have hprint : Store.print plain m (relabel (m.spec 115) (some 115)) (.str a) =
      .ok ⟨.buf, 0, a, true⟩ := by
    rw [Store.print, hstring]
    rfl
  have hconv : conversion [a] m 115 = some (some 115, .str a) := rfl
  have hstores : m.stores plain [a] = .ok ([⟨.fbuf, 1, [115], false⟩, ⟨.fbuf, 1, [115], false⟩] ++
      [⟨.buf, 0, a, true⟩]) := by
    show storesPercent plain [a] m 115 = _
    rw [storesPercent, hconv]
    dsimp only
    rw [hprint]
    rfl
  obtain ⟨m', hm'⟩ : ∃ m', [⟨.fbuf, 1, [115], false⟩, ⟨.fbuf, 1, [115], false⟩].foldlM
      Machine.store m = .ok m' := ⟨_, rfl⟩
  have hlong : m'.store ⟨.buf, 0, a, true⟩ = .error .overrun := by
    refine if_neg ?_
    simp [Store.bytes, a]
  rw [Machine.advance, hstores]
  simp only [bind, Except.bind, List.foldlM_append, hm', List.foldlM_cons, hlong]

end Unitas.Printf
