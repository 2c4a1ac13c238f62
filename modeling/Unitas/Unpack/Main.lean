import Unitas.Unpack.Getdict
import Unitas.Pack.RoundTrip

/-! `main` of `unpack` and `pcat`, and what becomes of the two files of each operand. -/
namespace Unitas.Unpack
open Function

abbrev Path := List UInt8

/-- The limits of the system and the calls that fail on a name. -/
structure System where
  BUFSIZ : ℕ
  MAXPATHLEN : ℕ
  nameMax : Path → ℕ
  openErr : Path → Bool
  creatErr : Path → Bool
  readErr : Path → Bool
  writeErr : Path → Bool
  utimeErr : Path → Bool
  chmodErr : Path → Bool

/-- The run between two operands. `disk` holds the contents of the existing files and `stdout`
what `pcat` has written. -/
structure Main extends Statics where
  disk : Path → Option (List UInt8)
  stdout : List UInt8
  rmflg : Bool
  errflg : ℕ
  fcount : ℕ

/-- Remove any `.z` suffix the user may have added. -/
def stripSuffix (arg : Path) : Path :=
  if [46, 122] <:+ arg then arg.take (arg.length - 2) else arg

/-- The name of the packed file. -/
def packedName (MAXPATHLEN : ℕ) (argvk : Path) : Path := argvk.take (MAXPATHLEN - 3) ++ [46, 122]

/-- The length of the copied name and of its last component. -/
def nameLengths (MAXPATHLEN : ℕ) (argvk : Path) : ℕ × ℕ :=
  let copied := argvk.take (MAXPATHLEN - 3)
  (copied.length, (copied.reverse.takeWhile (· ≠ 47)).length)

/-- The state of the decoders when `getdict` is called for `argvk`. -/
def opened (sys : System) (argvk : Path) (packed : List UInt8) (s : Main) : State :=
  { s.toStatics with
    infile := packed
    readErr := sys.readErr (packedName sys.MAXPATHLEN argvk)
    written := []
    writeErr := sys.writeErr argvk }

/-- Keep the unpacked file: times, modes, and the packed file goes. -/
def keep (sys : System) (argvk filename : Path) (s : Main) : Main :=
  let s := if sys.utimeErr argvk then { s with errflg := s.errflg + 1 } else s
  let s := if sys.chmodErr argvk then { s with errflg := s.errflg + 1 } else s
  { s with rmflg := false, disk := update s.disk filename none }

/-- The operand after its output has been created, or for `pcat`. -/
def unpackOpened (sys : System) (pcat : Bool) (argvk filename : Path) (packed : List UInt8)
    (s : Main) : Main :=
  let (r, t) := getdict sys.BUFSIZ (opened sys argvk packed s)
  let s := { s with toStatics := t.toStatics }
  let s := if pcat then { s with stdout := s.stdout ++ t.written }
    else { s with disk := update s.disk argvk (some t.written) }
  if r = .success ∧ pcat then
    let s := if !pcat then keep sys argvk filename s else s
    if s.errflg = 0 then { s with fcount := s.fcount - 1 } else s
  else if !pcat then { s with disk := update s.disk argvk none }
  else s

/-- One operand. Where it goes on after a diagnostic, so does the program. -/
def unpackFile (sys : System) (pcat : Bool) (arg : Path) (s : Main) : Main :=
  let s := { s with fcount := s.fcount + 1 }
  if s.errflg ≠ 0 then s
  else
    let argvk := stripSuffix arg
    let filename := packedName sys.MAXPATHLEN argvk
    let (i, base) := nameLengths sys.MAXPATHLEN argvk
    match s.disk filename with
    | none => s
    | some packed =>
      if sys.openErr filename then s
      else if pcat then unpackOpened sys pcat argvk filename packed s
      else if sys.MAXPATHLEN - 1 ≤ i ∨ sys.nameMax filename < base then s
      else if (s.disk argvk).isSome then s
      else if sys.creatErr argvk then s
      else
        unpackOpened sys pcat argvk filename packed
          { s with disk := update s.disk argvk (some []), rmflg := true }

/-- The loop over the operands. -/
def unpackFiles (sys : System) (pcat : Bool) (args : List Path) (s : Main) : Main :=
  args.foldl (fun s arg => unpackFile sys pcat arg s) s

/-- The packed file of an operand, when its output does not exist and can be created, so that
`getdict` is called. -/
def getdictCalled (sys : System) (arg : Path) (s : Main) : Option (List UInt8) :=
  let argvk := stripSuffix arg
  let filename := packedName sys.MAXPATHLEN argvk
  let (i, base) := nameLengths sys.MAXPATHLEN argvk
  if s.errflg = 0 ∧ sys.openErr filename = false ∧
      ¬ (sys.MAXPATHLEN - 1 ≤ i ∨ sys.nameMax filename < base) ∧ s.disk argvk = none ∧
      sys.creatErr argvk = false then
    s.disk filename
  else none

/-- Whether `getdict` unpacks an operand that it is called for. -/
def getdictSucceeds (sys : System) (arg : Path) (s : Main) : Prop :=
  ∃ packed ∈ getdictCalled sys arg s,
    (getdict sys.BUFSIZ (opened sys (stripSuffix arg) packed s)).1 = .success

instance (sys : System) (arg : Path) (s : Main) : Decidable (getdictSucceeds sys arg s) := by
  unfold getdictSucceeds
  infer_instance

/-- The outcome an operand should have: on success the decoded bytes and no packed file, on
failure no output and the packed file as it was. -/
def Outcome (sys : System) (arg : Path) (s : Main) : Prop :=
  let argvk := stripSuffix arg
  let filename := packedName sys.MAXPATHLEN argvk
  let s' := unpackFile sys false arg s
  ∀ packed ∈ getdictCalled sys arg s,
    let r := getdict sys.BUFSIZ (opened sys argvk packed s)
    (r.1 = .success → s'.disk argvk = some r.2.written ∧ s'.disk filename = none ∧
      s'.fcount = s.fcount) ∧
    (∀ msg, r.1 = .failure msg → s'.disk argvk = none ∧ s'.disk filename = some packed ∧
      s'.fcount = s.fcount + 1)

/-- The outcome of an operand is that of a failure, whatever `getdict` returns. -/
theorem unpackFile_called {sys : System} {arg : Path} {s : Main} {packed : List UInt8}
    (h : packed ∈ getdictCalled sys arg s) :
    let s' := unpackFile sys false arg s
    s'.disk (stripSuffix arg) = none ∧
      s'.disk (packedName sys.MAXPATHLEN (stripSuffix arg)) = some packed ∧
      s'.fcount = s.fcount + 1 := by
  unfold getdictCalled at h
  dsimp only at h
  split_ifs at h with hcond
  · obtain ⟨herr, hopen, hname, hout, hcreat⟩ := hcond
    have hdisk : s.disk (packedName sys.MAXPATHLEN (stripSuffix arg)) = some packed := h
    have hne : packedName sys.MAXPATHLEN (stripSuffix arg) ≠ stripSuffix arg := by
      intro heq
      rw [heq, hout] at hdisk
      cases hdisk
    unfold unpackFile
    dsimp only
    rw [if_neg (by omega), hdisk]
    simp only [hopen, Bool.false_eq_true, if_false]
    rw [if_neg hname, hout]
    simp only [Option.isSome_none, Bool.false_eq_true, if_false, hcreat]
    unfold unpackOpened
    simp [hne, hdisk]
  · cases h

/-- An operand has the right outcome exactly when `getdict` does not unpack it. -/
theorem outcome_iff (sys : System) (arg : Path) (s : Main) :
    Outcome sys arg s ↔ ¬ getdictSucceeds sys arg s := by
  constructor
  · rintro h ⟨packed, hcalled, hsuccess⟩
    obtain ⟨hgone, _⟩ := unpackFile_called hcalled
    obtain ⟨hkept, _⟩ := (h packed hcalled).1 hsuccess
    rw [hgone] at hkept
    cases hkept
  · intro h packed hcalled
    obtain ⟨hgone, hpacked, hcount⟩ := unpackFile_called hcalled
    refine ⟨fun hsuccess => ?_, fun msg _ => ⟨hgone, hpacked, hcount⟩⟩
    exact absurd ⟨packed, hcalled, hsuccess⟩ h

/-- In a run over any operands from any state, all of them have the right outcome exactly when
`getdict` unpacks none of those it is called for. -/
theorem unpackFiles_outcome (sys : System) (args : List Path) (s : Main) :
    (∀ before arg after, args = before ++ arg :: after →
      Outcome sys arg (unpackFiles sys false before s)) ↔
    ∀ before arg after, args = before ++ arg :: after →
      ¬ getdictSucceeds sys arg (unpackFiles sys false before s) := by
  simp only [outcome_iff]

/-- A file that `pack` has packed is one that `unpack` leaves packed. -/
theorem unpackFile_packfile {sys : System} {arg : Path} {s : Main} {BUFSIZ : ℕ} {force : Bool}
    {bytes packed : List UInt8} {inputErr : Bool} {g₀ g g' : Pack.Globals}
    (hB : 288 ≤ BUFSIZ) (hB' : 288 ≤ sys.BUFSIZ) (htwo : ∃ a ∈ bytes, ∃ b ∈ bytes, a ≠ b)
    (hsize : bytes.length < 2 ^ 32)
    (hreach : Pack.prepare BUFSIZ force ⟨bytes, inputErr, false, false⟩ g₀ = (none, g))
    (hpack : Pack.packfile BUFSIZ force ⟨bytes, inputErr, false, false⟩ g₀ = (.packed, g', packed))
    (hcalled : packed ∈ getdictCalled sys arg s) (hwrite : sys.writeErr (stripSuffix arg) = false) :
    ¬ Outcome sys arg s := by
  obtain ⟨_, packed', hpack', hround⟩ := Pack.getdict_output_prepare hB hB' htwo hsize hreach
  rw [hpack] at hpack'
  obtain rfl : packed = packed' := (Prod.mk.inj (Prod.mk.inj hpack').2).2
  rw [outcome_iff, not_not]
  refine ⟨packed, hcalled, ?_⟩
  have := (hround s.toStatics (sys.readErr (packedName sys.MAXPATHLEN (stripSuffix arg)))).1
  rw [opened, hwrite]
  exact this

/-- No limits and no failing calls. -/
def plainSystem : System where
  BUFSIZ := 512
  MAXPATHLEN := 1024
  nameMax := fun _ => 255
  openErr := fun _ => false
  creatErr := fun _ => false
  readErr := fun _ => false
  writeErr := fun _ => false
  utimeErr := fun _ => false
  chmodErr := fun _ => false

/-- `a.z`, packed from the one byte `a`. -/
def packedA : List UInt8 := [31, 30, 0, 0, 0, 1, 1, 0, 97, 64]

def startA : Main :=
  { Statics.loaded with
    disk := fun p => if p = [97, 46, 122] then some packedA else none
    stdout := []
    rmflg := false
    errflg := 0
    fcount := 0 }

/-- `unpack a` decodes `a.z`, removes what it has written and counts a failure. -/
theorem unpackFiles_not_outcome :
    ¬ ∀ before arg after, [[97]] = before ++ arg :: after →
      Outcome plainSystem arg (unpackFiles plainSystem false before startA) := by
  intro h
  have hout := h [] [97] [] rfl
  rw [outcome_iff] at hout
  exact hout (by decide)

end Unitas.Unpack
