import Mathlib.Data.List.Induction
import Unitas.Paste.Law

/-! The output buffer of `paste`: when characters go over its end, and when they are lost. -/
namespace Unitas.Paste

/-! ### Parallel merging -/

/-- The `k`-th lines have too many characters together. -/
def Long (files : List (List UInt8)) (k : ℕ) : Prop :=
  maxline < ((rowAt files k).map List.length).sum

instance (files : List (List UInt8)) (k : ℕ) : Decidable (Long files k) :=
  inferInstanceAs (Decidable (_ < _))

/-- The delimiters before the text with which there are too many characters. -/
def crossed (D : ℕ → List ℕ) : ℕ → ℕ → List (List ℕ) → List ℕ
  | _, _, [] => []
  | j, k, x :: xs =>
    if maxline < j + x.length then [] else D k ++ crossed D (j + x.length) (k + 1) xs

/-- The `k`-th line of the output fits and is without null characters, if it is printed. If it is too
long, there are at most two delimiters before that comes out. -/
def RowOk (del : List ℕ) (files : List (List UInt8)) (k : ℕ) : Prop :=
  if Long files k then (crossed (code del) 0 0 (rowAt files k)).length ≤ 2
  else (joined (code del) 0 (rowAt files k)).length + 1 < LINE_MAX ∧
    (k < newlines files → 0 ∉ rowText (code del) files k)

/-- Nothing is stored over the end of the buffer in a turn, and what it prints is complete. -/
def RowSafe (del : List ℕ) (l : ℕ) (files : List (List UInt8)) : Prop :=
  row del l files ≠ .error .overrun ∧
    ∀ r text, row del l files = .ok (r, text) → r.eofcount < files.length →
      text = rowText (code del) files 0

/-- What is left of the files before the `k`-th turn, if there is one. -/
def before (del : List ℕ) : ℕ → ℕ → List (List UInt8) → Option (ℕ × List (List UInt8))
  | 0, l, files => some (l, files)
  | k + 1, l, files =>
    match row del l files with
    | .ok (r, _) => if r.eofcount < files.length then before del k r.l r.files else none
    | .error _ => none

section Parallel
variable {del : List ℕ}

theorem fill_long (file : List UInt8) (j : ℕ) (buf : List ℕ) (hj : j ≤ maxline)
    (hlong : maxline < j + (head file).length) (hbuf : buf.length ≤ LINE_MAX) :
    fill j buf file =
      if buf.length + (maxline - j) ≤ LINE_MAX then .error .lineTooLong else .error .overrun := by
  induction file generalizing j buf with
  | nil => simp [head] at hlong; omega
  | cons c file ih =>
    have hc : c ≠ 10 := by
      rintro rfl
      simp [head] at hlong
      omega
    have hhead : head (c :: file) = c.toNat :: head file := by simp [head, hc]
    rw [hhead, List.length_cons] at hlong
    rw [fill, if_neg hc]
    by_cases hlt : j + 1 ≤ maxline
    · rw [if_pos hlt, put]
      by_cases hput : buf.length < LINE_MAX
      · rw [if_pos hput]
        show fill (j + 1) (buf ++ [c.toNat]) file = _
        rw [ih (j + 1) _ hlt (by omega) (by simp; omega), List.length_append]
        simp only [List.length_singleton]
        congr 1
        simp only [eq_iff_iff]
        omega
      · rw [if_neg hput, if_neg (by omega)]
        rfl
    · rw [if_neg hlt, if_pos (by omega)]

theorem rowLoop_long (files : List (List UInt8)) (j i e : ℕ) (r : Row) (hj : j ≤ maxline)
    (hlong : maxline < j + ((files.map head).map List.length).sum)
    (hbuf : r.buf.length = j + e) (hle : r.buf.length ≤ LINE_MAX) :
    rowLoop del j (i % del.length) r files =
      if e + (crossed (code del) j i (files.map head)).length ≤ 2 then .error .lineTooLong
      else .error .overrun := by
  have htwo : LINE_MAX = maxline + 2 := rfl
  induction files generalizing j i e r with
  | nil => simp at hlong; omega
  | cons file files ih =>
    simp only [List.map_cons, List.sum_cons] at hlong ⊢
    rw [rowLoop, crossed]
    by_cases hfile : maxline < j + (head file).length
    · rw [fill_long file j r.buf hj hfile hle, if_pos hfile]
      by_cases he : e ≤ 2
      · rw [if_pos (by omega), if_pos (by simpa using he)]
        rfl
      · rw [if_neg (by omega), if_neg (by simpa using he)]
        rfl
    · rw [fill_eq file j r.buf (by omega) hle, if_neg hfile]
      by_cases h1 : r.buf.length + (head file).length ≤ LINE_MAX
      · rw [if_pos h1]
        simp only [bind, Except.bind]
        have hput := @putDel_eq del i (r.buf ++ head file) (by simpa using h1)
        rw [List.length_append] at hput
        rw [hput]
        by_cases h2 : r.buf.length + (head file).length + (code del i).length ≤ LINE_MAX
        · have hlen : ((r.buf ++ head file) ++ code del i).length ≤ LINE_MAX := by
            simpa [Nat.add_assoc] using h2
          simp only [h2, if_true]
          rw [Nat.mod_add_mod, ih _ (i + 1) (e + (code del i).length) _ (by omega) (by omega)
            (by simp; omega) hlen, List.length_append, Nat.add_assoc]
        · simp only [h2, if_false, List.length_append]
          rw [if_neg (by omega)]
      · rw [if_neg h1, List.length_append, if_neg (by omega)]
        rfl

theorem rowAt_zero (files : List (List UInt8)) : rowAt files 0 = files.map head := by
  simp [rowAt, funext lineAt_zero]

theorem row_long (l : ℕ) (files : List (List UInt8)) (h : Long files 0) :
    row del l files =
      if (crossed (code del) 0 0 (rowAt files 0)).length ≤ 2 then .error .lineTooLong
      else .error .overrun := by
  unfold Long at h
  rw [rowAt_zero] at h ⊢
  have hloop := @rowLoop_long del files 0 0 0 ⟨l, 0, [], []⟩ (Nat.zero_le _) (by simpa using h)
    rfl (Nat.zero_le _)
  rw [Nat.zero_mod, Nat.zero_add] at hloop
  rw [row, hloop]
  split_ifs <;> rfl

theorem row_nil (l : ℕ) : ∃ buf, row del l [] = .ok (⟨l, 0, [], []⟩, buf) := by
  by_cases hl : l = RUB
  · refine ⟨[10], ?_⟩
    simp [row, rowLoop, bind, Except.bind, Row.newline, hl, put, print, LINE_MAX]
  · refine ⟨[10], ?_⟩
    simp [row, rowLoop, bind, Except.bind, Row.newline, hl, print, LINE_MAX]

theorem rowSafe_iff (l : ℕ) (files : List (List UInt8)) :
    RowSafe del l files ↔ RowOk del files 0 := by
  unfold RowSafe RowOk
  by_cases hlong : Long files 0
  · rw [if_pos hlong, row_long l files hlong]
    split_ifs with h
    · exact iff_of_true ⟨fun h => (by cases h), fun _ _ h => by cases h⟩ h
    · exact iff_of_false (fun h => h.1 rfl) h
  rw [if_neg hlong]
  cases files with
  | nil =>
    obtain ⟨buf, hrow⟩ := @row_nil del l
    rw [hrow]
    refine iff_of_true ⟨fun h => (by cases h), ?_⟩
      ⟨by simp [rowAt, joined, LINE_MAX], fun h => by cases h⟩
    intro r text heq hlt
    exact absurd hlt (Nat.not_lt_zero _)
  | cons file files =>
    have hsum : (((file :: files).map head).map List.length).sum ≤ maxline := by
      rw [← rowAt_zero]
      exact not_lt.mp hlong
    obtain ⟨r, heof, -, hrow⟩ := @row_eq del l file files hsum
    rw [← rowAt_zero] at hrow
    rw [hrow]
    split_ifs with hfit
    · rw [newlines_pos, ← heof]
      constructor
      · rintro ⟨-, htext⟩
        refine ⟨hfit, fun hlt h0 => ?_⟩
        have h := htext r _ rfl hlt
        have hall := List.takeWhile_eq_self_iff.mp h 0 h0
        simp at hall
      · rintro ⟨-, h0⟩
        refine ⟨fun h => (by cases h), fun r' text heq hlt => ?_⟩
        cases heq
        refine List.takeWhile_eq_self_iff.mpr fun c hc => ?_
        rw [decide_eq_true_iff]
        rintro rfl
        exact h0 hlt hc
    · exact iff_of_false (fun h => h.1 rfl) (fun h => hfit h.1)

/-- A turn that goes well, and the files after it. -/
theorem row_next (l : ℕ) {files : List (List UInt8)} (hlong : ¬ Long files 0)
    (hok : RowOk del files 0) :
    ∃ r text, row del l files = .ok (r, text) ∧ (r.eofcount < files.length ↔ 0 < newlines files) ∧
      (0 < newlines files → r.files = files.map rest) := by
  cases files with
  | nil =>
    obtain ⟨buf, hrow⟩ := @row_nil del l
    exact ⟨_, _, hrow, by simp [newlines], by simp [newlines]⟩
  | cons file files =>
    have hsum : (((file :: files).map head).map List.length).sum ≤ maxline := by
      rw [← rowAt_zero]
      exact not_lt.mp hlong
    obtain ⟨r, heof, hfiles, hrow⟩ := @row_eq del l file files hsum
    rw [← rowAt_zero] at hrow
    unfold RowOk at hok
    rw [if_neg hlong] at hok
    rw [if_pos hok.1] at hrow
    exact ⟨r, _, hrow, by rw [heof, newlines_pos], fun _ => hfiles⟩

theorem rowOk_rest (files : List (List UInt8)) (k : ℕ) :
    RowOk del (files.map rest) k ↔ RowOk del files (k + 1) := by
  have hlong : Long (files.map rest) k = Long files (k + 1) := by unfold Long; rw [rowAt_rest]
  have hlt : k < newlines files - 1 ↔ k + 1 < newlines files := by omega
  unfold RowOk
  simp only [hlong, rowAt_rest, rowText, newlines_rest, hlt]

/-- Every turn up to the first line that is too long is as it should be. -/
def AllRowsOk (del : List ℕ) (files : List (List UInt8)) : Prop :=
  ∀ k ≤ newlines files, (∀ i < k, ¬ Long files i) → RowOk del files k

theorem allRowsOk_iff (files : List (List UInt8)) :
    AllRowsOk del files ↔
      RowOk del files 0 ∧ (0 < newlines files → ¬ Long files 0 → AllRowsOk del (files.map rest)) := by
  have hlong (i : ℕ) : Long (files.map rest) i ↔ Long files (i + 1) := by
    unfold Long
    rw [rowAt_rest]
  constructor
  · refine fun h => ⟨h 0 (Nat.zero_le _) nofun, fun hpos h0 k hk hi => ?_⟩
    rw [newlines_rest] at hk
    refine (rowOk_rest files k).mpr (h (k + 1) (by omega) fun i hik => ?_)
    cases i with
    | zero => exact h0
    | succ i => exact fun h => hi i (by omega) ((hlong i).mpr h)
  · rintro ⟨h0, h⟩ k hk hi
    cases k with
    | zero => exact h0
    | succ k =>
      refine (rowOk_rest files k).mp (h (by omega) (hi 0 (Nat.succ_pos k)) k ?_ fun i hik => ?_)
      · rw [newlines_rest]
        omega
      · exact fun h => hi (i + 1) (by omega) ((hlong i).mp h)

/-- All the turns of a run are safe. -/
def Safe (del : List ℕ) (l : ℕ) (files : List (List UInt8)) : Prop :=
  ∀ k l' files', before del k l files = some (l', files') → RowSafe del l' files'

theorem safe_iff_next (l : ℕ) (files : List (List UInt8)) :
    Safe del l files ↔ RowSafe del l files ∧
      ∀ r text, row del l files = .ok (r, text) → r.eofcount < files.length →
        Safe del r.l r.files := by
  constructor
  · refine fun h => ⟨h 0 l files rfl, fun r text hrow hlt k l' files' hbefore => ?_⟩
    refine h (k + 1) l' files' ?_
    rw [before, hrow]
    exact (if_pos hlt).trans hbefore
  · rintro ⟨h0, h⟩ k l' files' hbefore
    cases k with
    | zero =>
      cases hbefore
      exact h0
    | succ k =>
      rw [before] at hbefore
      split at hbefore
      · next r text hrow =>
        split_ifs at hbefore with hlt
        exact h r text hrow hlt k l' files' hbefore
      · cases hbefore

theorem safe_iff_allRowsOk (l : ℕ) (files : List (List UInt8)) : Safe del l files ↔ AllRowsOk del files := by
  induction hn : newlines files using Nat.strong_induction_on generalizing l files with
  | _ n ih =>
    rw [safe_iff_next, allRowsOk_iff, rowSafe_iff]
    refine and_congr_right fun hok => ?_
    by_cases hlong : Long files 0
    · have herr : row del l files = _ := row_long l files hlong
      refine iff_of_true (fun r text hrow => ?_) fun _ h => absurd hlong h
      rw [herr] at hrow
      split_ifs at hrow
    · obtain ⟨r, text, hrow, heof, hfiles⟩ := row_next l hlong hok
      by_cases hpos : 0 < newlines files
      · have hrest : newlines (files.map rest) < n := by rw [newlines_rest]; omega
        have hnext := ih _ hrest r.l (files.map rest) rfl
        rw [← hfiles hpos] at hnext
        constructor
        · intro h _ _
          rw [← hfiles hpos]
          exact hnext.mp (h r text hrow (heof.mpr hpos))
        · intro h r' text' hrow' _
          rw [hrow] at hrow'
          cases hrow'
          refine hnext.mpr ?_
          rw [hfiles hpos]
          exact h hpos hlong
      · refine iff_of_true (fun r' text' hrow' hlt => ?_) fun h => absurd h hpos
        rw [hrow] at hrow'
        cases hrow'
        exact absurd (heof.mp hlt) hpos

/-- A run goes over the end of the buffer in one of its turns. -/
theorem parallel_overrun_iff (l : ℕ) (files : List (List UInt8)) :
    (∃ fuel, parallel del fuel l files = .error .overrun) ↔
      ∃ k l' files', before del k l files = some (l', files') ∧
        row del l' files' = .error .overrun := by
  constructor
  · rintro ⟨fuel, h⟩
    induction fuel generalizing l files with
    | zero => cases h
    | succ fuel ih =>
      rw [parallel] at h
      cases hrow : row del l files with
      | error e =>
        rw [hrow] at h
        cases h
        exact ⟨0, l, files, rfl, hrow⟩
      | ok r =>
        rw [hrow] at h
        simp only [bind, Except.bind] at h
        split_ifs at h with hlt
        cases hrest : parallel del fuel r.1.l r.1.files with
        | ok text =>
          rw [hrest] at h
          cases h
        | error e =>
          rw [hrest] at h
          cases h
          obtain ⟨k, l', files', hbefore, hover⟩ := ih r.1.l r.1.files hrest
          refine ⟨k + 1, l', files', ?_, hover⟩
          rw [before, hrow]
          exact (if_pos hlt).trans hbefore
  · rintro ⟨k, l', files', hbefore, hover⟩
    refine ⟨k + 1, ?_⟩
    induction k generalizing l files with
    | zero =>
      cases hbefore
      rw [parallel, hover]
      rfl
    | succ k ih =>
      rw [before] at hbefore
      split at hbefore
      · next r text hrow =>
        split_ifs at hbefore with hlt
        rw [parallel, hrow]
        simp only [bind, Except.bind]
        rw [if_pos hlt, ih r.l r.files hbefore]
      · cases hbefore

end Parallel

/-! ### Serial pasting -/

/-- What the characters of a file add to the buffer, each with the delimiter before it. -/
def turns (D : ℕ → List ℕ) : ℕ → Bool → List UInt8 → List (List ℕ)
  | _, _, [] => []
  | i, glue, c :: file =>
    ((if glue then D i else []) ++ if c = 10 then [] else [c.toNat]) ::
      turns D (if glue then i + 1 else i) (c = 10) file

/-- A piece that is printed when the next character comes. -/
def Full (p : List (List ℕ)) : Prop :=
  maxline ≤ p.flatten.length ∧ p.dropLast.flatten.length < maxline

/-- Cut into pieces, each of which ends when it is full, the last one has a character more. -/
def Crowded (ts : List (List ℕ)) : Prop :=
  ∃ (ps : List (List (List ℕ))) (last : List (List ℕ)), ts = ps.flatten ++ last ∧
    (∀ p ∈ ps, Full p) ∧ last.dropLast.flatten.length < maxline ∧
      last.flatten.length = maxline + 1

/-- `j` after a turn. -/
def counted (j : ℕ) (w : List ℕ) : ℕ := (if maxline ≤ j then 0 else j) + w.length

theorem counted_piece {j : ℕ} (hj : j = 0 ∨ maxline ≤ j) (p : List (List ℕ)) (hne : p ≠ [])
    (hp : p.dropLast.flatten.length < maxline) : p.foldl counted j = p.flatten.length := by
  induction p using List.reverseRecOn with
  | nil => exact absurd rfl hne
  | append_singleton p w ih =>
    rw [List.dropLast_concat] at hp
    rw [List.foldl_append, List.foldl_cons, List.foldl_nil, List.flatten_append,
      List.length_append]
    by_cases hnil : p = []
    · have hstart : (if maxline ≤ j then 0 else j) = 0 := by
        split_ifs with h
        · rfl
        · exact hj.resolve_right h
      rw [hnil, List.foldl_nil, counted, hstart]
      simp
    · have hdrop : p.dropLast.flatten.length < maxline := by
        have hsub := (List.dropLast_prefix p).sublist.flatten.length_le
        omega
      rw [ih hnil hdrop, counted, if_neg (not_le.mpr hp)]
      simp

theorem counted_pieces (ps : List (List (List ℕ))) (hps : ∀ p ∈ ps, Full p) {j : ℕ}
    (hj : j = 0 ∨ maxline ≤ j) :
    ps.flatten.foldl counted j = 0 ∨ maxline ≤ ps.flatten.foldl counted j := by
  induction ps generalizing j with
  | nil => exact hj
  | cons p ps ih =>
    obtain ⟨hp, hps⟩ := List.forall_mem_cons.mp hps
    have hne : p ≠ [] := by
      rintro rfl
      exact absurd hp.1 (by decide)
    rw [List.flatten_cons, List.foldl_append, counted_piece hj p hne hp.2]
    exact ih hps (.inr hp.1)

theorem exists_pieces (ts : List (List ℕ)) :
    ∃ (ps : List (List (List ℕ))) (last : List (List ℕ)), ts = ps.flatten ++ last ∧
      (∀ p ∈ ps, Full p) ∧ last.dropLast.flatten.length < maxline ∧
        ts.foldl counted 0 = last.flatten.length := by
  induction ts using List.reverseRecOn with
  | nil => exact ⟨[], [], rfl, nofun, by decide, rfl⟩
  | append_singleton ts w ih =>
    obtain ⟨ps, last, hts, hps, hlast, hcount⟩ := ih
    rw [List.foldl_append, List.foldl_cons, List.foldl_nil, hcount, counted]
    by_cases hfull : maxline ≤ last.flatten.length
    · refine ⟨ps ++ [last], [w], by simp [hts], ?_, by simp; decide, ?_⟩
      · intro p hp
        rcases List.mem_append.mp hp with hp | hp
        · exact hps p hp
        · rw [List.mem_singleton.mp hp]
          exact ⟨hfull, hlast⟩
      · rw [if_pos hfull]
        simp
    · refine ⟨ps, last ++ [w], by simp [hts], hps, ?_, ?_⟩
      · rw [List.dropLast_concat]
        exact not_le.mp hfull
      · rw [if_neg hfull]
        simp

theorem crowded_iff (ts : List (List ℕ)) : Crowded ts ↔ ts.foldl counted 0 = maxline + 1 := by
  constructor
  · rintro ⟨ps, last, rfl, hps, hlast, hlen⟩
    have hne : last ≠ [] := by
      rintro rfl
      exact absurd hlen (by decide)
    rw [List.foldl_append, counted_piece (counted_pieces ps hps (.inl rfl)) last hne hlast, hlen]
  · intro h
    obtain ⟨ps, last, hts, hps, hlast, hcount⟩ := exists_pieces ts
    exact ⟨ps, last, hts, hps, hlast, hcount.symm.trans h⟩

section Serial
variable {del : List ℕ}

/-- What holds of the variables between the turns. -/
structure Serial.Fits (s : Serial) : Prop where
  j_eq : s.j = s.buf.length
  j_le : s.j ≤ maxline + 1
  t_ne : s.j = maxline + 1 → s.t ≠ 10

theorem length_code_le (i : ℕ) : (code del i).length ≤ 1 := by
  unfold code
  split_ifs <;> simp

theorem flush_fits (s : Serial) (hs : s.Fits) :
    ∃ s', s.flush = .ok s' ∧ s'.glue = s.glue ∧ s'.k = s.k ∧
      s'.j = (if maxline ≤ s.j then 0 else s.j) ∧ s'.j = s'.buf.length := by
  by_cases hj : maxline ≤ s.j
  · have hlen : s.buf.length < LINE_MAX := by
      rw [← hs.j_eq]
      exact Nat.lt_of_le_of_lt hs.j_le (by decide)
    refine ⟨{ s with t := s.buf.getLastD 0,
                     out := s.out ++ s.buf.takeWhile (· ≠ 0),
                     buf := [], j := 0 }, ?_, rfl, rfl, by rw [if_pos hj], rfl⟩
    simp [Serial.flush, hj, print, hlen, bind, Except.bind]
  · exact ⟨s, by simp [Serial.flush, hj], rfl, rfl, by rw [if_neg hj], hs.j_eq⟩

theorem delimiter_fits (s : Serial) (i : ℕ) (hk : s.k = i % del.length)
    (hbuf : s.j = s.buf.length) (hj : s.j < maxline) :
    ∃ s', s.delimiter del = .ok s' ∧ s'.glue = false ∧
      s'.k = (if s.glue then i + 1 else i) % del.length ∧
      s'.j = s.j + (if s.glue then code del i else []).length ∧ s'.j = s'.buf.length := by
  have hput : s.buf.length < LINE_MAX := by
    rw [← hbuf]
    exact Nat.lt_trans hj (by decide)
  cases hg : s.glue with
  | false => exact ⟨s, by simp [Serial.delimiter, hg], hg, by simpa using hk, by simp, hbuf⟩
  | true =>
    have hk' : (s.k + 1) % del.length = (i + 1) % del.length := by rw [hk, Nat.mod_add_mod]
    by_cases hd : del.getD (i % del.length) 0 = RUB
    · refine ⟨{ s with glue := false, k := (s.k + 1) % del.length }, ?_, rfl,
        by simpa using hk', ?_, hbuf⟩
      · simp only [Serial.delimiter, hg, if_true, hk, hd, ne_eq, not_true_eq_false, if_false, bind,
          Except.bind]
      · simp only [code, if_true, hd, ne_eq, not_true_eq_false, if_false, List.length_nil,
          Nat.add_zero]
    · refine ⟨{ s with glue := false, k := (s.k + 1) % del.length,
                       buf := s.buf ++ [del.getD (i % del.length) 0],
                       t := del.getD (i % del.length) 0, j := s.j + 1 }, ?_, rfl,
        by simpa using hk', ?_, by simp [hbuf]⟩
      · simp only [Serial.delimiter, hg, if_true, hk, hd, ne_eq, not_false_eq_true, put, hput]
        rfl
      · simp only [code, if_true, hd, ne_eq, not_false_eq_true, List.length_singleton]

theorem char_fits (s : Serial) (c : UInt8) (hg : s.glue = false) (hbuf : s.j = s.buf.length)
    (hj : s.j ≤ maxline) :
    ∃ s', s.char c = .ok s' ∧ s'.glue = decide (c = 10) ∧ s'.k = s.k ∧
      s'.j = s.j + (if c = 10 then [] else [c.toNat]).length ∧ s'.j = s'.buf.length ∧
      (c ≠ 10 → s'.t = c.toNat) := by
  have hput : s.buf.length < LINE_MAX := by
    rw [← hbuf]
    exact Nat.lt_of_le_of_lt hj (by decide)
  by_cases hc : c = 10
  · exact ⟨{ s with glue := true }, by simp [Serial.char, hc], by simp [hc], rfl, by simp [hc],
      hbuf, fun h => absurd hc h⟩
  · refine ⟨{ s with buf := s.buf ++ [c.toNat], t := c.toNat, j := s.j + 1 }, ?_,
      by simp [hc, hg], rfl, by simp [hc], by simp [hbuf], fun _ => rfl⟩
    simp only [Serial.char, hc, ne_eq, not_false_eq_true, if_true, put, hput]
    rfl

/-- A turn of the loop over the characters. -/
theorem serial_turn (s : Serial) (i : ℕ) (c : UInt8) (hk : s.k = i % del.length) (hs : s.Fits) :
    ∃ s', (s.flush >>= Serial.delimiter del >>= Serial.char c) = .ok s' ∧
      s'.glue = decide (c = 10) ∧ s'.k = (if s.glue then i + 1 else i) % del.length ∧
      s'.j = counted s.j ((if s.glue then code del i else []) ++
        if c = 10 then [] else [c.toNat]) ∧ s'.Fits := by
  have hmax : 0 < maxline := by decide
  obtain ⟨s₁, h₁, hg₁, hk₁, hj₁, hbuf₁⟩ := flush_fits s hs
  have hlt₁ : s₁.j < maxline := by
    rw [hj₁]
    split_ifs <;> omega
  obtain ⟨s₂, h₂, hg₂, hk₂, hj₂, hbuf₂⟩ := delimiter_fits s₁ i (hk₁.trans hk) hbuf₁ hlt₁
  have hdel : (if s₁.glue then code del i else []).length ≤ 1 := by
    split_ifs
    · exact length_code_le i
    · exact Nat.zero_le 1
  obtain ⟨s₃, h₃, hg₃, hk₃, hj₃, hbuf₃, ht₃⟩ := char_fits s₂ c hg₂ hbuf₂ (by omega)
  refine ⟨s₃, ?_, hg₃, by rw [hk₃, hk₂, hg₁], ?_, hbuf₃, ?_, fun hfull => ?_⟩
  · rw [h₁]
    exact (congrArg (· >>= Serial.char c) h₂).trans h₃
  · rw [hj₃, hj₂, hj₁, hg₁, counted, List.length_append, Nat.add_assoc]
  · have hchar : (if c = 10 then [] else [c.toNat]).length ≤ 1 := by split_ifs <;> simp
    omega
  · by_cases hc : c = 10
    · rw [if_pos hc, List.length_nil] at hj₃
      omega
    · rw [ht₃ hc]
      exact fun h => hc (UInt8.toNat_inj.mp h)

theorem serialLoop_counted (file : List UInt8) (s : Serial) (i : ℕ) (hk : s.k = i % del.length)
    (hs : s.Fits) :
    ∃ s', serialLoop del s file = .ok s' ∧
      s'.j = (turns (code del) i s.glue file).foldl counted s.j ∧ s'.Fits := by
  induction file generalizing s i with
  | nil => exact ⟨s, rfl, rfl, hs⟩
  | cons c file ih =>
    obtain ⟨s₁, h₁, hglue, hk₁, hj, hs₁⟩ := serial_turn s i c hk hs
    obtain ⟨s₂, h₂, hj₂, hs₂⟩ := ih s₁ _ hk₁ hs₁
    refine ⟨s₂, ?_, ?_, hs₂⟩
    · have hloop : serialLoop del s (c :: file) =
          (s.flush >>= Serial.delimiter del >>= Serial.char c) >>= fun s =>
            serialLoop del s file := by
        rw [serialLoop]
        simp only [bind_assoc]
      rw [hloop, h₁]
      exact h₂
    · rw [hj₂, hj, hglue]
      rfl

theorem serialFile_cases (file : List UInt8) :
    serialFile del file = .error .overrun ∧ Crowded (turns (code del) 0 false file) ∨
      (∃ text, serialFile del file = .ok text) ∧ ¬ Crowded (turns (code del) 0 false file) := by
  rw [crowded_iff]
  obtain ⟨s, hloop, hj, hs⟩ := @serialLoop_counted del file ⟨[], [], false, 0, 0, 0⟩ 0
    (by simp) ⟨rfl, Nat.zero_le _, nofun⟩
  rw [← hj, serialFile, hloop]
  simp only [bind, Except.bind]
  have hlen := hs.j_eq
  have hle := hs.j_le
  have hmax : LINE_MAX = maxline + 2 := rfl
  have hput : s.buf.length < LINE_MAX := by omega
  by_cases ht : s.t = 10
  · have hne : s.j ≠ maxline + 1 := fun h => hs.t_ne h ht
    rw [if_neg (not_not.mpr ht)]
    refine .inr ⟨?_, hne⟩
    split_ifs
    · rw [print, if_pos hput]
      exact ⟨_, rfl⟩
    · exact ⟨_, rfl⟩
  · rw [if_pos ht, put, if_pos hput]
    dsimp only
    rw [if_pos (Nat.succ_pos s.j), print, List.length_append, List.length_singleton]
    by_cases hfull : s.j = maxline + 1
    · rw [if_neg (by omega)]
      exact .inl ⟨rfl, hfull⟩
    · rw [if_pos (by omega)]
      exact .inr ⟨⟨_, rfl⟩, hfull⟩

theorem serial_overrun_iff (files : List (List UInt8)) :
    serial del files = .error .overrun ↔
      ∃ file ∈ files, Crowded (turns (code del) 0 false file) := by
  induction files with
  | nil => simp [serial]
  | cons file files ih =>
    rw [List.exists_mem_cons_iff, ← ih, serial]
    rcases @serialFile_cases del file with ⟨hfile, hcrowded⟩ | ⟨⟨text, hfile⟩, hcrowded⟩
    · rw [hfile]
      exact iff_of_true rfl (.inl hcrowded)
    · rw [hfile, or_iff_right hcrowded]
      simp only [bind, Except.bind]
      cases serial del files with
      | error e => exact Iff.rfl
      | ok rest => simp

end Serial

/-! ### Both -/

/-- Nothing is stored over the end of the buffer, and what parallel merging prints is complete. -/
def Bounded (del : List ℕ) (onefile : Bool) (l : ℕ) (files : List (List UInt8)) : Prop :=
  if onefile then serial del files ≠ .error .overrun
  else (∀ fuel, parallel del fuel l files ≠ .error .overrun) ∧
    ∀ k l' files' r text, before del k l files = some (l', files') →
      row del l' files' = .ok (r, text) → r.eofcount < files'.length →
        text = rowText (code del) files' 0

theorem bounded_iff (del : List ℕ) (onefile : Bool) (l : ℕ) (files : List (List UInt8)) :
    Bounded del onefile l files ↔
      if onefile then ∀ file ∈ files, ¬ Crowded (turns (code del) 0 false file)
      else AllRowsOk del files := by
  unfold Bounded
  split_ifs
  · rw [ne_eq, serial_overrun_iff]
    simp only [not_exists, not_and]
  · rw [← safe_iff_allRowsOk l files]
    have hover := not_congr (@parallel_overrun_iff del l files)
    simp only [not_exists, not_and] at hover
    constructor
    · rintro ⟨hfuel, htext⟩ k l' files' hbefore
      exact ⟨hover.mp hfuel k l' files' hbefore,
        fun r text hrow hlt => htext k l' files' r text hbefore hrow hlt⟩
    · intro h
      exact ⟨hover.mpr fun k l' files' hbefore => (h k l' files' hbefore).1,
        fun k l' files' r text hbefore => (h k l' files' hbefore).2 r text⟩

/-- Three files, of which the first has a line of `maxline` characters. -/
theorem not_bounded :
    ¬ ∀ (del : List ℕ) (onefile : Bool) (l : ℕ) (files : List (List UInt8)),
      Bounded del onefile l files := by
  intro h
  have hhead : head (List.replicate maxline 97) = List.replicate maxline 97 := by simp [head]
  have hsum : (([List.replicate maxline 97, [], []].map head).map List.length).sum ≤ maxline := by
    simp only [List.map_cons, hhead, List.map_nil, List.length_replicate]
    simp [head]
  obtain ⟨r, -, -, hrow⟩ := @row_eq [9] 0 (List.replicate maxline 97) [[], []] hsum
  have hover : row [9] 0 [List.replicate maxline 97, [], []] = .error .overrun := by
    rw [hrow, if_neg]
    simp only [List.map_cons, hhead, List.map_nil, joined, List.length_append,
      List.length_replicate]
    decide
  exact (h [9] false 0 [List.replicate maxline 97, [], []]).1 1
    (congrArg (· >>= _) hover)

end Unitas.Paste
