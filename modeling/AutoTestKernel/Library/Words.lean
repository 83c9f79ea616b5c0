import AutoTestKernel.Library.Pathname
import Mathlib.Data.Char
import Mathlib.Data.Finset.Sort
import Mathlib.Data.List.Lex

/-!
# Unquoted shell expansions

What the shell makes of the unquoted expansion of a variable: word splitting
at the default field separators, then pathname expansion of every word against
the pathnames that exist.  `echo` and command substitution, the two other
steps a string goes through in a shell pipeline, are here as well.
-/

namespace AutoTestKernel.Shell

open Pathname Text

/-- The default field separators: space, tab and newline. -/
def isBlank (c : Char) : Bool := c = ' ' || c = '\t' || c = newline

def splitWords (s : Str) : List Str := (s.splitOnP isBlank).filter (· ≠ [])

def pathnames (fs : Finset Str) (w : Str) : Finset Str := fs.filter (pathMatches w ·)

/-- Pathname expansion: a pattern without a match stays as it is. -/
def glob (fs : Finset Str) (w : Str) : List Str :=
  if isPattern w = true ∧ pathnames fs w ≠ ∅ then (pathnames fs w).sort else [w]

/-- The words an unquoted expansion of the value `s` contributes. -/
def expand (fs : Finset Str) (s : Str) : List Str := (splitWords s).flatMap (glob fs)

def echo (ws : List Str) : Str := [' '].intercalate ws ++ [newline]

/-- Command substitution drops the newlines at the end of the output. -/
def captured (output : Str) : Str := output.rdropWhile (· = newline)

def printLines (ps : List Str) : Str := ps.flatMap (· ++ [newline])

/-- `wc -l` -/
def lineCount (output : Str) : ℕ := output.count newline

/-- `head -n 1`, captured. -/
def headLine (output : Str) : Str := output.takeWhile (· ≠ newline)

def Unbroken (s : Str) : Prop := ∀ c ∈ s, isBlank c = false

instance (s : Str) : Decidable (Unbroken s) := List.decidableBAll _ s

theorem unbroken_append {s t : Str} : Unbroken (s ++ t) ↔ Unbroken s ∧ Unbroken t := by
  simp [Unbroken, List.mem_append, or_imp, forall_and]

theorem Unbroken.newline_notMem {s : Str} (h : Unbroken s) : newline ∉ s :=
  fun hmem => absurd (h newline hmem) (by decide)

theorem mem_splitOnP_unbroken {s w : Str} (h : w ∈ s.splitOnP isBlank) : Unbroken w := by
  induction s generalizing w with
  | nil =>
      have hw : w = [] := by simpa using h
      simp [hw, Unbroken]
  | cons c s ih =>
      rw [List.splitOnP_cons_eq_if_modifyHead] at h
      obtain ⟨first, rest, hs⟩ :=
        List.exists_cons_of_ne_nil (List.splitOnP_ne_nil isBlank s)
      by_cases hc : isBlank c = true
      · rw [if_pos hc] at h
        rcases List.mem_cons.mp h with rfl | h
        · simp [Unbroken]
        · exact ih h
      · rw [if_neg hc, hs, List.modifyHead_cons] at h
        rcases List.mem_cons.mp h with rfl | h
        · have hfirst : Unbroken first := ih (by simp [hs])
          exact List.forall_mem_cons.mpr ⟨by simpa using hc, hfirst⟩
        · exact ih (by simp [hs, h])

theorem splitWords_eq_self_iff {w : Str} : splitWords w = [w] ↔ w ≠ [] ∧ Unbroken w := by
  constructor
  · intro h
    have hmem : w ∈ splitWords w := by rw [h]; simp
    rw [splitWords, List.mem_filter] at hmem
    exact ⟨by simpa using hmem.2, mem_splitOnP_unbroken hmem.1⟩
  · rintro ⟨hne, hunbroken⟩
    rw [splitWords, List.splitOnP_eq_singleton hunbroken]
    simp [hne]

def Sole (fs : Finset Str) (w : Str) : Prop :=
  isPattern w = true → ∀ q ∈ fs, pathMatches w q = true → q = w

instance (fs : Finset Str) (w : Str) : Decidable (Sole fs w) :=
  inferInstanceAs (Decidable (_ → _))

theorem Sole.of_inert {w : Str} (h : Inert w) (fs : Finset Str) : Sole fs w := fun hp _ _ hq =>
  eq_of_pathMatches (h hp).1 (h hp).2 hq

theorem glob_of_sole {fs : Finset Str} {w : Str} (h : Sole fs w) : glob fs w = [w] := by
  unfold glob
  split
  · next hp =>
      have hsub : pathnames fs w ⊆ {w} := fun q hq =>
        Finset.mem_singleton.mpr (h hp.1 q (Finset.mem_filter.mp hq).1 (Finset.mem_filter.mp hq).2)
      rw [(Finset.subset_singleton_iff.mp hsub).resolve_left hp.2, Finset.sort_singleton]
  · rfl

theorem expand_of_sole {fs : Finset Str} {w : Str} (hne : w ≠ []) (hw : Unbroken w)
    (h : Sole fs w) : expand fs w = [w] := by
  rw [expand, splitWords_eq_self_iff.mpr ⟨hne, hw⟩]
  simp [glob_of_sole h]

@[simp] theorem expand_nil (fs : Finset Str) : expand fs [] = [] := rfl

theorem expand_empty (w : Str) : expand ∅ w = splitWords w := by
  have hglob : glob ∅ = fun v => [v] := funext fun v => by simp [glob, pathnames]
  rw [expand, hglob, List.flatMap_singleton']

theorem unbroken_of_expand_empty {w : Str} (h : expand ∅ w = [w]) : Unbroken w :=
  (splitWords_eq_self_iff.mp (by rwa [expand_empty] at h)).2

/-! ## A directory and a simple name -/

theorem Sole.of_literal {d n : Str} (hd : Literal d) (hn : Simple n) (fs : Finset Str) :
    Sole fs (d ++ '/' :: n) := by
  intro hp q _ hq
  rw [isPattern_join d hn.1] at hp
  obtain ⟨x, rfl, hx⟩ := (pathMatches_join hn.1.plain hn.2 q).mp hq
  rw [hd hp x hx]
  simp

/-- A directory name that matches another one is replaced by it as soon as
only the other one exists. -/
theorem expand_other_match {d x n : Str} (hd : isPattern d = true)
    (hx : directoryMatches (components d) x = true) (hw : Unbroken (d ++ '/' :: n))
    (hn : Simple n) : expand {x ++ n} (d ++ '/' :: n) = [x ++ n] := by
  have hmatch : pathMatches (d ++ '/' :: n) (x ++ n) = true :=
    (pathMatches_join hn.1.plain hn.2 _).mpr ⟨x, rfl, hx⟩
  have hset : pathnames {x ++ n} (d ++ '/' :: n) = {x ++ n} := by
    simp [pathnames, Finset.filter_singleton, hmatch]
  rw [expand, splitWords_eq_self_iff.mpr ⟨by simp, hw⟩]
  simp [glob, isPattern_join d hn.1, hd, hset]

/-! ## Pipelines -/

theorem echo_singleton (w : Str) : echo [w] = w ++ [newline] := by
  simp [echo]

theorem lineCount_printLines {ps : List Str} (h : ∀ p ∈ ps, newline ∉ p) :
    lineCount (printLines ps) = ps.length := by
  induction ps with
  | nil => rfl
  | cons p ps ih =>
      obtain ⟨hp, hps⟩ := List.forall_mem_cons.mp h
      have hcount : lineCount (printLines (p :: ps)) =
          p.count newline + (lineCount (printLines ps) + 1) := by
        simp [lineCount, printLines]
      rw [hcount, ih hps, List.count_eq_zero.mpr hp, List.length_cons]
      omega

/-- Every pathname that is printed adds a line, and perhaps more. -/
theorem lineCount_printLines_pos {ps : List Str} : 0 < lineCount (printLines ps) ↔ ps ≠ [] := by
  cases ps with
  | nil => simp [lineCount, printLines]
  | cons p ps =>
      have hline : newline ∈ printLines (p :: ps) := by simp [printLines]
      exact ⟨fun _ => List.cons_ne_nil p ps, fun _ => List.count_pos_iff.mpr hline⟩

theorem headLine_printLines {p : Str} (h : newline ∉ p) (ps : List Str) :
    headLine (printLines (p :: ps)) = p := by
  have hne : ∀ c ∈ p, decide (c ≠ newline) = true := fun c hc =>
    decide_eq_true fun heq => h (heq ▸ hc)
  simp only [headLine, printLines, List.flatMap_cons, List.append_assoc]
  rw [List.takeWhile_append_of_pos hne]
  simp

theorem lineCount_of_perm {ps' ps : List Str} (hperm : ps'.Perm ps)
    (h : ∀ p ∈ ps, newline ∉ p) : lineCount (printLines ps') = ps.length := by
  rw [lineCount_printLines fun p hp => h p (hperm.mem_iff.mp hp), hperm.length_eq]

theorem headLine_of_perm {ps' ps : List Str} (hperm : ps'.Perm ps)
    (h : ∀ p ∈ ps, newline ∉ p) (hne : ps ≠ []) : headLine (printLines ps') ∈ ps := by
  cases ps' with
  | nil => exact absurd hperm.nil_eq.symm hne
  | cons p rest =>
      have hp : p ∈ ps := hperm.mem_iff.mp List.mem_cons_self
      rwa [headLine_printLines (h p hp)]

theorem captured_append_newline (s : Str) : captured (s ++ [newline]) = captured s := by
  simp [captured, List.rdropWhile_concat_pos]

theorem captured_of_notMem {s : Str} (h : newline ∉ s) : captured s = s := by
  rw [captured, List.rdropWhile_eq_self_iff]
  intro hne
  have hlast : s.getLast hne ≠ newline := fun he => h (he ▸ List.getLast_mem hne)
  simpa using hlast

end AutoTestKernel.Shell
