import Mathlib.Data.List.DropRight
import Mathlib.Data.List.Infix

/-!
# Strings, lines and text files

A string is a list of characters.  A text file is the list of its lines, each
carrying the proof that it holds no newline.
-/

namespace AutoTestKernel

abbrev Str := List Char

namespace Text

theorem notMem_of_mem_splitOn {α : Type*} [DecidableEq α] {a : α} {s l : List α}
    (h : l ∈ s.splitOn a) : a ∉ l := by
  induction s generalizing l with
  | nil =>
      have hl : l = [] := by simpa using h
      simp [hl]
  | cons c s ih =>
      rw [List.splitOn_cons_eq_if_modifyHead] at h
      obtain ⟨first, rest, hs⟩ := List.exists_cons_of_ne_nil (List.splitOn_ne_nil a s)
      by_cases hc : c = a
      · rw [if_pos (by simpa using hc)] at h
        rcases List.mem_cons.mp h with rfl | h
        · simp
        · exact ih h
      · rw [if_neg (by simpa using hc), hs, List.modifyHead_cons] at h
        rcases List.mem_cons.mp h with rfl | h
        · have hfirst : a ∉ first := ih (by simp [hs])
          simpa [Ne.symm hc] using hfirst
        · exact ih (by simp [hs, h])

theorem rdropWhile_append_cons {α : Type*} [DecidableEq α] {a : α} {n : List α} (h : a ∉ n)
    (d : List α) : (d ++ a :: n).rdropWhile (· ≠ a) = d ++ [a] := by
  rw [List.append_cons, List.rdropWhile, List.reverse_append, List.reverse_append,
    List.dropWhile_append_of_pos]
  · simp
  · intro c hc
    have hne : c ≠ a := fun heq => h (heq ▸ List.mem_reverse.mp hc)
    simpa using hne

theorem rtakeWhile_append_cons {α : Type*} [DecidableEq α] {a : α} {n : List α} (h : a ∉ n)
    (d : List α) : (d ++ a :: n).rtakeWhile (· ≠ a) = n := by
  have hne : ∀ c ∈ n.reverse, decide (c ≠ a) = true := fun c hc =>
    decide_eq_true fun heq => h (heq ▸ List.mem_reverse.mp hc)
  rw [List.rtakeWhile, List.reverse_append, List.reverse_cons, List.append_assoc,
    List.takeWhile_append_of_pos hne]
  simp

theorem eq_singleton_of_flatMap_eq_map {α β : Type*} {h : α → List β} {k : α → β} {ls : List α}
    (hne : ∀ l ∈ ls, h l ≠ []) (heq : ls.flatMap h = ls.map k) : ∀ l ∈ ls, h l = [k l] := by
  have hlength : ∀ ms : List α, (∀ l ∈ ms, h l ≠ []) → ms.length ≤ (ms.flatMap h).length := by
    intro ms hms
    induction ms with
    | nil => simp
    | cons l ms ih =>
        have hl := List.length_pos_iff.mpr (hms l (by simp))
        have hrest := ih fun m hm => hms m (List.mem_cons_of_mem l hm)
        simp only [List.flatMap_cons, List.length_append, List.length_cons]
        omega
  induction ls with
  | nil => simp
  | cons l ls ih =>
      obtain ⟨hl, hls⟩ := List.forall_mem_cons.mp hne
      obtain ⟨b, bs, hb⟩ := List.exists_cons_of_ne_nil hl
      rw [List.flatMap_cons, List.map_cons, hb, List.cons_append] at heq
      obtain ⟨hfirst, hrest⟩ := List.cons.inj heq
      have hbs : bs = [] := by
        have hshort := hlength ls hls
        have htotal := congrArg List.length hrest
        simp only [List.length_append, List.length_map] at htotal
        exact List.length_eq_zero_iff.mp (by omega)
      rw [hbs, List.nil_append] at hrest
      exact List.forall_mem_cons.mpr ⟨by rw [hb, hbs, hfirst], ih hls hrest⟩

def newline : Char := '\n'

def splitLines (s : Str) : List Str := s.splitOn newline

def joinLines (ls : List Str) : Str := [newline].intercalate ls

theorem splitLines_of_notMem {s : Str} (h : newline ∉ s) : splitLines s = [s] :=
  List.splitOn_eq_singleton h

theorem splitLines_ne_nil (s : Str) : splitLines s ≠ [] := List.splitOn_ne_nil _ _

theorem splitLines_append_newline (s : Str) (h : newline ∉ s) :
    splitLines (s ++ [newline]) = [s, []] := by
  rw [splitLines, List.splitOn_append_cons_self_of_not_mem h]
  rfl

theorem splitLines_cons (c : Char) (s : Str) :
    splitLines (c :: s) =
      if c = newline then [] :: splitLines s else (splitLines s).modifyHead (c :: ·) := by
  simpa [splitLines] using List.splitOn_cons_eq_if_modifyHead (a := newline) c s

theorem newline_notMem_of_mem_splitLines {s l : Str} (h : l ∈ splitLines s) :
    newline ∉ l :=
  notMem_of_mem_splitOn h

theorem length_splitLines (s : Str) :
    (splitLines s).length = s.count newline + 1 := by
  induction s with
  | nil => simp [splitLines]
  | cons c s ih =>
      rw [splitLines_cons]
      split
      · next hc => simp [hc, ih]
      · next hc =>
          simp [List.length_modifyHead, ih, List.count_cons_of_ne (b := c) (a := newline) hc]

theorem splitLines_append (a s : Str) (ha : newline ∉ a) :
    splitLines (a ++ s) = (splitLines s).modifyHead (a ++ ·) := by
  induction a with
  | nil =>
      obtain ⟨first, rest, hs⟩ := List.exists_cons_of_ne_nil (splitLines_ne_nil s)
      simp [hs]
  | cons c a ih =>
      have hc : c ≠ newline := fun h => ha (by simp [h])
      have htail : newline ∉ a := fun h => ha (List.mem_cons_of_mem c h)
      obtain ⟨first, rest, hs⟩ := List.exists_cons_of_ne_nil (splitLines_ne_nil s)
      rw [List.cons_append, splitLines_cons, if_neg hc, ih htail, hs]
      rfl

end Text

@[ext] structure TextFile where
  lines : List Str
  newline_notMem : ∀ l ∈ lines, Text.newline ∉ l

def TextFile.empty : TextFile := ⟨[], List.forall_mem_nil _⟩

instance : DecidableEq TextFile := fun f g =>
  decidable_of_iff (f.lines = g.lines) TextFile.ext_iff.symm

end AutoTestKernel
