import Mathlib.Data.List.Infix

/-!
# Deleting the first occurrence of a word

`sed 's/word//'` removes the leftmost occurrence of a fixed word from a line.
The lemmas say when a word that was appended behind a separator is the one
that is removed again, and where a word can occur in a line of fields.
-/

namespace AutoTestKernel.Occurrence

variable {α : Type*}

/-- A word without the separator `c` that occurs in `u ++ c :: v` occurs on
one side of it. -/
theorem infix_append_cons_iff {pat : List α} {c : α} (hc : c ∉ pat) (u v : List α) :
    pat <:+: u ++ c :: v ↔ pat <:+: u ∨ pat <:+: v := by
  constructor
  · intro h
    rcases List.infix_append_iff.mp h with h | h | ⟨l₁, l₂, rfl, hl₁, hl₂⟩
    · exact Or.inl h
    · rcases List.infix_cons_iff.mp h with hp | h
      · cases pat with
        | nil => exact Or.inl List.nil_infix
        | cons x pat =>
            have hx : x = c := (List.cons_prefix_cons.mp hp).1
            exact absurd (by simp [hx]) hc
      · exact Or.inr h
    · cases l₂ with
      | nil => exact Or.inl (by simpa using hl₁.isInfix)
      | cons x l₂ =>
          have hx : x = c := (List.cons_prefix_cons.mp hl₂).1
          exact absurd (by simp [hx]) hc
  · rintro (h | h)
    · exact List.infix_append_of_infix_left h
    · exact List.infix_append_of_infix_right (List.infix_cons h)

theorem prefix_of_prefix_append_cons {pat u v : List α} {c : α} (hc : c ∉ pat)
    (h : pat <+: u ++ c :: v) : pat <+: u := by
  rcases List.prefix_or_prefix_of_prefix h (List.prefix_append u (c :: v)) with hpu | hup
  · exact hpu
  · obtain ⟨w, rfl⟩ := hup
    cases w with
    | nil => simp
    | cons x w =>
        have hx : x = c :=
          (List.cons_prefix_cons.mp ((List.prefix_append_right_inj u).mp h)).1
        exact absurd (by simp [hx]) hc

/-- A word that begins with the separator begins at one of the separators. -/
theorem cons_infix_append_cons_iff {pat u v : List α} {c : α} (hu : c ∉ u) :
    c :: pat <:+: u ++ c :: v ↔ pat <+: v ∨ c :: pat <:+: v := by
  induction u with
  | nil => rw [List.nil_append, List.infix_cons_iff, List.cons_prefix_cons, and_iff_right rfl]
  | cons x u ih =>
      have hx : c ≠ x := fun heq => hu (by simp [heq])
      have hnot : ¬ c :: pat <+: x :: (u ++ c :: v) := fun h => hx (List.cons_prefix_cons.mp h).1
      rw [List.cons_append, List.infix_cons_iff, or_iff_right hnot,
        ih fun h => hu (List.mem_cons_of_mem x h)]

variable [DecidableEq α]

/-- Remove the leftmost occurrence of `pat`; a list without one is unchanged. -/
def deleteFirst (pat : List α) : List α → List α
  | [] => []
  | x :: xs =>
      if pat <+: x :: xs then (x :: xs).drop pat.length
      else x :: deleteFirst pat xs

@[simp] theorem deleteFirst_nil (pat : List α) : deleteFirst pat [] = [] := rfl

theorem deleteFirst_prefix (pat rest : List α) (hpat : pat ≠ []) :
    deleteFirst pat (pat ++ rest) = rest := by
  cases pat with
  | nil => exact absurd rfl hpat
  | cons x pat => simp [deleteFirst]

theorem deleteFirst_cons_skip {pat : List α} {x : α} {xs : List α}
    (h : ¬ pat <+: x :: xs) :
    deleteFirst pat (x :: xs) = x :: deleteFirst pat xs := by
  simp only [deleteFirst, if_neg h]

theorem mem_of_mem_deleteFirst {pat l : List α} {x : α} (h : x ∈ deleteFirst pat l) :
    x ∈ l := by
  induction l with
  | nil => exact h
  | cons y l ih =>
      simp only [deleteFirst] at h
      split at h
      · exact List.mem_of_mem_drop h
      · rcases List.mem_cons.mp h with rfl | h
        · exact List.mem_cons_self
        · exact List.mem_cons_of_mem y (ih h)

theorem deleteFirst_append_cons {pat u : List α} {c : α} (hpat : pat ≠ [])
    (hc : c ∉ pat) (hu : ¬ pat <:+: u) (rest : List α) :
    deleteFirst pat (u ++ c :: (pat ++ rest)) = u ++ c :: rest := by
  induction u with
  | nil =>
      have hprefix : ¬ pat <+: c :: (pat ++ rest) := fun h =>
        hpat (List.prefix_nil.mp (prefix_of_prefix_append_cons (u := []) hc h))
      rw [List.nil_append, deleteFirst_cons_skip hprefix,
        deleteFirst_prefix pat rest hpat, List.nil_append]
  | cons x u ih =>
      have hprefix : ¬ pat <+: x :: (u ++ c :: (pat ++ rest)) := fun h =>
        hu (prefix_of_prefix_append_cons (u := x :: u) hc h).isInfix
      have htail : ¬ pat <:+: u := fun h => hu (List.infix_cons h)
      rw [List.cons_append, deleteFirst_cons_skip hprefix, ih htail,
        List.cons_append]

theorem deleteFirst_append_left {pat u : List α} (h : pat <:+: u) (rest : List α) :
    deleteFirst pat (u ++ rest) = deleteFirst pat u ++ rest := by
  induction u with
  | nil =>
      have hpat : pat = [] := List.infix_nil.mp h
      subst hpat
      cases rest <;> simp [deleteFirst]
  | cons x u ih =>
      by_cases hp : pat <+: x :: u
      · have hp' : pat <+: x :: (u ++ rest) := hp.trans (List.prefix_append (x :: u) rest)
        simp only [List.cons_append, deleteFirst, if_pos hp, if_pos hp']
        rw [← List.cons_append, List.drop_append_of_le_length hp.length_le]
      · have hu : pat <:+: u := (List.infix_cons_iff.mp h).resolve_left hp
        have hp' : ¬ pat <+: x :: (u ++ rest) := fun h' =>
          hp (List.prefix_of_prefix_length_le h'
            (by simp)
            (hu.length_le.trans (by simp)))
        rw [List.cons_append, deleteFirst_cons_skip hp',
          deleteFirst_cons_skip hp, ih hu, List.cons_append]

/-- Appending `pat` behind a separator and deleting its first occurrence gives
the stem back exactly when the stem does not hold `pat` itself. -/
theorem deleteFirst_append_cons_self_iff {pat u : List α} {c : α} (hpat : pat ≠ [])
    (hc : c ∉ pat) : deleteFirst pat (u ++ c :: pat) = u ++ [c] ↔ ¬ pat <:+: u := by
  constructor
  · intro h hu
    rw [deleteFirst_append_left hu] at h
    have hlast := congrArg List.getLast? h
    rw [List.getLast?_append_cons, List.getLast?_append_cons, List.getLast?_cons_of_ne_nil hpat,
      List.getLast?_singleton] at hlast
    exact hc (List.mem_of_getLast? hlast)
  · intro hu
    simpa using deleteFirst_append_cons hpat hc hu []

end AutoTestKernel.Occurrence
