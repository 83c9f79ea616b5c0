import AutoTestKernel.Library.Runs
import Mathlib.Data.List.Basic
import Mathlib.Order.Defs.LinearOrder

/-!
# Evaluation with fuel

An evaluator that may call itself without end is given a bound on the depth of
its calls, and has no result where the bound is too small.  It comes to an end
on an argument when some bound gives a result.  Loops over a list thread a
state through a body that may have no result either.
-/

namespace AutoTestKernel.Fuel

variable {α β ρ σ : Type*} {E : ℕ → α → Option ρ} {a : α} {r : ρ} {n m : ℕ}

/-- A result is the same with more fuel. -/
def Stable (E : ℕ → α → Option ρ) : Prop := ∀ n a r, E n a = some r → E (n + 1) a = some r

def Ends (E : ℕ → α → Option ρ) (a : α) : Prop := ∃ n r, E n a = some r

theorem Stable.mono (hstable : Stable E) (hle : n ≤ m) (h : E n a = some r) :
    E m a = some r := by
  induction hle with
  | refl => exact h
  | step _ ih => exact hstable _ a r ih

theorem Stable.unique (hstable : Stable E) {r' : ρ} (h : E n a = some r) (h' : E m a = some r') :
    r = r' :=
  Option.some.inj <| (hstable.mono (Nat.le_max_left n m) h).symm.trans
    (hstable.mono (Nat.le_max_right n m) h')

/-- One bound serves for finitely many arguments. -/
theorem Stable.ends_all (hstable : Stable E) {xs : List α} (h : ∀ a ∈ xs, Ends E a) :
    ∃ n, ∀ a ∈ xs, ∃ r, E n a = some r := by
  induction xs with
  | nil => exact ⟨0, fun a ha => absurd ha List.not_mem_nil⟩
  | cons x xs ih =>
      obtain ⟨hx, hxs⟩ := List.forall_mem_cons.mp h
      obtain ⟨n, r, hn⟩ := hx
      obtain ⟨m, hm⟩ := ih hxs
      refine ⟨max n m, List.forall_mem_cons.mpr ⟨⟨r, hstable.mono (Nat.le_max_left n m) hn⟩, ?_⟩⟩
      intro a ha
      obtain ⟨r', hr'⟩ := hm a ha
      exact ⟨r', hstable.mono (Nat.le_max_right n m) hr'⟩

/-- What calls itself with the same argument has no result. -/
theorem not_ends_of_call (hzero : E 0 a = none)
    (hcall : ∀ n r, E (n + 1) a = some r → ∃ r', E n a = some r') : ¬ Ends E a := by
  rintro ⟨n, r, h⟩
  induction n generalizing r with
  | zero => simp [hzero] at h
  | succ n ih =>
      obtain ⟨r', hr'⟩ := hcall n r h
      exact ih r' hr'

/-- An evaluation comes to an end exactly when its calls cannot go on forever. -/
theorem ends_iff_terminates {calls : α → α → Prop}
    (hcall : ∀ {n a b r}, E n a = some r → calls a b → ∃ m < n, ∃ r', E m b = some r')
    (hends : ∀ {a}, (∀ b, calls a b → Ends E b) → Ends E a) :
    Ends E a ↔ Runs.Terminates calls a := by
  constructor
  · rintro ⟨n, r, h⟩
    induction n using Nat.strong_induction_on generalizing a r with
    | _ n ih =>
        refine Acc.intro a fun b hb => ?_
        obtain ⟨m, hm, r', hr'⟩ := hcall h hb
        exact ih m hm r' hr'
  · intro h
    induction h with
    | intro a _ ih => exact hends ih

/-! ## Loops -/

variable {body body' : σ → β → Option σ} {xs : List β} {s t : σ}

/-- A body with more results gives a loop with more results. -/
theorem foldlM_of_body (hbody : ∀ s x t, body s x = some t → body' s x = some t)
    (h : xs.foldlM body s = some t) : xs.foldlM body' s = some t := by
  induction xs generalizing s with
  | nil => exact h
  | cons x xs ih =>
      rw [List.foldlM_cons, Option.bind_eq_bind, Option.bind_eq_some_iff] at h
      obtain ⟨u, hu, hrest⟩ := h
      rw [List.foldlM_cons, hbody s x u hu]
      exact ih hrest

theorem foldlM_preserves {I : σ → Prop}
    (hbody : ∀ s x t, x ∈ xs → I s → body s x = some t → I t)
    (h : xs.foldlM body s = some t) (hs : I s) : I t := by
  induction xs generalizing s with
  | nil =>
      obtain rfl := Option.some.inj h
      exact hs
  | cons x xs ih =>
      rw [List.foldlM_cons, Option.bind_eq_bind, Option.bind_eq_some_iff] at h
      obtain ⟨u, hu, hrest⟩ := h
      refine ih (fun s y t hy => hbody s y t (List.mem_cons_of_mem x hy)) hrest ?_
      exact hbody s x u List.mem_cons_self hs hu

end AutoTestKernel.Fuel
