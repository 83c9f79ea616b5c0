import Mathlib.Logic.Relation
import Mathlib.Order.WellFounded

/-!
# Runs of a machine

A machine is a relation between the states before and after a step.  Here are
the rules by which facts about single steps become facts about runs, and facts
about single events become facts about histories.  Histories have the latest
event first.
-/

namespace AutoTestKernel.Runs

open Relation

variable {σ ε : Type*} {step : σ → σ → Prop} {I : σ → Prop} {s t : σ}

/-- What every step preserves holds to the end of a run. -/
theorem preserved (hstep : ∀ {s t}, I s → step s t → I t) (hrun : ReflTransGen step s t)
    (hs : I s) : I t := by
  induction hrun with
  | refl => exact hs
  | tail _ hlast ih => exact hstep ih hlast

/-- No run from `s` goes on forever. -/
def Terminates (step : σ → σ → Prop) (s : σ) : Prop := Acc (flip step) s

theorem terminates_of_rank (rank : σ → ℕ) (hstep : ∀ {s t}, I s → step s t → I t)
    (hdrop : ∀ {s t}, I s → step s t → rank t < rank s) (hs : I s) : Terminates step s := by
  induction hrank : rank s using Nat.strong_induction_on generalizing s with
  | _ n ih =>
      refine Acc.intro s fun t ht => ?_
      exact ih (rank t) (hrank ▸ hdrop hs ht) (hstep hs ht) rfl

/-- A run that cannot go on forever comes to a state without a next step. -/
theorem Terminates.exists_last (h : Terminates step s) :
    ∃ t, ReflTransGen step s t ∧ ∀ u, ¬ step t u := by
  induction h with
  | intro s _ ih =>
      by_cases hnext : ∃ t, step s t
      · obtain ⟨t, ht⟩ := hnext
        obtain ⟨u, hrun, hlast⟩ := ih t ht
        exact ⟨u, ReflTransGen.head ht hrun, hlast⟩
      · exact ⟨s, ReflTransGen.refl, fun t ht => hnext ⟨t, ht⟩⟩

/-! ## Scripts -/

/-- The commands of a script with the places where they are run, when every
command moves as it is meant to. -/
def ahead {δ κ : Type*} (moves : δ → κ → δ) : δ → List κ → List (δ × κ)
  | _, [] => []
  | d, c :: rest => (d, c) :: ahead moves (moves d c) rest

variable {δ κ : Type*} {moves : δ → κ → δ} {d : δ} {cs : List κ}

/-- Commands that all begin in one place have not moved between two of them. -/
theorem ahead_of_begins (h : ∀ x ∈ ahead moves d cs, x.1 = d) :
    ahead moves d cs = cs.map (d, ·) := by
  induction cs with
  | nil => rfl
  | cons c rest ih =>
      obtain ⟨-, hrest⟩ := List.forall_mem_cons.mp h
      have hmoves : ahead moves (moves d c) rest = ahead moves d rest := by
        cases rest with
        | nil => rfl
        | cons c' rest => rw [show moves d c = d from hrest _ List.mem_cons_self]
      rw [hmoves] at hrest
      rw [ahead, hmoves, ih hrest, List.map_cons]

theorem ahead_of_moves (h : ∀ c ∈ cs, moves d c = d) : ahead moves d cs = cs.map (d, ·) := by
  induction cs with
  | nil => rfl
  | cons c rest ih =>
      obtain ⟨hc, hrest⟩ := List.forall_mem_cons.mp h
      rw [ahead, hc, ih hrest, List.map_cons]

/-! ## Histories -/

/-- Every event was allowed by the events before it. -/
def Lawful (ok : ε → List ε → Prop) : List ε → Prop
  | [] => True
  | e :: older => ok e older ∧ Lawful ok older

instance decidableLawful {ok : ε → List ε → Prop} [∀ e older, Decidable (ok e older)] :
    (log : List ε) → Decidable (Lawful ok log)
  | [] => isTrue trivial
  | e :: older => @instDecidableAnd (ok e older) (Lawful ok older) _ (decidableLawful older)

@[simp] theorem lawful_cons {ok : ε → List ε → Prop} {e : ε} {older : List ε} :
    Lawful ok (e :: older) ↔ ok e older ∧ Lawful ok older :=
  Iff.rfl

/-! ## Logs -/

/-- The machine has come from `s` to its present state by the events of the log. -/
inductive Logged (step : σ → ε → σ → Prop) (s : σ) : List ε → σ → Prop
  | nil : Logged step s [] s
  | cons {log : List ε} {t u : σ} {e : ε} (hlog : Logged step s log t) (hstep : step t e u) :
      Logged step s (e :: log) u

variable {step : σ → ε → σ → Prop} {log : List ε}

end AutoTestKernel.Runs
