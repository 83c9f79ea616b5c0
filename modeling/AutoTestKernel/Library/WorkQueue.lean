import AutoTestKernel.Library.Runs
import Mathlib.Data.Finset.Basic
import Mathlib.Data.Finset.Card

/-!
# A work queue

A worker takes up ready items one at a time and marks each when it has been
worked on.  When no item is ready any more it resets all that are marked, and
when all are reset it may begin again.  A worker that is interrupted forgets
what it was doing and starts over.
-/

namespace AutoTestKernel.WorkQueue

open Runs

variable {ι : Type*}

inductive Chore (ι : Type*)
  | launch (i : ι)
  | mark (i : ι)
  | reset (i : ι)
  | again
  | interrupt
  deriving DecidableEq

@[ext] structure Queue (ι : Type*) where
  ready : Finset ι
  marked : Finset ι
  inHand : Option ι := none
  resetting : Bool := false

/-- What was worked on. -/
def launched (log : List (Chore ι)) : List ι :=
  log.filterMap fun e => match e with
    | .launch i => some i
    | _ => none

namespace Queue

/-- The chores of a worker that is not interrupted, in their order. -/
def campaign (worked back : List ι) : List (Chore ι) :=
  worked.flatMap (fun i => [.launch i, .mark i]) ++ back.map .reset

variable [DecidableEq ι]

/-- Nothing is left to be worked on. -/
def Exhausted (q : Queue ι) : Prop := q.inHand = none ∧ (q.resetting = true ∨ q.ready = ∅)

structure Over (q : Queue ι) : Prop where
  exhausted : q.Exhausted
  marked : q.marked = ∅

inductive Step (q : Queue ι) : Chore ι → Queue ι → Prop
  | launch (i : ι) (hi : i ∈ q.ready) (hhand : q.inHand = none) (hphase : q.resetting = false) :
      Step q (.launch i) { q with inHand := some i }
  | mark (i : ι) (hhand : q.inHand = some i) :
      Step q (.mark i)
        { q with ready := q.ready.erase i, marked := insert i q.marked, inHand := none }
  | reset (i : ι) (hi : i ∈ q.marked) (hphase : q.Exhausted) :
      Step q (.reset i)
        { q with ready := insert i q.ready, marked := q.marked.erase i, resetting := true }
  | again (hover : q.Over) : Step q .again { q with resetting := false }
  | interrupt : Step q .interrupt { q with inHand := none, resetting := false }

/-! ## What is ready and what is marked -/

structure Sound (q : Queue ι) : Prop where
  apart : Disjoint q.ready q.marked
  inHand : ∀ i, q.inHand = some i → i ∈ q.ready ∧ q.resetting = false

variable {q q₀ r : Queue ι} {log : List (Chore ι)} {e : Chore ι}

theorem Sound.step (h : q.Sound) (hstep : q.Step e r) : r.Sound := by
  cases hstep with
  | launch i hi _ hphase =>
      refine ⟨h.apart, fun j hj => ?_⟩
      obtain rfl := Option.some.inj hj
      exact ⟨hi, hphase⟩
  | mark i _ =>
      refine ⟨?_, by simp⟩
      rw [Finset.disjoint_insert_right]
      exact ⟨Finset.notMem_erase i q.ready, h.apart.mono_left (Finset.erase_subset i q.ready)⟩
  | reset i _ hphase =>
      refine ⟨?_, by simp [hphase.1]⟩
      rw [Finset.disjoint_insert_left]
      exact ⟨Finset.notMem_erase i q.marked, h.apart.mono_right (Finset.erase_subset i q.marked)⟩
  | again hover => exact ⟨h.apart, by simp [hover.exhausted.1]⟩
  | interrupt => exact ⟨h.apart, by simp⟩

/-! ## How much work is wasted -/

end Queue

def Chore.isLaunch : Chore ι → Bool
  | .launch _ => true
  | _ => false

def Chore.isMark : Chore ι → Bool
  | .mark _ => true
  | _ => false

def Chore.isReset : Chore ι → Bool
  | .reset _ => true
  | _ => false

def Chore.isInterrupt : Chore ι → Bool
  | .interrupt => true
  | _ => false

/-- It does something to an item. -/
def Chore.isWork (e : Chore ι) : Bool := e.isLaunch || e.isMark || e.isReset

namespace Queue

variable [DecidableEq ι] {q q₀ r : Queue ι} {log : List (Chore ι)} {e : Chore ι}

structure Ledger (q₀ : Queue ι) (log : List (Chore ι)) (q : Queue ι) : Prop where
  sound : q.Sound
  worked : log.countP Chore.isLaunch ≤ log.countP Chore.isMark + log.countP Chore.isInterrupt +
    q.inHand.toList.length
  moved : log.countP Chore.isMark + q.ready.card = log.countP Chore.isReset + q₀.ready.card

theorem Ledger.step (h : q₀.Ledger log q) (hstep : q.Step e r) : q₀.Ledger (e :: log) r := by
  obtain ⟨hsound, hworked, hmoved⟩ := h
  have hone : q.inHand.toList.length ≤ 1 := Option.length_toList_le
  refine ⟨hsound.step hstep, ?_, ?_⟩
  · cases hstep with
    | launch i _ hhand _ =>
        simp only [List.countP_cons, Chore.isLaunch, Chore.isMark, Chore.isInterrupt, hhand,
          Option.toList_none, Option.toList_some, List.length_nil, List.length_singleton,
          if_true, Bool.false_eq_true, if_false] at hworked ⊢
        omega
    | mark i hhand =>
        simp only [List.countP_cons, Chore.isLaunch, Chore.isMark, Chore.isInterrupt, if_true,
          Bool.false_eq_true, if_false]
        omega
    | reset i _ _ =>
        simp only [List.countP_cons, Chore.isLaunch, Chore.isMark, Chore.isInterrupt,
          Bool.false_eq_true, if_false]
        omega
    | again _ =>
        simpa [Chore.isLaunch, Chore.isMark, Chore.isInterrupt] using hworked
    | interrupt =>
        simp only [List.countP_cons, Chore.isLaunch, Chore.isMark, Chore.isInterrupt, if_true,
          Bool.false_eq_true, if_false]
        omega
  · cases hstep with
    | launch i _ _ _ => simpa [Chore.isMark, Chore.isReset] using hmoved
    | mark i hhand =>
        have hcard := Finset.card_erase_add_one (hsound.inHand i hhand).1
        simp only [List.countP_cons, Chore.isMark, Chore.isReset, if_true, Bool.false_eq_true,
          if_false]
        omega
    | reset i hi _ =>
        have hcard := Finset.card_insert_of_notMem (Finset.disjoint_right.mp hsound.apart hi)
        simp only [List.countP_cons, Chore.isMark, Chore.isReset, if_true, Bool.false_eq_true,
          if_false]
        omega
    | again _ | interrupt => simpa [Chore.isMark, Chore.isReset] using hmoved

omit [DecidableEq ι] in
theorem campaign_concat (worked : List ι) (i : ι) :
    campaign (worked ++ [i]) [] = campaign worked [] ++ [.launch i, .mark i] := by
  simp [campaign]

omit [DecidableEq ι] in
theorem campaign_concat_back (worked back : List ι) (i : ι) :
    campaign worked (back ++ [i]) = campaign worked back ++ [.reset i] := by
  simp [campaign]

inductive Progress (q₀ : Queue ι) (log : List (Chore ι)) (q : Queue ι) : Prop
  | working (worked : List ι) (hnodup : worked.Nodup) (hsub : worked.toFinset ⊆ q₀.ready)
      (hlog : log.reverse = campaign worked [] ++ q.inHand.toList.map .launch)
      (hready : q.ready = q₀.ready \ worked.toFinset)
      (hmarked : q.marked = q₀.marked ∪ worked.toFinset) (hphase : q.resetting = false)
  | resetting (worked back : List ι) (hnodup : worked.Nodup)
      (hall : worked.toFinset = q₀.ready) (hback : back.Nodup)
      (hsub : back.toFinset ⊆ q₀.ready ∪ q₀.marked)
      (hlog : log.reverse = campaign worked back) (hready : q.ready = back.toFinset)
      (hmarked : q.marked = (q₀.ready ∪ q₀.marked) \ back.toFinset)
      (hhand : q.inHand = none) (hphase : q.resetting = true)

theorem nodup_append_singleton {l : List ι} {i : ι} (hl : l.Nodup) (hi : i ∉ l) :
    (l ++ [i]).Nodup ∧ (l ++ [i]).toFinset = insert i l.toFinset := by
  refine ⟨List.concat_eq_append ▸ hl.concat hi, ?_⟩
  ext j
  simp

theorem Progress.mark {worked : List ι} (hnodup : worked.Nodup)
    (hsub : worked.toFinset ⊆ q₀.ready)
    (hlog : log.reverse = campaign worked [] ++ q.inHand.toList.map .launch)
    (hready : q.ready = q₀.ready \ worked.toFinset)
    (hmarked : q.marked = q₀.marked ∪ worked.toFinset) (hphase : q.resetting = false) {i : ι}
    (hhand : q.inHand = some i) (hi : i ∈ q.ready) :
    q₀.Progress (.mark i :: log)
      { q with ready := q.ready.erase i, marked := insert i q.marked, inHand := none } := by
  rw [hready, Finset.mem_sdiff, List.mem_toFinset] at hi
  obtain ⟨hnodup', hconcat⟩ := nodup_append_singleton hnodup hi.2
  refine .working (worked ++ [i]) hnodup' ?_ ?_ ?_ ?_ hphase
  · rw [hconcat]
    exact Finset.insert_subset hi.1 hsub
  · rw [List.reverse_cons, hlog, hhand, campaign_concat]
    simp
  · rw [hconcat, hready, Finset.sdiff_insert]
  · rw [hconcat, hmarked, Finset.union_insert]

theorem Progress.reset {worked back : List ι} (hnodup : worked.Nodup)
    (hall : worked.toFinset = q₀.ready) (hback : back.Nodup)
    (hsub : back.toFinset ⊆ q₀.ready ∪ q₀.marked)
    (hlog : log.reverse = campaign worked back) (hready : q.ready = back.toFinset)
    (hmarked : q.marked = (q₀.ready ∪ q₀.marked) \ back.toFinset) (hhand : q.inHand = none)
    {i : ι} (hi : i ∈ q.marked) :
    q₀.Progress (.reset i :: log)
      { q with ready := insert i q.ready, marked := q.marked.erase i, resetting := true } := by
  rw [hmarked, Finset.mem_sdiff, List.mem_toFinset] at hi
  obtain ⟨hback', hconcat⟩ := nodup_append_singleton hback hi.2
  refine .resetting worked (back ++ [i]) hnodup hall hback' ?_ ?_ ?_ ?_ hhand rfl
  · rw [hconcat]
    exact Finset.insert_subset hi.1 hsub
  · rw [List.reverse_cons, hlog, campaign_concat_back]
  · rw [hconcat, hready]
  · rw [hconcat, hmarked, Finset.sdiff_insert]

theorem Progress.step (h : q₀.Progress log q) (hsound : q.Sound) (hstep : q.Step e r)
    (he : e.isWork = true) : q₀.Progress (e :: log) r := by
  cases h with
  | working worked hnodup hsub hlog hready hmarked hphase =>
      cases hstep with
      | launch i _ hhand _ =>
          refine .working worked hnodup hsub ?_ hready hmarked hphase
          rw [List.reverse_cons, hlog, hhand]
          simp
      | mark i hhand =>
          exact .mark hnodup hsub hlog hready hmarked hphase hhand (hsound.inHand i hhand).1
      | reset i hi hexhausted =>
          -- Here the worker goes over to resetting.
          have hnone : q.ready = ∅ := hexhausted.2.resolve_left (by simp [hphase])
          have hall : worked.toFinset = q₀.ready :=
            hsub.antisymm (Finset.sdiff_eq_empty_iff_subset.mp (hready ▸ hnone))
          refine Progress.reset hnodup hall List.nodup_nil (by simp) ?_ hnone ?_ hexhausted.1 hi
          · rw [hlog, hexhausted.1]
            simp
          · rw [hmarked, hall, Finset.union_comm]
            simp
      | again _ | interrupt => cases he
  | resetting worked back hnodup hall hback hsub hlog hready hmarked hhand hphase =>
      cases hstep with
      | launch i _ _ hworking => simp [hphase] at hworking
      | mark i hhand' => simp [hhand] at hhand'
      | reset i hi _ => exact Progress.reset hnodup hall hback hsub hlog hready hmarked hhand hi
      | again _ | interrupt => cases he

end Queue

end AutoTestKernel.WorkQueue
