import AutoTestKernel.Library.WorkQueue
import AutoTestKernel.StartTest.Completion
import AutoTestKernel.StartTest.Recovery

/-!
# startTest.sh as a work queue

A test is ready, and `testdone` in its directory says that it is marked; the
two loops are a worker on these items.  What a session does is what the worker
can do, and every way in which the worker can get through its items is the way
of some session.
-/

namespace AutoTestKernel.StartTest

open Text Shell Fs Runs WorkQueue

variable {α : Type*}

/-- What an event is for the worker. -/
inductive Event.Does : Event α → Chore Str → Prop
  | launch (p : Str) (config : TextFile) : Does (.launched p config) (.launch p)
  | mark (p : Str) : Does (.marked [p, p ++ done]) (.mark p)
  | reset (p : Str) : Does (.reset [p ++ done, p]) (.reset p)

/-- The items of a tree. -/
def queueOf (T : FileTree α) : Queue Str where
  ready := (T.find testName).toFinset
  marked := ((T.find doneName).map unmark).toFinset

theorem Event.Does.unique {e : Event α} {d d' : Chore Str} (h : e.Does d) (h' : e.Does d') :
    d = d' := by
  cases h with
  | launch p c => cases h' with | launch => rfl
  | mark p =>
      generalize hargs : [p, p ++ done] = args at h'
      cases h' with | mark p' => rw [(List.cons.inj hargs).1]
  | reset p =>
      generalize hargs : [p ++ done, p] = args at h'
      cases h' with
      | reset p' => rw [(List.cons.inj (List.cons.inj hargs).2).1]

theorem unmark_nodup {T : FileTree α} : ((T.find doneName).map unmark).Nodup := by
  refine (T.find_nodup doneName).map_on fun p hp q hq h => ?_
  obtain ⟨d, rfl⟩ := hasName_doneName.mp (FileTree.mem_find.mp hp).2
  obtain ⟨d', rfl⟩ := hasName_doneName.mp (FileTree.mem_find.mp hq).2
  rw [unmark_donePath, unmark_donePath, testPath_inj] at h
  rw [h]

theorem Pc.eq_checkTests_of_next {found : Bool} {pc : Pc} (hloop : pc.firstLoop = true)
    (h : (pc.next found).firstLoop = false) : pc = .checkTests := by
  cases pc <;> cases found <;> simp_all [Pc.next, Pc.firstLoop]

/-- The state of the worker that a session is in. -/
structure Shadows (s : Session α) (q : Queue Str) : Prop where
  ready : q.ready = (queueOf s.tree).ready
  marked : q.marked = (queueOf s.tree).marked
  inHand : q.inHand.toList = s.inHand
  working : s.pc.firstLoop = true → q.resetting = false
  exhausted : s.pc.firstLoop = false → q.Exhausted

namespace Shadows

variable {more : Str → Option (TextFile → TextFile)} {s t : Session α} {q : Queue Str}

theorem idle (hq : Shadows s q) (hs : s.Coherent) (hnext : s.Next more t)
    (hother : s.pc ≠ .launch ∧ s.pc ≠ .mark ∧ s.pc ≠ .reset) (htree : t.tree = s.tree) :
    Shadows t q where
  ready := htree ▸ hq.ready
  marked := htree ▸ hq.marked
  inHand := hq.inHand.trans (Session.inHand_next hnext hother.1 hother.2.1).symm
  working ht := hq.working (Pc.firstLoop_of_next (hnext.pc_eq ▸ ht))
  exhausted ht := by
    cases hloop : s.pc.firstLoop with
    | false => exact hq.exhausted hloop
    | true =>
        have hnone : s.tree.find testName = [] :=
          (hs.firstLoop_next hnext hloop).resolve_left (by simp [ht])
        have hpc : s.pc = .checkTests := Pc.eq_checkTests_of_next hloop (hnext.pc_eq ▸ ht)
        have hhand := hq.inHand
        simp only [Session.inHand, hpc, Pc.inRun, Bool.false_eq_true, if_false,
          Option.toList_eq_nil_iff] at hhand
        exact ⟨hhand, Or.inr (by simp [hq.ready, queueOf, hnone])⟩

theorem launch (hq : Shadows s q) (hnext : s.Next more t) (hpc : s.pc = .launch)
    (hnow : s.nowTest ∈ s.tree.find testName) (htree : t.tree = s.tree) :
    ∃ r, q.Step (.launch s.nowTest) r ∧ Shadows t r := by
  have ht : t.pc = .running := by rw [hnext.pc_eq, hpc, Pc.next]
  have hphase : q.resetting = false := hq.working (by rw [hpc, Pc.firstLoop])
  have hhand := hq.inHand
  simp only [Session.inHand, hpc, Pc.inRun, Bool.false_eq_true, if_false,
    Option.toList_eq_nil_iff] at hhand
  have hready : s.nowTest ∈ q.ready := by
    rw [hq.ready]
    exact List.mem_toFinset.mpr hnow
  refine ⟨_, .launch _ hready hhand hphase, ?_⟩
  constructor
  · exact htree ▸ hq.ready
  · exact htree ▸ hq.marked
  · simp [Session.inHand, ht, Pc.inRun, hnext.nowTest_eq (by simp [hpc]) (by simp [hpc])]
  · exact fun _ => hphase
  · simp [ht, Pc.firstLoop]

theorem mark (hq : Shadows s q) (hs : s.Coherent) (hnext : s.Next more t) (hpc : s.pc = .mark)
    {d : Str} {c : α} (hnow : s.nowTest = testPath d)
    (hmem : (testPath d, .file c) ∈ s.tree.entries)
    (htree : t.tree = s.tree.moveFile (testPath d) (donePath d)) :
    ∃ r, q.Step (.mark (testPath d)) r ∧ Shadows t r := by
  have ht : t.pc = .countTests := by rw [hnext.pc_eq, hpc, Pc.next]
  have hhand := hq.inHand
  simp only [Session.inHand, hpc, Pc.inRun, if_true, hnow, Option.toList_eq_singleton_iff]
    at hhand
  obtain ⟨htests, hdones⟩ := hs.tidy.find_mark hmem
  have hnodup := htests.nodup_iff.mp (s.tree.find_nodup testName)
  refine ⟨_, .mark _ hhand, ?_⟩
  constructor
  · rw [htree, hq.ready]
    simp only [queueOf, List.toFinset_eq_of_perm _ _ htests, List.toFinset_cons]
    exact Finset.erase_insert fun h => (List.nodup_cons.mp hnodup).1 (List.mem_toFinset.mp h)
  · rw [htree, hq.marked]
    simp [queueOf, List.toFinset_eq_of_perm _ _ (hdones.map unmark)]
  · simp [Session.inHand, ht, Pc.inRun]
  · exact fun _ => hq.working (by rw [hpc, Pc.firstLoop])
  · simp [ht, Pc.firstLoop]

theorem reset (hq : Shadows s q) (hs : s.Coherent) (hnext : s.Next more t)
    (hpc : s.pc = .reset) {d : Str} {c : α} (hmem : (donePath d, .file c) ∈ s.tree.entries)
    (htree : t.tree = s.tree.moveFile (donePath d) (testPath d)) :
    ∃ r, q.Step (.reset (testPath d)) r ∧ Shadows t r := by
  have ht : t.pc = .countDone := by rw [hnext.pc_eq, hpc, Pc.next]
  have hexhausted : q.Exhausted := hq.exhausted (by rw [hpc, Pc.firstLoop])
  obtain ⟨hdones, htests⟩ := hs.tidy.find_reset hmem
  have hdones' := hdones.map unmark
  rw [List.map_cons, unmark_donePath] at hdones'
  have hnodup := hdones'.nodup_iff.mp unmark_nodup
  have hmarked : q.marked = insert (testPath d) (queueOf t.tree).marked := by
    rw [hq.marked, htree, queueOf, queueOf, List.toFinset_eq_of_perm _ _ hdones']
    exact List.toFinset_cons
  refine ⟨_, .reset (testPath d) (hmarked ▸ Finset.mem_insert_self _ _) hexhausted, ?_⟩
  constructor
  · rw [htree, hq.ready]
    simp [queueOf, List.toFinset_eq_of_perm _ _ htests]
  · rw [hmarked]
    refine Finset.erase_insert fun h => (List.nodup_cons.mp hnodup).1 ?_
    rw [htree] at h
    exact List.mem_toFinset.mp h
  · simp [Session.inHand, ht, Pc.inRun, hexhausted.1]
  · simp [ht, Pc.firstLoop]
  · exact fun _ => ⟨hexhausted.1, Or.inl rfl⟩

/-- A command does nothing to the items, or what the worker can do. -/
theorem next (hq : Shadows s q) (hs : s.Coherent) (hnext : s.Next more t) :
    (t.log = s.log ∧ Shadows t q) ∨
      ∃ e d r, t.log = e :: s.log ∧ e.Does d ∧ q.Step d r ∧ Shadows t r := by
  cases hs.move hnext with
  | idle hother htree hlog => exact Or.inl ⟨hlog, hq.idle hs hnext hother htree⟩
  | launch hpc hnow htree hlog =>
      obtain ⟨r, hstep, hr⟩ := hq.launch hnext hpc hnow htree
      exact Or.inr ⟨_, _, r, hlog, .launch _ _, hstep, hr⟩
  | mark hpc d c hnow hmem htree hlog =>
      obtain ⟨r, hstep, hr⟩ := hq.mark hs hnext hpc hnow hmem htree
      exact Or.inr ⟨_, _, r, hlog, testPath_done d ▸ .mark _, hstep, hr⟩
  | reset hpc d c hnow hmem htree hlog =>
      obtain ⟨r, hstep, hr⟩ := hq.reset hs hnext hpc hmem htree
      exact Or.inr ⟨_, _, r, hlog, testPath_done d ▸ .reset _, hstep, hr⟩

theorem restart (hq : Shadows s q) : ∃ r, q.Step .interrupt r ∧ Shadows s.restart r :=
  ⟨_, .interrupt, hq.ready, hq.marked, rfl, fun _ => rfl, by simp [Session.restart, Pc.firstLoop]⟩

end Shadows

/-- A session after one that has come to its end. -/
theorem Shadows.again {s : Session α} {q : Queue Str} (hq : Shadows s q) (hs : s.Coherent)
    (hpc : s.pc = .finished) : ∃ r, q.Step .again r ∧ Shadows s.restart r := by
  have hexhausted : q.Exhausted := hq.exhausted (by rw [hpc, Pc.firstLoop])
  have hready := hs.ready
  simp only [Session.Ready, hpc] at hready
  refine ⟨_, .again ⟨hexhausted, by simp [hq.marked, queueOf, hready]⟩, hq.ready, hq.marked, ?_,
    fun _ => rfl, by simp [Session.restart, Pc.firstLoop]⟩
  simp [Session.restart, Session.inHand, Pc.inRun, hexhausted.1]

/-! ## Killed sessions -/

namespace Session

variable {more : Str → Option (TextFile → TextFile)} {s t : Session α}

/-- The session, the worker and what they have done agree, beginnings apart. -/
structure Follows (T : FileTree α) (k : ℕ) (s : Session α) (L : List (Chore Str))
    (q : Queue Str) : Prop where
  coherent : s.Coherent
  logged : Logged Queue.Step (queueOf T) L q
  shadows : Shadows s q
  does : List.Forall₂ Event.Does s.log (L.filter Chore.isWork)
  kills : L.countP Chore.isInterrupt = k

theorem isWork_of_does {e : Event α} {d : Chore Str} (h : e.Does d) :
    d.isWork = true ∧ d.isInterrupt = false := by
  cases h <;> exact ⟨rfl, rfl⟩

theorem Follows.start {T : FileTree α} (hT : Tidy T) (config : TextFile) :
    Follows T 0 { tree := T, config } [] (queueOf T) :=
  ⟨coherent_start hT config, .nil, ⟨rfl, rfl, rfl, fun _ => rfl, by simp [Pc.firstLoop]⟩, .nil, rfl⟩

theorem Follows.command {T : FileTree α} {k : ℕ} {L : List (Chore Str)} {q : Queue Str}
    (h : s.Follows T k L q) (hnext : Next more s t) : ∃ L' r, t.Follows T k L' r ∧
      ((∀ d ∈ L, d.isWork = true) → ∀ d ∈ L', d.isWork = true) := by
  have hcoherent := h.coherent.next hnext
  rcases h.shadows.next h.coherent hnext with ⟨hlog, hq⟩ | ⟨e, d, r, hlog, hd, hstep, hr⟩
  · exact ⟨L, q, ⟨hcoherent, h.logged, hq, hlog ▸ h.does, h.kills⟩, id⟩
  · obtain ⟨hwork, hno⟩ := isWork_of_does hd
    refine ⟨d :: L, r, ⟨hcoherent, .cons h.logged hstep, hr, ?_, ?_⟩, fun hall => ?_⟩
    · rw [hlog, List.filter_cons_of_pos hwork]
      exact .cons hd h.does
    · rw [List.countP_cons_of_neg (by simp [hno]), h.kills]
    · exact List.forall_mem_cons.mpr ⟨hwork, hall⟩

end Session

namespace Session

variable (more : Str → Option (TextFile → TextFile)) {s t : Session α}

theorem next_step (hpc : s.pc ≠ .finished) {listing : List Str} (h : listing.Perm s.scan) :
    s.Next more (s.step more ∅ listing) :=
  ⟨hpc, ∅, listing, h, rfl⟩

theorem reaches_pickTest (hpc : s.pc = .countTests) (hfind : s.tree.find testName ≠ []) :
    ∃ t, Relation.ReflTransGen (Next more) s t ∧ t.pc = .pickTest ∧ t.tree = s.tree ∧
      t.log = s.log := by
  have hscan : s.scan = s.tree.find testName := by simp only [scan, hpc]
  let counted := s.step more ∅ s.scan
  have hcount : s.Next more counted := next_step more (by simp [hpc]) (List.Perm.refl _)
  obtain ⟨hcheck, htree, hlog, hpos⟩ : counted.pc = .checkTests ∧ counted.tree = s.tree ∧
      counted.log = s.log ∧ 0 < counted.haveTestsNum := by
    simpa [counted, step, effect, hpc, Pc.next, hscan, lineCount_printLines_pos] using hfind
  let checked := counted.step more ∅ counted.scan
  have hchecked : counted.Next more checked := next_step more (by simp [hcheck]) (List.Perm.refl _)
  refine ⟨checked, (Relation.ReflTransGen.single hcount).tail hchecked, ?_, ?_, ?_⟩
  · simp [checked, step, found, hcheck, Pc.next, hpos]
  · simpa [checked, step, effect, hcheck] using htree
  · simpa [checked, step, effect, hcheck] using hlog

theorem reaches_mark {p : Str} (hpc : s.pc = .pickTest) (hp : p ∈ s.tree.find testName)
    (hline : newline ∉ p) : ∃ t config, Relation.ReflTransGen (Next more) s t ∧ t.pc = .mark ∧
      t.nowTest = p ∧ t.tree = s.tree ∧ t.log = .launched p config :: s.log := by
  have hperm : (p :: (s.tree.find testName).erase p).Perm s.scan := by
    simpa only [scan, hpc] using (List.perm_cons_erase hp).symm
  let picked := s.step more ∅ (p :: (s.tree.find testName).erase p)
  have hpick : s.Next more picked := next_step more (by simp [hpc]) hperm
  obtain ⟨hderive, hnow, htree, hlog⟩ : picked.pc = .derivePath ∧ picked.nowTest = p ∧
      picked.tree = s.tree ∧ picked.log = s.log := by
    simp [picked, step, effect, hpc, Pc.next, headLine_printLines hline]
  have hrest : (steps more 6 picked).pc = .mark ∧ (steps more 6 picked).nowTest = p ∧
      (steps more 6 picked).tree = s.tree ∧
      ∃ config, (steps more 6 picked).log = .launched p config :: s.log := by
    simp [steps, step, effect, hderive, Pc.next, hnow, htree, hlog]
  obtain ⟨hmark, hnow', htree', config, hlog'⟩ := hrest
  exact ⟨_, config, .head hpick (reaches_steps more 6 picked), hmark, hnow', htree', hlog'⟩

/-- The first loop can take any test next. -/
theorem Coherent.lap {p : Str} (h : s.Coherent) (hpc : s.pc = .countTests)
    (hp : p ∈ s.tree.find testName) : ∃ t d c config, Relation.ReflTransGen (Next more) s t ∧
      t.pc = .countTests ∧ p = testPath d ∧ (testPath d, .file c) ∈ s.tree.entries ∧
      t.tree = s.tree.moveFile (testPath d) (donePath d) ∧
      t.log = .marked [p, p ++ done] :: .launched p config :: s.log := by
  obtain ⟨t, hrun, hpick, htree, hlog⟩ := reaches_pickTest more hpc
    (List.ne_nil_of_mem hp)
  obtain ⟨u, config, hrun', hmark, hnow, htree', hlog'⟩ := reaches_mark more hpick
    (htree ▸ hp) (h.tidy.newline_notMem_of_test p hp)
  have hreach := hrun.trans hrun'
  have hu : u.Coherent := preserved Coherent.next hreach h
  obtain ⟨v, hv⟩ := exists_next more (s := u) (by simp [hmark])
  cases hu.move hv with
  | idle hother _ _ => exact absurd hmark hother.2.1
  | launch hlaunch _ _ _ => simp [hmark] at hlaunch
  | reset hreset _ _ _ _ _ _ => simp [hmark] at hreset
  | mark _ d c hnow' hmem htree'' hlog'' =>
      have hd : p = testPath d := hnow.symm.trans hnow'
      rw [htree', htree] at hmem htree''
      refine ⟨v, d, c, config, hreach.tail hv, ?_, hd, hmem, htree'', ?_⟩
      · rw [hv.pc_eq, hmark, Pc.next]
      · rw [hlog'', hlog', hlog, hd, testPath_done]

theorem reaches_reset {p : Str} (hpc : s.pc = .countDone) (hp : p ∈ s.tree.find doneName)
    (hline : newline ∉ p) : ∃ t, Relation.ReflTransGen (Next more) s t ∧ t.pc = .reset ∧
      t.nowTest = p ∧ t.tree = s.tree ∧ t.log = s.log := by
  have hscan : s.scan = s.tree.find doneName := by simp only [scan, hpc]
  let counted := s.step more ∅ s.scan
  have hcount : s.Next more counted := next_step more (by simp [hpc]) (List.Perm.refl _)
  obtain ⟨hcheck, htree, hlog, hpos⟩ : counted.pc = .checkDone ∧ counted.tree = s.tree ∧
      counted.log = s.log ∧ 0 < counted.doneTestsNum := by
    simpa [counted, step, effect, hpc, Pc.next, hscan, lineCount_printLines_pos] using
      List.ne_nil_of_mem hp
  let checked := counted.step more ∅ counted.scan
  have hchecked : counted.Next more checked := next_step more (by simp [hcheck]) (List.Perm.refl _)
  obtain ⟨hpick, htree', hlog'⟩ : checked.pc = .pickDone ∧ checked.tree = s.tree ∧
      checked.log = s.log := by
    simp [checked, step, effect, found, hcheck, Pc.next, hpos, htree, hlog]
  have hperm : (p :: (s.tree.find doneName).erase p).Perm checked.scan := by
    simpa only [scan, hpick, htree'] using (List.perm_cons_erase hp).symm
  let picked := checked.step more ∅ (p :: (s.tree.find doneName).erase p)
  have hpicked : checked.Next more picked := next_step more (by simp [hpick]) hperm
  refine ⟨picked, ((Relation.ReflTransGen.single hcount).tail hchecked).tail hpicked, ?_⟩
  simp [picked, step, effect, hpick, Pc.next, headLine_printLines hline, htree', hlog']

/-- The second loop can take any mark next. -/
theorem Coherent.resetLap {d : Str} (h : s.Coherent) (hpc : s.pc = .countDone)
    (hd : donePath d ∈ s.tree.find doneName) : ∃ t c, Relation.ReflTransGen (Next more) s t ∧
      t.pc = .countDone ∧ (donePath d, .file c) ∈ s.tree.entries ∧
      t.tree = s.tree.moveFile (donePath d) (testPath d) ∧
      t.log = .reset [donePath d, testPath d] :: s.log := by
  obtain ⟨t, hrun, hreset, hnow, htree, hlog⟩ := reaches_reset more hpc hd
    (h.tidy.newline_notMem_of_done _ hd)
  have ht : t.Coherent := preserved Coherent.next hrun h
  obtain ⟨u, hu⟩ := exists_next more (s := t) (by simp [hreset])
  cases ht.move hu with
  | idle hother _ _ => exact absurd hreset hother.2.2
  | launch hlaunch _ _ _ => simp [hreset] at hlaunch
  | mark hmark _ _ _ _ _ _ => simp [hreset] at hmark
  | reset _ d' c hnow' hmem htree' hlog' =>
      obtain rfl : d = d' := donePath_injective (hnow.symm.trans hnow')
      rw [htree] at hmem htree'
      refine ⟨u, c, hrun.tail hu, ?_, hmem, htree', ?_⟩
      · rw [hu.pc_eq, hreset, Pc.next]
      · rw [hlog', hlog]

end Session

end AutoTestKernel.StartTest
