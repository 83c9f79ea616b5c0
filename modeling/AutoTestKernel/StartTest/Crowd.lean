import AutoTestKernel.StartTest.Refinement

/-!
# Several sessions at a time

Nothing keeps startTest.sh from being started while another one is running on
the same tests.  The scripts share the files and nothing else, and each has its
own idea of which test it is working on, which another one may have renamed in
the meantime.  Such a rename fails and does no harm.
-/

namespace AutoTestKernel.StartTest

open Text Shell Fs Runs

variable {α : Type*}

/-- The variables of one script. -/
structure Vars where
  pc : Pc := .countTests
  haveTestsNum : ℕ := 0
  doneTestsNum : ℕ := 0
  nowTest : Str := []
  nowTestPath : Str := []

def Session.vars (s : Session α) : Vars where
  pc := s.pc
  haveTestsNum := s.haveTestsNum
  doneTestsNum := s.doneTestsNum
  nowTest := s.nowTest
  nowTestPath := s.nowTestPath

/-- The files, the scripts at work or finished, and what has happened so far. -/
structure Crowd (α : Type*) where
  tree : FileTree α
  config : TextFile
  scripts : List Vars := []
  log : List (Event α) := []

namespace Crowd

/-- The world as one of the scripts sees it. -/
def view (w : Crowd α) (v : Vars) : Session α where
  tree := w.tree
  config := w.config
  pc := v.pc
  haveTestsNum := v.haveTestsNum
  doneTestsNum := v.doneTestsNum
  nowTest := v.nowTest
  nowTestPath := v.nowTestPath
  log := w.log

/-- The world after a script among others has come to `t`. -/
def after (t : Session α) (earlier later : List Vars) : Crowd α where
  tree := t.tree
  config := t.config
  scripts := earlier ++ t.vars :: later
  log := t.log

/-- One of the scripts runs a command, or another one is started. -/
inductive Next (more : Str → Option (TextFile → TextFile)) (w : Crowd α) : Crowd α → Prop
  | command (earlier later : List Vars) (v : Vars) (t : Session α)
      (hscripts : w.scripts = earlier ++ v :: later) (hnext : (w.view v).Next more t) :
      Next more w (after t earlier later)
  | start : Next more w { w with scripts := {} :: w.scripts }

/-- One of the scripts may be killed as well. -/
inductive NextOrKill (more : Str → Option (TextFile → TextFile)) (w : Crowd α) : Crowd α → Prop
  | next {w' : Crowd α} (hnext : Next more w w') : NextOrKill more w w'
  | kill (earlier later : List Vars) (v : Vars) (hscripts : w.scripts = earlier ++ v :: later)
      (hpc : v.pc ≠ .finished) : NextOrKill more w { w with scripts := earlier ++ later }

end Crowd

/-! ## What a script can rely on -/

theorem markArgs_nil (fs : Finset Str) : markArgs fs [] = [done] := by
  rw [markArgs, expand_nil]
  rfl

theorem resetArgs_nil (fs : Finset Str) : resetArgs fs [] = [hahaha] := by
  have hexpand : expand fs hahaha = [hahaha] :=
    expand_of_sole (by decide) (by decide) fun hp => absurd hp (by decide)
  have hstripped : stripped "donehahaha".toList fs [] = hahaha := by
    rw [stripped_of_expand (by decide) hexpand]
    decide
  rw [resetArgs, expand_nil, hstripped, hexpand]
  rfl

/-- The directory has a test, marked or not. -/
def HasTest (T : FileTree α) (d : Str) : Prop :=
  ∃ c, (testPath d, .file c) ∈ T.entries ∨ (donePath d, .file c) ∈ T.entries

section HasTest

variable {T : FileTree α} {d d' src dst : Str} {c : α}

theorem Tidy.safe_of_hasTest (h : Tidy T) (hd : HasTest T d) : SafeDirectory d := by
  obtain ⟨c, hc⟩ := hd
  exact h.safe d (hc.imp (fun h => FileTree.mem_keys_iff.mpr ⟨_, h⟩)
    fun h => FileTree.mem_keys_iff.mpr ⟨_, h⟩)

/-- Where the test is not marked, it is a file. -/
theorem Tidy.file_of_hasTest (h : Tidy T) (hd : HasTest T d) (hkey : testPath d ∈ T.keys) :
    ∃ c, (testPath d, .file c) ∈ T.entries := by
  obtain ⟨c, hc⟩ := hd
  refine ⟨c, hc.resolve_right fun hdone => ?_⟩
  exact h.apart d hkey (FileTree.mem_keys_iff.mpr ⟨_, hdone⟩)

theorem HasTest.moveFile (hd : HasTest T d') (hr : Renames d src dst)
    (hmem : (src, .file c) ∈ T.entries) : HasTest (T.moveFile src dst) d' := by
  by_cases heq : d' = d
  · refine ⟨c, ?_⟩
    rw [heq, FileTree.mem_moveFile hr.ne, FileTree.mem_moveFile hr.ne]
    cases hr with
    | mark => exact Or.inr (Or.inl ⟨rfl, hmem⟩)
    | reset => exact Or.inl (Or.inl ⟨rfl, hmem⟩)
  · obtain ⟨c', hc'⟩ := hd
    refine ⟨c', ?_⟩
    rw [FileTree.mem_moveFile hr.ne, FileTree.mem_moveFile hr.ne]
    cases hr with
    | mark => simpa [heq] using hc'
    | reset => simpa [heq] using hc'

end HasTest

/-- The name of a test, or nothing when another script was quicker. -/
def Vars.Named (T : FileTree α) (v : Vars) : Prop :=
  match v.pc with
  | .derivePath | .configure | .spawnTimer | .launch | .running | .settle | .mark =>
      v.nowTest = [] ∨ ∃ d, HasTest T d ∧ v.nowTest = testPath d
  | .reset => v.nowTest = [] ∨ ∃ d, HasTest T d ∧ v.nowTest = donePath d
  | _ => True

theorem Vars.Named.mono {T T' : FileTree α} {v : Vars} (h : v.Named T)
    (hT : ∀ d, HasTest T d → HasTest T' d) : v.Named T' := by
  have hkept : ∀ f : Str → Str, (v.nowTest = [] ∨ ∃ d, HasTest T d ∧ v.nowTest = f d) →
      v.nowTest = [] ∨ ∃ d, HasTest T' d ∧ v.nowTest = f d :=
    fun f hf => hf.imp_right fun ⟨d, hd, hnow⟩ => ⟨d, hT d hd, hnow⟩
  cases hpc : v.pc with
  | countTests | checkTests | pickTest | countDone | checkDone | pickDone | finished =>
      simp only [Named, hpc]
  | _ =>
      simp only [Named, hpc] at h ⊢
      exact hkept _ h

namespace Session

variable {more : Str → Option (TextFile → TextFile)} {s t : Session α}

/-- What a command does to the tests when others may have renamed them. -/
inductive Shift (s t : Session α) : Prop
  | still (htree : t.tree = s.tree)
  | mark (hpc : s.pc = .mark) (d : Str) (c : α) (hnow : s.nowTest = testPath d)
      (hmem : (testPath d, .file c) ∈ s.tree.entries)
      (htree : t.tree = s.tree.moveFile (testPath d) (donePath d))
  | reset (hpc : s.pc = .reset) (d : Str) (c : α)
      (hmem : (donePath d, .file c) ∈ s.tree.entries)
      (htree : t.tree = s.tree.moveFile (donePath d) (testPath d))

theorem shift_mark (htidy : Tidy s.tree) (hpc : s.pc = .mark) (hnamed : s.vars.Named s.tree)
    (hnext : s.Next more t) : Shift s t := by
  obtain ⟨-, outside, listing, -, rfl⟩ := hnext
  have htree : (s.step more outside listing).tree =
      s.tree.mv (markArgs (s.existing outside) s.nowTest) := by
    simp only [step, effect, hpc]
  simp only [Vars.Named, vars, hpc] at hnamed
  rcases hnamed with hnil | ⟨d, hd, hnow⟩
  · apply Shift.still
    rw [htree, hnil, markArgs_nil, FileTree.mv_singleton]
  · have hsafe := htidy.safe_of_hasTest hd
    by_cases hkey : testPath d ∈ s.tree.keys
    · obtain ⟨c, hc⟩ := htidy.file_of_hasTest hd hkey
      refine .mark hpc d c hnow hc ?_
      rw [htree, hnow, hsafe.mv_markArgs hc (htidy.isDir_donePath d)]
    · apply Shift.still
      rw [htree, hnow, hsafe.markArgs_eq, FileTree.mv_of_notMem hkey]

theorem shift_reset (htidy : Tidy s.tree) (hpc : s.pc = .reset) (hnamed : s.vars.Named s.tree)
    (hnext : s.Next more t) : Shift s t := by
  obtain ⟨-, outside, listing, -, rfl⟩ := hnext
  have htree : (s.step more outside listing).tree =
      s.tree.mv (resetArgs (s.existing outside) s.nowTest) := by
    simp only [step, effect, hpc]
  simp only [Vars.Named, vars, hpc] at hnamed
  rcases hnamed with hnil | ⟨d, hd, hnow⟩
  · apply Shift.still
    rw [htree, hnil, resetArgs_nil, FileTree.mv_singleton]
  · have hsafe := htidy.safe_of_hasTest hd
    by_cases hkey : donePath d ∈ s.tree.keys
    · obtain ⟨n, hn⟩ := FileTree.mem_keys_iff.mp hkey
      cases n with
      | dir => exact absurd (htidy.done_file d .dir hn) (by simp [Node.isFile])
      | file c =>
          refine .reset hpc d c hn ?_
          rw [htree, hnow, hsafe.mv_resetArgs hn (htidy.isDir_testPath hkey)]
    · apply Shift.still
      rw [htree, hnow, hsafe.resetArgs_eq, FileTree.mv_of_notMem hkey]

theorem Next.shift (hnext : s.Next more t) (htidy : Tidy s.tree)
    (hnamed : s.vars.Named s.tree) : Shift s t := by
  cases hpc : s.pc with
  | mark => exact shift_mark htidy hpc hnamed hnext
  | reset => exact shift_reset htidy hpc hnamed hnext
  | _ =>
      obtain ⟨-, outside, listing, -, rfl⟩ := hnext
      apply Shift.still
      simp only [step, effect, hpc]

theorem Next.log_subset (hnext : s.Next more t) : s.log ⊆ t.log := by
  obtain ⟨-, outside, listing, -, rfl⟩ := hnext
  cases hpc : s.pc with
  | launch | mark | reset =>
      simp only [step, effect, hpc]
      exact List.subset_cons_self _ _
  | _ =>
      simp only [step, effect, hpc]
      exact List.Subset.refl _

theorem Shift.tidy (h : Shift s t) (htidy : Tidy s.tree) : Tidy t.tree := by
  cases h with
  | still htree => exact htree ▸ htidy
  | mark _ d c _ hmem htree => exact htree ▸ htidy.moveFile .mark hmem
  | reset _ d c hmem htree => exact htree ▸ htidy.moveFile .reset hmem

theorem Shift.same (h : Shift s t) (htidy : Tidy s.tree) :
    t.tree.entries.map (fun e => (unmark e.1, e.2)) =
      s.tree.entries.map fun e => (unmark e.1, e.2) := by
  cases h with
  | still htree => rw [htree]
  | mark _ d c _ hmem htree =>
      rw [htree, htidy.unmarked_moveFile .mark (FileTree.mem_keys_iff.mpr ⟨_, hmem⟩)]
  | reset _ d c hmem htree =>
      rw [htree, htidy.unmarked_moveFile .reset (FileTree.mem_keys_iff.mpr ⟨_, hmem⟩)]

theorem Shift.hasTest (h : Shift s t) {d : Str}
    (hd : HasTest s.tree d) : HasTest t.tree d := by
  cases h with
  | still htree => exact htree ▸ hd
  | mark _ d' c _ hmem htree => exact htree ▸ hd.moveFile .mark hmem
  | reset _ d' c hmem htree => exact htree ▸ hd.moveFile .reset hmem

theorem headLine_of_scan {listing ps : List Str} (hperm : listing.Perm ps)
    (hline : ∀ p ∈ ps, newline ∉ p) :
    headLine (printLines listing) = [] ∨ headLine (printLines listing) ∈ ps := by
  cases hps : ps with
  | nil =>
      left
      rw [List.Perm.eq_nil (hps ▸ hperm : listing.Perm [])]
      rfl
  | cons p rest => exact Or.inr (hps ▸ headLine_of_perm hperm hline (by simp [hps]))

theorem Next.named (hnext : s.Next more t) (htidy : Tidy s.tree)
    (hnamed : s.vars.Named s.tree) : t.vars.Named t.tree := by
  have htests := htidy.newline_notMem_of_test
  have hdones := htidy.newline_notMem_of_done
  obtain ⟨-, outside, listing, hperm, rfl⟩ := hnext
  cases hpc : s.pc with
  | pickTest =>
      simp only [scan, hpc] at hperm
      simp only [Vars.Named, vars, step, effect, hpc, Pc.next]
      refine (headLine_of_scan hperm htests).imp_right fun hfind => ?_
      obtain ⟨d, c, hd, -, hmem⟩ := htidy.test_of_mem_find hfind
      exact ⟨d, ⟨c, Or.inl hmem⟩, hd⟩
  | pickDone =>
      simp only [scan, hpc] at hperm
      simp only [Vars.Named, vars, step, effect, hpc, Pc.next]
      refine (headLine_of_scan hperm hdones).imp_right fun hfind => ?_
      obtain ⟨d, c, hd, -, hmem⟩ := htidy.done_of_mem_find hfind
      exact ⟨d, ⟨c, Or.inr hmem⟩, hd⟩
  | checkTests | checkDone =>
      cases hfound : s.found <;> simp [Vars.Named, vars, step, hpc, hfound, Pc.next]
  | mark | reset | countTests | countDone | finished =>
      simp only [Vars.Named, vars, step, hpc, Pc.next]
  | _ =>
      simp only [Vars.Named, vars, hpc] at hnamed
      simpa only [Vars.Named, vars, step, effect, hpc, Pc.next] using hnamed

theorem Next.launched (hnext : s.Next more t)
    (h : s.pc.inRun = true → ∃ c, .launched s.nowTest c ∈ s.log) (ht : t.pc.inRun = true) :
    ∃ c, .launched t.nowTest c ∈ t.log := by
  obtain ⟨hfinished, outside, listing, -, rfl⟩ := hnext
  rcases Pc.inRun_of_next ht with hpc | hpc | hpc
  · exact ⟨s.config, by simp [step, effect, hpc]⟩
  · simpa only [step, effect, hpc] using h (by rw [hpc]; rfl)
  · simpa only [step, effect, hpc] using h (by rw [hpc]; rfl)

end Session

/-- The script has seen a test, or has still to look for one. -/
def Vars.Searching (v : Vars) : Prop :=
  v.pc.firstLoop = true ∧ (v.pc = .checkTests → 0 < v.haveTestsNum)

theorem Session.Next.searching {more : Str → Option (TextFile → TextFile)} {s t : Session α}
    (hnext : s.Next more t) (hfind : s.tree.find testName ≠ []) (h : s.vars.Searching) :
    t.vars.Searching := by
  obtain ⟨hloop, hseen⟩ := h
  obtain ⟨-, outside, listing, hperm, rfl⟩ := hnext
  simp only [Session.vars] at hloop hseen
  cases hpc : s.pc with
  | countTests =>
      simp only [Session.scan, hpc] at hperm
      have hne : listing ≠ [] := fun hnil => hfind (hnil ▸ hperm).symm.eq_nil
      simpa [Vars.Searching, Session.vars, Session.step, Session.effect, hpc, Pc.next,
        Pc.firstLoop] using lineCount_printLines_pos.mpr hne
  | checkTests =>
      have hpos := hseen hpc
      simp [Vars.Searching, Session.vars, Session.step, Session.found, hpc, hpos, Pc.next,
        Pc.firstLoop]
  | countDone | checkDone | pickDone | reset | finished => simp [hpc, Pc.firstLoop] at hloop
  | _ =>
      simp [Vars.Searching, Session.vars, Session.step, hpc, Pc.next, Pc.firstLoop]

namespace Crowd

variable {more : Str → Option (TextFile → TextFile)} {T : FileTree α} {w w' : Crowd α}

@[simp] theorem vars_view (w : Crowd α) (v : Vars) : (w.view v).vars = v := rfl

structure Aware (w : Crowd α) (v : Vars) : Prop where
  named : v.Named w.tree
  launched : v.pc.inRun = true → ∃ c, .launched v.nowTest c ∈ w.log

/-- The tree is the first one up to its marks, and a test that has not been
launched keeps every script in the first loop. -/
structure Sound (T : FileTree α) (w : Crowd α) : Prop where
  tidy : Tidy w.tree
  same : w.tree.entries.map (fun e => (unmark e.1, e.2)) =
    T.entries.map fun e => (unmark e.1, e.2)
  aware : ∀ v ∈ w.scripts, w.Aware v
  launched : ∀ p ∈ T.find testName, (∃ c, .launched p c ∈ w.log) ∨
    (p ∈ w.tree.find testName ∧ ∀ v ∈ w.scripts, v.Searching)

section Command

variable {earlier later : List Vars} {v : Vars} {t : Session α}

theorem mem_scripts (hscripts : w.scripts = earlier ++ v :: later) : v ∈ w.scripts := by
  simp [hscripts]

theorem mem_of_mem_others (hscripts : w.scripts = earlier ++ v :: later) {v' : Vars}
    (hv' : v' ∈ earlier ++ later) : v' ∈ w.scripts := by
  rw [hscripts]
  simp only [List.mem_append, List.mem_cons] at hv' ⊢
  tauto

theorem mem_after (hscripts : w.scripts = earlier ++ v :: later) {v' : Vars}
    (hv' : v' ∈ (after t earlier later).scripts) : v' = t.vars ∨ v' ∈ w.scripts := by
  rw [hscripts]
  simp only [after, List.mem_append, List.mem_cons] at hv' ⊢
  tauto

theorem Sound.shift (h : Sound T w) (hscripts : w.scripts = earlier ++ v :: later)
    (hnext : (w.view v).Next more t) : (w.view v).Shift t :=
  hnext.shift h.tidy (h.aware v (mem_scripts hscripts)).named

theorem Sound.aware_after (h : Sound T w) (hscripts : w.scripts = earlier ++ v :: later)
    (hnext : (w.view v).Next more t) :
    ∀ v' ∈ (after t earlier later).scripts, (after t earlier later).Aware v' := by
  have hv := h.aware v (mem_scripts hscripts)
  have hshift := h.shift hscripts hnext
  intro v' hv'
  rcases mem_after hscripts hv' with rfl | hold
  · exact ⟨hnext.named h.tidy hv.named, hnext.launched hv.launched⟩
  · have hold := h.aware v' hold
    exact ⟨hold.named.mono fun d hd => hshift.hasTest hd,
      fun hpc => (hold.launched hpc).imp fun _ hc => hnext.log_subset hc⟩

theorem Sound.launched_after (h : Sound T w) (hscripts : w.scripts = earlier ++ v :: later)
    (hnext : (w.view v).Next more t) {p : Str} (hp : p ∈ T.find testName) :
    (∃ c, .launched p c ∈ (after t earlier later).log) ∨
      (p ∈ (after t earlier later).tree.find testName ∧
        ∀ v' ∈ (after t earlier later).scripts, v'.Searching) := by
  have hmono : (∃ c, .launched p c ∈ w.log) → ∃ c, .launched p c ∈ t.log :=
    fun hc => hc.imp fun _ hc => hnext.log_subset hc
  have hv := mem_scripts hscripts
  rcases h.launched p hp with hlaunched | ⟨hfind, hall⟩
  · exact Or.inl (hmono hlaunched)
  · have hsearching : ∀ v' ∈ (after t earlier later).scripts, v'.Searching := by
      intro v' hv'
      rcases mem_after hscripts hv' with rfl | hold
      · exact hnext.searching (List.ne_nil_of_mem hfind) (hall v hv)
      · exact hall v' hold
    cases h.shift hscripts hnext with
    | still htree =>
        have hfind' : p ∈ t.tree.find testName := htree ▸ hfind
        exact Or.inr ⟨hfind', hsearching⟩
    | mark hpc d c hnow hmem htree =>
        rcases List.mem_cons.mp ((h.tidy.find_mark hmem).1.mem_iff.mp hfind) with rfl | hrest
        · -- The script that marks the test has launched it.
          left
          apply hmono
          rw [← hnow]
          exact (h.aware v hv).launched (by rw [show v.pc = .mark from hpc]; rfl)
        · have hfind' : p ∈ t.tree.find testName := htree ▸ hrest
          exact Or.inr ⟨hfind', hsearching⟩
    | reset hpc d c hmem htree =>
        have hloop := (hall v hv).1
        rw [show v.pc = .reset from hpc] at hloop
        cases hloop

theorem Sound.command (h : Sound T w) (hscripts : w.scripts = earlier ++ v :: later)
    (hnext : (w.view v).Next more t) : Sound T (after t earlier later) where
  tidy := (h.shift hscripts hnext).tidy h.tidy
  same := ((h.shift hscripts hnext).same h.tidy).trans h.same
  aware := h.aware_after hscripts hnext
  launched _ hp := h.launched_after hscripts hnext hp

end Command

theorem Sound.start (h : Sound T w) : Sound T { w with scripts := {} :: w.scripts } where
  tidy := h.tidy
  same := h.same
  aware := List.forall_mem_cons.mpr ⟨⟨trivial, fun hpc => by simp [Pc.inRun] at hpc⟩,
    fun v hv => ⟨(h.aware v hv).named, (h.aware v hv).launched⟩⟩
  launched p hp := (h.launched p hp).imp_right fun hfind =>
    ⟨hfind.1, List.forall_mem_cons.mpr ⟨⟨rfl, fun hpc => by simp at hpc⟩, hfind.2⟩⟩

theorem Sound.kill {earlier later : List Vars} {v : Vars} (h : Sound T w)
    (hscripts : w.scripts = earlier ++ v :: later) :
    Sound T { w with scripts := earlier ++ later } := by
  have hsub : ∀ v' ∈ earlier ++ later, v' ∈ w.scripts := fun v' => mem_of_mem_others hscripts
  refine ⟨h.tidy, h.same, fun v' hv' => ?_, fun p hp => ?_⟩
  · exact ⟨(h.aware v' (hsub v' hv')).named, (h.aware v' (hsub v' hv')).launched⟩
  · exact (h.launched p hp).imp_right fun hfind =>
      ⟨hfind.1, fun v' hv' => hfind.2 v' (hsub v' hv')⟩

theorem Sound.next (h : Sound T w) (hnext : w.Next more w') : Sound T w' := by
  cases hnext with
  | command earlier later v t hscripts hnext => exact h.command hscripts hnext
  | start => exact h.start

theorem Sound.nextOrKill (h : Sound T w) (hnext : w.NextOrKill more w') : Sound T w' := by
  cases hnext with
  | next hnext => exact h.next hnext
  | kill earlier later v hscripts _ => exact h.kill hscripts

theorem sound_start (hT : Tidy T) (config : TextFile) : Sound T { tree := T, config } where
  tidy := hT
  same := rfl
  aware := by simp
  launched p hp := Or.inr ⟨hp, by simp⟩

end Crowd

/-! ## Marks that are left -/

/-- The script has still to reset the marks there are. -/
def Vars.Clearing (v : Vars) : Prop :=
  match v.pc with
  | .checkDone => 0 < v.doneTestsNum
  | .finished => False
  | _ => True

theorem Session.Next.clearing {more : Str → Option (TextFile → TextFile)} {s t : Session α}
    (hnext : s.Next more t) (hfind : s.tree.find doneName ≠ []) (h : s.vars.Clearing) :
    t.vars.Clearing := by
  obtain ⟨hfinished, outside, listing, hperm, rfl⟩ := hnext
  cases hpc : s.pc with
  | countDone =>
      simp only [Session.scan, hpc] at hperm
      have hne : listing ≠ [] := fun hnil => hfind (hnil ▸ hperm).symm.eq_nil
      simpa [Vars.Clearing, Session.vars, Session.step, Session.effect, hpc, Pc.next] using
        lineCount_printLines_pos.mpr hne
  | checkDone =>
      have hpos : 0 < s.doneTestsNum := by simpa [Vars.Clearing, Session.vars, hpc] using h
      simp [Vars.Clearing, Session.vars, Session.step, Session.found, hpc, hpos, Pc.next]
  | checkTests =>
      cases hfound : s.found <;>
        simp [Vars.Clearing, Session.vars, Session.step, hpc, hfound, Pc.next]
  | finished => exact absurd hpc hfinished
  | _ => simp [Vars.Clearing, Session.vars, Session.step, hpc, Pc.next]

namespace Crowd

variable {more : Str → Option (TextFile → TextFile)} {T : FileTree α} {w w' : Crowd α}

/-- Where there is a mark, some script has still to reset it. -/
def Attended (w : Crowd α) : Prop := w.tree.find doneName ≠ [] → ∃ v ∈ w.scripts, v.Clearing

theorem Attended.command {earlier later : List Vars} {v : Vars} {t : Session α}
    (hsound : Sound T w) (h : w.Attended) (hscripts : w.scripts = earlier ++ v :: later)
    (hnext : (w.view v).Next more t) : (after t earlier later).Attended := by
  intro hfind
  have hself : t.vars.Clearing →
      ∃ v' ∈ (after t earlier later).scripts, v'.Clearing := fun hclearing =>
    ⟨t.vars, by simp [after], hclearing⟩
  have hpc := hnext.pc_eq
  cases hsound.shift hscripts hnext with
  | still htree =>
      have hfind' : w.tree.find doneName ≠ [] := by
        change t.tree.find doneName ≠ [] at hfind
        rwa [htree] at hfind
      obtain ⟨v', hv', hclearing⟩ := h hfind'
      rw [hscripts, List.mem_append, List.mem_cons] at hv'
      rcases hv' with hearlier | rfl | hlater
      · exact ⟨v', by simp [after, hearlier], hclearing⟩
      · exact hself (hnext.clearing hfind' hclearing)
      · exact ⟨v', by simp [after, hlater], hclearing⟩
  | mark hmark _ _ _ _ _ =>
      apply hself
      rw [hmark, Pc.next] at hpc
      simp [Vars.Clearing, Session.vars, hpc]
  | reset hreset _ _ _ _ =>
      apply hself
      rw [hreset, Pc.next] at hpc
      simp [Vars.Clearing, Session.vars, hpc]

theorem Attended.next (hsound : Sound T w) (h : w.Attended) (hnext : w.Next more w') :
    w'.Attended := by
  cases hnext with
  | command earlier later v t hscripts hnext => exact Attended.command hsound h hscripts hnext
  | start => exact fun _ => ⟨{}, List.mem_cons_self, trivial⟩

end Crowd

namespace Crowd

variable {more : Str → Option (TextFile → TextFile)} {w : Crowd α}

/-- The others wait while one of the scripts runs. -/
theorem reaches_after (earlier later : List Vars) {v : Vars} {t : Session α}
    (hscripts : w.scripts = earlier ++ v :: later)
    (hrun : Relation.ReflTransGen (Session.Next more) (w.view v) t) :
    Relation.ReflTransGen (Next more) w (after t earlier later) := by
  induction hrun with
  | refl =>
      have hsame : after (w.view v) earlier later = w := by
        rw [after, vars_view, ← hscripts]
        rfl
      rw [hsame]
  | tail _ hnext ih => exact ih.tail (.command earlier later _ _ rfl hnext)

theorem reaches_steps (earlier : List Vars) (v : Vars) (later : List Vars)
    (hscripts : w.scripts = earlier ++ v :: later) (n : ℕ) :
    Relation.ReflTransGen (Next more) w (after (Session.steps more n (w.view v)) earlier later) :=
  reaches_after earlier later hscripts (Session.reaches_steps more n _)

end Crowd

namespace Crossing

/-- The second script has run S2E on a test and is about to mark it. -/
def second : Session ℕ :=
  Session.steps (fun _ => none) 9
    (Crowd.view { tree := smallTree, config := hostFiles, scripts := [{}, {}] } {})

/-- So has the first one, and it was quicker. -/
def first : Session ℕ :=
  Session.steps (fun _ => none) 10 ((Crowd.after second [{}] []).view {})

/-- The second one has tried to mark the test as well. -/
def outrun : Session ℕ :=
  Session.steps (fun _ => none) 1 ((Crowd.after first [] [second.vars]).view second.vars)

def crossed : Crowd ℕ := Crowd.after outrun [first.vars] []

end Crossing

namespace Crossing

/-- Both are killed. -/
def killed : Crowd ℕ := { crossed with scripts := [] }

end Crossing

namespace Session

variable (more : Str → Option (TextFile → TextFile)) {s : Session α}

theorem coherent_of_count (htidy : Tidy s.tree) (hpc : s.pc = .countTests ∨ s.pc = .countDone) :
    s.Coherent where
  tidy := htidy
  ready := by rcases hpc with hpc | hpc <;> simp only [Ready, hpc]
  counted h := by rcases hpc with hpc | hpc <;> simp [hpc] at h
  launched h := by rcases hpc with hpc | hpc <;> simp [hpc, Pc.inRun] at h

end Session

namespace Crowd

variable (more : Str → Option (TextFile → TextFile)) {w : Crowd α}

/-- One script is in its second loop and has marks to reset, the other one
begins its first loop. -/
structure Chasing (d : Str) (w : Crowd α) : Prop where
  tidy : Tidy w.tree
  marked : donePath d ∈ w.tree.find doneName
  scripts : ∃ v v' : Vars, w.scripts = [v, v'] ∧ v.pc = .countDone ∧ v'.pc = .countTests

/-- The one resets the test, and the other one launches it again. -/
theorem Chasing.round {d : Str} (h : w.Chasing d) : ∃ w' config,
    Relation.ReflTransGen (Next more) w w' ∧ w'.Chasing d ∧
      w'.log = .marked [testPath d, donePath d] :: .launched (testPath d) config ::
        .reset [donePath d, testPath d] :: w.log := by
  obtain ⟨htidy, hmarked, v, v', hscripts, hpc, hpc'⟩ := h
  have hs : (w.view v).Coherent := Session.coherent_of_count htidy (Or.inr hpc)
  obtain ⟨t, c, hrun, ht, hmem, htree, hlog⟩ := hs.resetLap more hpc hmarked
  have hfirst := reaches_after [] [v'] hscripts hrun
  have htest : testPath d ∈ t.tree.find testName := by
    rw [htree, ((hs.tidy.find_reset hmem).2).mem_iff]
    exact List.mem_cons_self
  have htidy' : Tidy t.tree := htree ▸ htidy.moveFile .reset hmem
  have hs' : ((after t [] [v']).view v').Coherent :=
    Session.coherent_of_count htidy' (Or.inl hpc')
  obtain ⟨u, d', c', config, hrun', hu, hd, hmem', htree', hlog'⟩ :=
    hs'.lap more hpc' htest
  obtain rfl : d = d' := testPath_injective hd
  have hsecond := reaches_after (w := after t [] [v']) [t.vars] [] rfl hrun'
  refine ⟨after u [t.vars] [], config, hfirst.trans hsecond, ⟨?_, ?_, ?_⟩, ?_⟩
  · change Tidy u.tree
    rw [htree']
    exact htidy'.moveFile .mark hmem'
  · change donePath d ∈ u.tree.find doneName
    rw [htree', ((hs'.tidy.find_mark hmem').2).mem_iff]
    exact List.mem_cons_self
  · exact ⟨t.vars, u.vars, rfl, ht, hu⟩
  · have hlog'' : ((after t [] [v']).view v').log =
        .reset [donePath d, testPath d] :: w.log := hlog
    rw [testPath_done, hlog''] at hlog'
    exact hlog'

end Crowd

end AutoTestKernel.StartTest
