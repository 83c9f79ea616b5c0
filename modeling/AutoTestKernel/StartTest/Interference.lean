import AutoTestKernel.StartTest.Crowd
import AutoTestKernel.StartTest.Launches

/-!
# One configuration for several scripts

Scripts that run at a time write the same config/test.lua.  Between the `sed`
of a script and its launch of S2E another script may write it again, and then
S2E is pointed at the directory of the other one's test.  Nothing else has to
be kept apart.
-/

namespace AutoTestKernel.StartTest

open Text Sed Shell Fs Runs

variable {α : Type*}

/-- What the script takes for the directory of a test.  When another script was
quicker, there is no name to derive it from. -/
def directoryOf (nowTest : Str) : Str := if nowTest = [] then hahaha else dirName nowTest ++ ['/']

/-- The lines of the configuration that points at a directory, otherwise `f`. -/
def pointedAt (f : TextFile) (nowTest : Str) : List Str :=
  setBaseDirs (pointedLine (directoryOf nowTest)) f.lines

theorem nowTestPath_nil (fs : Finset Str) : nowTestPath fs [] = hahaha := by
  have hexpand : expand fs hahaha = [hahaha] :=
    expand_of_sole (by decide) (by decide) fun hp => absurd hp (by decide)
  rw [nowTestPath, stripped_of_expand (by decide) hexpand]
  decide

theorem directoryOf_testPath (d : Str) : directoryOf (testPath d) = d ++ ['/'] := by
  have hne : testPath d ≠ [] := by simp [testPath]
  rw [directoryOf, if_neg hne, dirName_testPath]

/-- The script has written the configuration and not launched S2E yet. -/
def Vars.Configured (v : Vars) : Prop := v.pc = .spawnTimer ∨ v.pc = .launch

theorem Pc.eq_derivePath_of_next {found : Bool} {pc : Pc} (h : pc.next found = .configure) :
    pc = .derivePath := by
  cases pc <;> cases found <;> simp_all [Pc.next]

theorem Pc.eq_of_next {found : Bool} {pc : Pc}
    (h : pc.next found = .spawnTimer ∨ pc.next found = .launch) :
    pc = .configure ∨ pc = .spawnTimer := by
  cases pc <;> cases found <;> simp_all [Pc.next]

namespace Session

variable {more : Str → Option (TextFile → TextFile)} {s t : Session α}

theorem Next.config_eq (hnext : s.Next more t) (hpc : s.pc ≠ .configure) : t.config = s.config := by
  obtain ⟨-, outside, listing, -, rfl⟩ := hnext
  cases hpc' : s.pc with
  | configure => exact absurd hpc' hpc
  | _ => simp only [step, effect, hpc']

theorem Next.configured (hnext : s.Next more t) (hpc : s.pc = .configure) :
    t.config = rewriteConfig .posix more s.nowTestPath s.config := by
  obtain ⟨-, outside, listing, -, rfl⟩ := hnext
  simp only [step, effect, hpc]

/-- The directory is derived from what `find` has given. -/
theorem Next.derived (hnext : s.Next more t) (htidy : Tidy s.tree) (hnamed : s.vars.Named s.tree)
    (hpc : t.pc = .configure) : t.nowTestPath = directoryOf t.nowTest := by
  have hderive : s.pc = .derivePath := Pc.eq_derivePath_of_next (hnext.pc_eq.symm.trans hpc)
  have hnow : t.nowTest = s.nowTest := hnext.nowTest_eq (by simp [hderive]) (by simp [hderive])
  simp only [Vars.Named, vars, hderive] at hnamed
  obtain ⟨-, outside, listing, -, rfl⟩ := hnext
  rw [hnow]
  simp only [step, effect, hderive]
  rcases hnamed with hnil | ⟨d, hd, hd'⟩
  · rw [hnil, nowTestPath_nil, directoryOf, if_pos rfl]
  · rw [hd', (htidy.safe_of_hasTest hd).nowTestPath_eq, directoryOf_testPath]

theorem Next.launched_mem (hnext : s.Next more t) {p : Str} {c : TextFile}
    (h : .launched p c ∈ t.log) :
    .launched p c ∈ s.log ∨ (s.pc = .launch ∧ p = s.nowTest ∧ c = s.config) := by
  obtain ⟨-, outside, listing, -, rfl⟩ := hnext
  cases hpc : s.pc with
  | launch =>
      simp only [step, effect, hpc, List.mem_cons, Event.launched.injEq] at h
      exact h.symm.imp_right fun heq => ⟨rfl, heq⟩
  | mark | reset =>
      simp only [step, effect, hpc, List.mem_cons, reduceCtorEq, false_or] at h
      exact Or.inl h
  | _ =>
      simp only [step, effect, hpc] at h
      exact Or.inl h

/-- Before a script has the configuration as it needs it, it has written it or
had it so. -/
theorem Next.configured_inv (hnext : s.Next more t) (h : t.vars.Configured) :
    t.nowTest = s.nowTest ∧ (s.pc = .configure ∨ (s.vars.Configured ∧ s.pc ≠ .configure)) := by
  have hpcs : t.pc = .spawnTimer ∨ t.pc = .launch := h
  rw [hnext.pc_eq] at hpcs
  rcases Pc.eq_of_next hpcs with hpc | hpc
  · exact ⟨hnext.nowTest_eq (by simp [hpc]) (by simp [hpc]), Or.inl hpc⟩
  · exact ⟨hnext.nowTest_eq (by simp [hpc]) (by simp [hpc]), Or.inr ⟨Or.inl hpc, by simp [hpc]⟩⟩

end Session

namespace Crowd

/-- As before, but a script writes the configuration only when all others that
have written it and not launched S2E yet are working on the same test. -/
inductive NextExclusive (more : Str → Option (TextFile → TextFile)) (w : Crowd α) :
    Crowd α → Prop
  | command (earlier later : List Vars) (v : Vars) (t : Session α)
      (hscripts : w.scripts = earlier ++ v :: later) (hnext : (w.view v).Next more t)
      (halone : v.pc = .configure → ∀ v' ∈ earlier ++ later, v'.Configured →
        v'.nowTest = v.nowTest) :
      NextExclusive more w (after t earlier later)
  | start : NextExclusive more w { w with scripts := {} :: w.scripts }
  | kill (earlier later : List Vars) (v : Vars) (hscripts : w.scripts = earlier ++ v :: later)
      (hpc : v.pc ≠ .finished) : NextExclusive more w { w with scripts := earlier ++ later }

variable {more : Str → Option (TextFile → TextFile)} {T : FileTree α} {f : TextFile}
  {w w' : Crowd α}

theorem NextExclusive.nextOrKill (h : NextExclusive more w w') : NextOrKill more w w' := by
  cases h with
  | command earlier later v t hscripts hnext _ =>
      exact .next (.command earlier later v t hscripts hnext)
  | start => exact .next .start
  | kill earlier later v hscripts hpc => exact .kill earlier later v hscripts hpc

/-- A directory that has a test has had it from the beginning. -/
theorem Sound.hasTest (h : Sound T w) {d : Str} (hd : HasTest w.tree d) : HasTest T d := by
  obtain ⟨c, hc⟩ := hd
  have hmem : (testPath d, Node.file c) ∈
      T.entries.map fun e => (unmark e.1, e.2) := by
    rw [← h.same]
    rcases hc with hc | hc
    · exact List.mem_map.mpr ⟨_, hc, by simp⟩
    · exact List.mem_map.mpr ⟨_, hc, by simp⟩
  obtain ⟨⟨p, n⟩, he, heq⟩ := List.mem_map.mp hmem
  obtain ⟨hp, rfl⟩ := Prod.mk.inj heq
  by_cases hdone : ∃ d', p = donePath d'
  · obtain ⟨d', rfl⟩ := hdone
    simp only [unmark_donePath, testPath_inj] at hp
    exact ⟨c, Or.inr (hp ▸ he)⟩
  · rw [unmark_of_not_done fun d' hd' => hdone ⟨d', hd'⟩] at hp
    exact ⟨c, Or.inl (hp ▸ he)⟩

/-- The configuration is the first one but for the directory, and a script that
is about to write it has the directory of its test. -/
structure Pointed (f : TextFile) (w : Crowd α) : Prop where
  config : ∀ new, setBaseDirs new w.config.lines = setBaseDirs new f.lines
  derived : ∀ v ∈ w.scripts, v.pc = .configure → v.nowTestPath = directoryOf v.nowTest

theorem Sound.ordinary (h : Sound T w) (hordinary : ∀ d, HasTest T d → Ordinary '#' d) {v : Vars}
    (hv : v ∈ w.scripts) (hpc : v.pc = .configure) : Ordinary '#' (directoryOf v.nowTest) := by
  have hnamed := (h.aware v hv).named
  simp only [Vars.Named, hpc] at hnamed
  rcases hnamed with hnil | ⟨d, hd, hnow⟩
  · rw [hnil]
    decide
  · rw [hnow, directoryOf_testPath]
    exact (hordinary d (h.hasTest hd)).append (by decide)

section Command

variable {earlier later : List Vars} {v : Vars} {t : Session α}

/-- What the `sed` of a script makes of the configuration. -/
theorem Pointed.lines_configured (h : Pointed f w) (hsound : Sound T w)
    (hordinary : ∀ d, HasTest T d → Ordinary '#' d) (hscripts : w.scripts = earlier ++ v :: later)
    (hnext : (w.view v).Next more t) (hpc : v.pc = .configure) :
    t.config.lines = pointedAt f v.nowTest := by
  have hv := mem_scripts hscripts
  have hD := hsound.ordinary hordinary hv hpc
  have hconfig : t.config = rewriteConfig .posix more v.nowTestPath w.config := hnext.configured hpc
  rw [hconfig, h.derived v hv hpc, rewriteConfig_posix more hD, h.config, pointedAt]

theorem Pointed.command (h : Pointed f w) (hsound : Sound T w)
    (hordinary : ∀ d, HasTest T d → Ordinary '#' d) (hscripts : w.scripts = earlier ++ v :: later)
    (hnext : (w.view v).Next more t) : Pointed f (after t earlier later) := by
  constructor
  · intro new
    by_cases hpc : v.pc = .configure
    · have hlines := h.lines_configured hsound hordinary hscripts hnext hpc
      change setBaseDirs new t.config.lines = _
      rw [hlines, pointedAt, setBaseDirs_pointedLine]
    · change setBaseDirs new t.config.lines = _
      rw [hnext.config_eq hpc]
      exact h.config new
  · intro v' hv' hpc
    rcases mem_after hscripts hv' with rfl | hold
    · exact hnext.derived hsound.tidy (hsound.aware v (mem_scripts hscripts)).named hpc
    · exact h.derived v' hold hpc

end Command

theorem Pointed.nextOrKill (h : Pointed f w) (hsound : Sound T w)
    (hordinary : ∀ d, HasTest T d → Ordinary '#' d) (hnext : w.NextOrKill more w') :
    Pointed f w' := by
  cases hnext with
  | next hnext =>
      cases hnext with
      | command earlier later v t hscripts hnext =>
          exact h.command hsound hordinary hscripts hnext
      | start => exact ⟨h.config, List.forall_mem_cons.mpr ⟨by simp, h.derived⟩⟩
  | kill earlier later v hscripts _ =>
      exact ⟨h.config, fun v' hv' => h.derived v' (mem_of_mem_others hscripts hv')⟩

theorem kept_of_run (hordinary : ∀ d, HasTest T d → Ordinary '#' d)
    (hrun : Relation.ReflTransGen (NextOrKill more) w w') (hsound : Sound T w)
    (hpointed : Pointed f w) : Sound T w' ∧ Pointed f w' := by
  refine preserved (I := fun w : Crowd α => Sound T w ∧ Pointed f w) ?_ hrun ⟨hsound, hpointed⟩
  exact fun h hnext => ⟨h.1.nextOrKill hnext, h.2.nextOrKill h.1 hordinary hnext⟩

/-- Every script that has written the configuration finds it as it wrote it,
and so has every launch. -/
structure Undisturbed (f : TextFile) (w : Crowd α) : Prop where
  aim : ∀ v ∈ w.scripts, v.Configured → w.config.lines = pointedAt f v.nowTest
  launched : ∀ p c, .launched p c ∈ w.log → c.lines = pointedAt f p

theorem Undisturbed.command {earlier later : List Vars} {v : Vars} {t : Session α}
    (h : Undisturbed f w) (hpointed : Pointed f w) (hsound : Sound T w)
    (hordinary : ∀ d, HasTest T d → Ordinary '#' d) (hscripts : w.scripts = earlier ++ v :: later)
    (hnext : (w.view v).Next more t)
    (halone : v.pc = .configure → ∀ v' ∈ earlier ++ later, v'.Configured →
      v'.nowTest = v.nowTest) : Undisturbed f (after t earlier later) := by
  have hv := mem_scripts hscripts
  constructor
  · intro v' hv' hconfigured
    change t.config.lines = _
    by_cases hpc : v.pc = .configure
    · -- All that wait for their launch have the test of the one that writes.
      rw [hpointed.lines_configured hsound hordinary hscripts hnext hpc]
      refine congrArg _ ?_
      rcases List.mem_append.mp hv' with hother | hself
      · exact (halone hpc v' (List.mem_append_left _ hother) hconfigured).symm
      rcases List.mem_cons.mp hself with rfl | hother
      · exact (hnext.configured_inv hconfigured).1.symm
      · exact (halone hpc v' (List.mem_append_right _ hother) hconfigured).symm
    · rw [hnext.config_eq hpc]
      rcases mem_after hscripts hv' with rfl | hold
      · obtain ⟨hnow, hbefore⟩ := hnext.configured_inv hconfigured
        have haim := h.aim v hv (hbefore.resolve_left hpc).1
        exact haim.trans (congrArg _ hnow.symm)
      · exact h.aim v' hold hconfigured
  · intro p c hlaunched
    rcases hnext.launched_mem hlaunched with hold | ⟨hpc, rfl, rfl⟩
    · exact h.launched p c hold
    · exact h.aim v hv (Or.inr hpc)

theorem Undisturbed.next (h : Undisturbed f w) (hpointed : Pointed f w) (hsound : Sound T w)
    (hordinary : ∀ d, HasTest T d → Ordinary '#' d) (hnext : w.NextExclusive more w') :
    Undisturbed f w' := by
  cases hnext with
  | command earlier later v t hscripts hnext halone =>
      exact h.command hpointed hsound hordinary hscripts hnext halone
  | start =>
      exact ⟨List.forall_mem_cons.mpr ⟨by simp [Vars.Configured], h.aim⟩, h.launched⟩
  | kill earlier later v hscripts _ =>
      exact ⟨fun v' hv' => h.aim v' (mem_of_mem_others hscripts hv'), h.launched⟩

theorem pointed_start (T : FileTree α) (f : TextFile) :
    Pointed f { tree := T, config := f } where
  config _ := rfl
  derived := by simp

end Crowd

/-! ## Without the exclusion -/

/-- The first loop can come to write the configuration for any test. -/
theorem Session.reaches_configure (more : Str → Option (TextFile → TextFile)) {s : Session α}
    {p : Str} (hpc : s.pc = .countTests) (hp : p ∈ s.tree.find testName) (hline : newline ∉ p) :
    ∃ t, Relation.ReflTransGen (Next more) s t ∧ t.pc = .configure ∧ t.nowTest = p ∧
      t.tree = s.tree := by
  obtain ⟨t, hrun, hpick, htree, -⟩ := reaches_pickTest more hpc (List.ne_nil_of_mem hp)
  have hperm : (p :: (t.tree.find testName).erase p).Perm t.scan := by
    simpa only [scan, hpick] using (List.perm_cons_erase (htree ▸ hp)).symm
  let picked := t.step more ∅ (p :: (t.tree.find testName).erase p)
  have hpicked : t.Next more picked := next_step more (by simp [hpick]) hperm
  obtain ⟨hderive, hnow, htree'⟩ : picked.pc = .derivePath ∧ picked.nowTest = p ∧
      picked.tree = t.tree := by
    simp [picked, step, effect, hpick, Pc.next, headLine_printLines hline]
  let derived := picked.step more ∅ picked.scan
  have hderived : picked.Next more derived :=
    next_step more (by simp [hderive]) (List.Perm.refl _)
  refine ⟨derived, (hrun.tail hpicked).tail hderived, ?_, ?_, ?_⟩
  · simp [derived, step, hderive, Pc.next]
  · simpa [derived, step, effect, hderive] using hnow
  · simpa [derived, step, effect, hderive] using htree'.trans htree

namespace Crowd

variable {more : Str → Option (TextFile → TextFile)} {T : FileTree α} {f : TextFile}
  {w : Crowd α}

theorem reaches_configured {earlier later : List Vars} {v : Vars} {p : Str} (hsound : Sound T w)
    (hpointed : Pointed f w) (hordinary : ∀ d, HasTest T d → Ordinary '#' d)
    (hscripts : w.scripts = earlier ++ v :: later) (hpc : v.pc = .countTests)
    (hp : p ∈ w.tree.find testName) :
    ∃ t : Session α, Relation.ReflTransGen (Next more) w (after t earlier later) ∧
      t.pc = .spawnTimer ∧ t.nowTest = p ∧ t.tree = w.tree ∧ t.config.lines = pointedAt f p := by
  obtain ⟨t, hrun, htpc, hnow, htree⟩ := Session.reaches_configure more (s := w.view v) hpc hp
    (hsound.tidy.newline_notMem_of_test p hp)
  have hreach : Relation.ReflTransGen (Next more) w (after t earlier later) :=
    reaches_after earlier later hscripts hrun
  obtain ⟨hsound', hpointed'⟩ := kept_of_run hordinary
    (Relation.ReflTransGen.mono (fun _ _ => NextOrKill.next) _ _ hreach) hsound hpointed
  have htree' : t.tree = w.tree := htree
  let written := t.step more ∅ t.scan
  have hwritten : t.Next more written :=
    Session.next_step more (by simp [htpc]) (List.Perm.refl _)
  refine ⟨written, hreach.tail (.command earlier later t.vars written rfl hwritten), ?_, ?_, ?_, ?_⟩
  · simp [written, Session.step, htpc, Pc.next]
  · simpa [written, Session.step, Session.effect, htpc] using hnow
  · simpa [written, Session.step, Session.effect, htpc] using htree'
  · rw [← hnow]
    exact hpointed'.lines_configured hsound' hordinary rfl hwritten htpc

end Crowd

/-- Different tests need different configurations, if there is a line for them. -/
theorem pointedAt_ne {f : TextFile} {p q : Str} (hf : ∃ l ∈ f.lines, mentions l = true)
    (hp : hasName testName p = true) (hq : hasName testName q = true) (hne : p ≠ q) :
    pointedAt f q ≠ pointedAt f p := by
  obtain ⟨d, rfl⟩ := hasName_testName.mp hp
  obtain ⟨d', rfl⟩ := hasName_testName.mp hq
  obtain ⟨l, hl, hment⟩ := hf
  intro heq
  rw [pointedAt, pointedAt, setBaseDirs, setBaseDirs] at heq
  have hline := List.map_inj_left.mp heq l hl
  rw [if_pos hment, if_pos hment, directoryOf_testPath, directoryOf_testPath] at hline
  have hdirs : d' = d := by simpa [pointedLine] using hline
  exact hne (congrArg testPath hdirs.symm)

namespace Crowd

variable {more : Str → Option (TextFile → TextFile)} {T : FileTree α} {f : TextFile}
  {w : Crowd α} {p q : Str}

theorem launched_pointedAt (hT : Tidy T) (hordinary : ∀ d, HasTest T d → Ordinary '#' d)
    (hrun : Relation.ReflTransGen (NextExclusive more) { tree := T, config := f } w) :
    ∀ p c, .launched p c ∈ w.log → c.lines = pointedAt f p := by
  have h : Undisturbed f w ∧ Sound T w ∧ Pointed f w := by
    refine preserved (I := fun w => Undisturbed f w ∧ Sound T w ∧ Pointed f w) ?_ hrun
      ⟨⟨by simp, by simp⟩, sound_start hT f, pointed_start T f⟩
    rintro w w' ⟨hundisturbed, hsound, hpointed⟩ hnext
    exact ⟨hundisturbed.next hpointed hsound hordinary hnext,
      hsound.nextOrKill hnext.nextOrKill, hpointed.nextOrKill hsound hordinary hnext.nextOrKill⟩
  exact h.1.launched

/-- The first script writes the configuration for `p` and the second one for
`q`, before the first one launches S2E. -/
theorem exists_confused (hT : Tidy T) (hordinary : ∀ d, HasTest T d → Ordinary '#' d)
    (hp : p ∈ T.find testName) (hq : q ∈ T.find testName) :
    ∃ w c, Relation.ReflTransGen (Next more) { tree := T, config := f } w ∧
      .launched p c ∈ w.log ∧ c.lines = pointedAt f q := by
  have hkept : ∀ {w}, Relation.ReflTransGen (Next more) { tree := T, config := f } w →
      Sound T w ∧ Pointed f w := fun hrun =>
    kept_of_run hordinary (Relation.ReflTransGen.mono (fun _ _ => NextOrKill.next) _ _ hrun)
      (sound_start hT f) (pointed_start T f)
  let start : Crowd α := { tree := T, config := f, scripts := [{}, {}] }
  have hstart : Relation.ReflTransGen (Next more) { tree := T, config := f } start :=
    .head .start (.head .start .refl)
  have hscripts : start.scripts = [] ++ ({} : Vars) :: [({} : Vars)] := rfl
  obtain ⟨t, hrun, htpc, htnow, httree, -⟩ :=
    reaches_configured (hkept hstart).1 (hkept hstart).2 hordinary hscripts rfl hp
  let first : Crowd α := after t [] [{}]
  have hfirst := hstart.trans hrun
  have hscripts' : first.scripts = [t.vars] ++ ({} : Vars) :: [] := rfl
  have hq' : q ∈ first.tree.find testName := by
    change q ∈ t.tree.find testName
    rwa [httree]
  obtain ⟨u, hrun', -, -, -, hlines⟩ :=
    reaches_configured (hkept hfirst).1 (hkept hfirst).2 hordinary hscripts' rfl hq'
  let both : Crowd α := after u [t.vars] []
  have hscripts'' : both.scripts = [] ++ t.vars :: [u.vars] := rfl
  have hlast := reaches_after [] [u.vars] hscripts'' (Session.reaches_steps more 2 _)
  refine ⟨_, u.config, (hfirst.trans hrun').trans hlast, ?_, hlines⟩
  have hpc : (both.view t.vars).pc = .spawnTimer := htpc
  have hnow : (both.view t.vars).nowTest = p := htnow
  have hconfig : (both.view t.vars).config = u.config := rfl
  simp [after, Session.steps, Session.step, Session.effect, hpc, Pc.next, hnow, hconfig]

end Crowd

/-- However many scripts run at a time and whichever are killed: every launch
has the directory of its own test, if no script writes the configuration between
the `sed` and the launch of another one.  Otherwise any two tests may be
confused. -/
theorem crowd_points {T : FileTree α} {f : TextFile} (hT : Tidy T)
    (hordinary : ∀ d, HasTest T d → Ordinary '#' d)
    (hf : ∃ l ∈ f.lines, mentions l = true)
    (more : Str → Option (TextFile → TextFile)) :
    (∀ w, Relation.ReflTransGen (Crowd.NextExclusive more) { tree := T, config := f } w →
      ∀ p c, .launched p c ∈ w.log → c.lines = pointedAt f p) ∧
    ∀ p ∈ T.find testName, ∀ q ∈ T.find testName, p ≠ q → ∃ w c,
      Relation.ReflTransGen (Crowd.Next more) { tree := T, config := f } w ∧
        .launched p c ∈ w.log ∧ c.lines = pointedAt f q ∧ c.lines ≠ pointedAt f p := by
  refine ⟨fun w hrun => Crowd.launched_pointedAt hT hordinary hrun, fun p hp q hq hne => ?_⟩
  obtain ⟨w, c, hrun, hlaunched, hlines⟩ := Crowd.exists_confused hT hordinary hp hq
  refine ⟨w, c, hrun, hlaunched, hlines, ?_⟩
  rw [hlines]
  exact pointedAt_ne hf (FileTree.mem_find.mp hp).2 (FileTree.mem_find.mp hq).2 hne

theorem tidy_nestedTree : Tidy nestedTree := by
  have hquiet : ∀ p ∈ nestedTree.keys, Quiet p ∧ hasName doneName p = false := by decide +kernel
  have hno : ∀ d, donePath d ∉ nestedTree.keys := fun d hd =>
    absurd ((hquiet _ hd).2.symm.trans (hasName_doneName_donePath d)) (by decide)
  apply Tidy.of_apart
  · exact fun d hd => (hquiet _ (hd.resolve_right (hno d))).1.of_join.safeDirectory
  · exact fun d n hn => absurd (FileTree.mem_keys_iff.mpr ⟨n, hn⟩) (hno d)
  · exact fun d _ => hno d

theorem ordinary_nestedTree (d : Str) (hd : HasTest nestedTree d) : Ordinary '#' d := by
  have hall : ∀ p ∈ nestedTree.keys, Ordinary '#' (dirName p) := by decide +kernel
  obtain ⟨c, hc⟩ := hd
  rcases hc with hc | hc
  · exact dirName_testPath d ▸ hall _ (FileTree.mem_keys_iff.mpr ⟨_, hc⟩)
  · exact dirName_donePath d ▸ hall _ (FileTree.mem_keys_iff.mpr ⟨_, hc⟩)

/-- S2E is started on the one test and given the directory of the other one. -/
theorem crowd_points_nestedTree : ∃ (w : Crowd ℕ) (c : TextFile),
    Relation.ReflTransGen (Crowd.Next fun _ => none)
        { tree := nestedTree, config := hostFiles } w ∧
      .launched "/k/../tests/test/test".toList c ∈ w.log ∧
      c.lines = pointedAt hostFiles "/k/../tests/test/b/test".toList ∧
      c.lines ≠ pointedAt hostFiles "/k/../tests/test/test".toList :=
  (crowd_points tidy_nestedTree ordinary_nestedTree
    (List.any_eq_true.mp (by decide +kernel : hostFiles.lines.any mentions = true))
    fun _ => none).2 _ (by decide +kernel) _ (by decide +kernel) (by decide +kernel)

end AutoTestKernel.StartTest
