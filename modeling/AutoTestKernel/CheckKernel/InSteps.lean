import AutoTestKernel.CheckKernel.Parts

/-!
# checkKernel.sh in steps

onlykint.sh, onlyinsert.sh and onlybzImage.sh, run one after another and with
startTest.sh after them, leave everything as one run of checkKernel.sh can leave
it, and the other way round, whatever the programs from elsewhere do.
-/

namespace AutoTestKernel.CheckKernel

open Text Shell Fs

/-! ## The same files -/

variable {s t : Check} {outside : Finset Str} {o : Outcome}

theorem Check.SameFiles.symm (h : s.SameFiles t) : t.SameFiles s :=
  ⟨h.kernel.symm, h.cwd.symm, h.tree.symm, h.inserts.symm⟩

/-- After the checks no variable of the script is read. -/
theorem Check.SameFiles.exec (h : s.SameFiles t) {c : Command}
    (hc : c ∉ looks ++ [.testInserted]) : (s.exec outside o c).SameFiles (t.exec outside o c) := by
  obtain ⟨kernel, tree, cwd⟩ := s
  obtain ⟨kernel', tree', cwd'⟩ := t
  obtain ⟨hkernel, hcwd, htree, hinserts⟩ := h
  dsimp only at hkernel hcwd htree hinserts
  subst hkernel hcwd htree hinserts
  cases c with
  | testReadme | countRelease | testRelease | countInserted | testInserted => simp [looks] at hc
  | cd d =>
      simp only [Check.exec]
      split <;> exact ⟨rfl, rfl, rfl, rfl⟩
  | cdKernel =>
      simp only [Check.exec, Check.cdArgs, Check.existing]
      split
      · split <;> exact ⟨rfl, rfl, rfl, rfl⟩
      · exact ⟨rfl, rfl, rfl, rfl⟩
  | sedBitops =>
      simp only [Check.exec]
      split <;> exact ⟨rfl, rfl, rfl, rfl⟩
  | external e => cases e <;> exact ⟨rfl, rfl, rfl, rfl⟩
  | _ => exact ⟨rfl, rfl, rfl, rfl⟩

theorem Check.Possible.of_sameFiles {e : External} (h : s.Possible e o) (hsame : s.SameFiles t) :
    t.Possible e o := by
  have hinstrumented : t.instrumented = s.instrumented := by
    rw [Check.instrumented, Check.instrumented, hsame.inserts]
  refine ⟨?_, ?_, ?_⟩
  · rw [hsame.tree]
    exact h.no_marker
  · rw [hsame.tree, hinstrumented]
    exact h.compiled
  · rw [hsame.cwd, hinstrumented]
    exact h.bzImage

variable {u v w : PartShell} {l l' m m' : List PartCommand}

theorem PartShell.GoesWell.of_sameFiles {c : Command} (h : u.GoesWell outside o (.own c))
    (hsame : u.check.SameFiles v.check) (hc : c ∉ looks ++ [.testInserted]) :
    v.GoesWell outside o (.own c) where
  finds := by
    have hfinds := h.finds
    have hexisting : v.check.existing outside = u.check.existing outside := by
      rw [Check.existing, Check.existing, hsame.tree]
    cases c with
    | testReadme | countRelease | testRelease | countInserted | testInserted => simp [looks] at hc
    | cd d =>
        rw [Finds] at hfinds ⊢
        rwa [hsame.tree, hsame.cwd]
    | cdKernel =>
        rw [Finds, Check.cdArgs] at hfinds ⊢
        rwa [hexisting, hsame.tree, hsame.kernel]
    | cpS2e =>
        rw [Finds, Check.Goes, Check.cpArgs, Check.header] at hfinds ⊢
        rwa [hexisting, hsame.tree, hsame.kernel]
    | _ => trivial
  possible e he := (h.possible e he).of_sameFiles hsame
  keeps e he hmark :=
    Check.marked_of_keys (h.keeps e he (hsame.marked.mp hmark)) hsame.kernel fun _ hp => hp
  tests he := by
    have htests := h.tests he
    rwa [Check.Tests, ← hsame.cwd, ← hsame.tree] at htests

theorem Check.SameFiles.own {c : Command} (h : u.check.SameFiles v.check)
    (hc : c ∉ looks ++ [.testInserted]) :
    (u.exec outside o (.own c)).check.SameFiles (v.exec outside o (.own c)).check :=
  let hexec := Check.SameFiles.exec h hc
  ⟨hexec.kernel, hexec.cwd, hexec.tree, hexec.inserts⟩

/-! ## Runs with the same effect -/

def Straight (l : List PartCommand) : Prop :=
  ∀ c ∈ l, c ∉ [.own .testReadme, .own .testRelease, .own .testInserted]

instance (l : List PartCommand) : Decidable (Straight l) :=
  inferInstanceAs (Decidable (∀ c ∈ l, _))

theorem Execs.split (h : Execs PartShell.GoesWell (l ++ m) u w) (hl : Straight l) :
    ∃ v, Execs PartShell.GoesWell l u v ∧ Execs PartShell.GoesWell m v w :=
  h.append fun c hc _ rest => PartShell.leaves_of_straight (hl c hc) rest

theorem Execs.join (h : Execs PartShell.GoesWell l u v) (h' : Execs PartShell.GoesWell m v w)
    (hl : Straight l) : Execs PartShell.GoesWell (l ++ m) u w := by
  induction h with
  | nil s => exact h'
  | @cons c rest s t outside o hgood _ ih =>
      obtain ⟨hc, hrest⟩ := List.forall_mem_cons.mp hl
      rw [PartShell.leaves_of_straight hc] at ih
      have hjoined := ih h' hrest
      exact .cons outside o hgood (by rwa [PartShell.leaves_of_straight hc])

/-- Whatever the commands `l` come to from where `P` holds, `l'` can come to as
well, and `Q` holds there. -/
def Refines (P Q : Check → Prop) (l l' : List PartCommand) : Prop :=
  ∀ u v u', u.check.SameFiles v.check → P u.check → Execs PartShell.GoesWell l u u' →
    Q u'.check ∧ ∃ v', Execs PartShell.GoesWell l' v v' ∧ u'.check.SameFiles v'.check

variable {P Q R : Check → Prop}

theorem Refines.append (h : Refines P Q l l') (h' : Refines Q R m m') (hl : Straight l)
    (hl' : Straight l') : Refines P R (l ++ m) (l' ++ m') := by
  intro u v w hsame hP hrun
  obtain ⟨u₁, hfirst, hsecond⟩ := hrun.split hl
  obtain ⟨hQ, v₁, hfirst', hsame₁⟩ := h u v u₁ hsame hP hfirst
  obtain ⟨hR, v₂, hsecond', hsame₂⟩ := h' u₁ v₁ w hsame₁ hQ hsecond
  exact ⟨hR, v₂, hfirst'.join hsecond' hl', hsame₂⟩

theorem Refines.weaken (h : Refines P Q l l') (hP : ∀ s, R s → P s) : Refines R Q l l' :=
  fun u v w hsame hR hrun => h u v w hsame (hP _ hR) hrun

/-- In the directory of the kernel. -/
structure Home (s : Check) : Prop where
  word : OneWord s.kernel
  cwd : s.cwd = s.kernel

/-- The directory of the kernel is there as well. -/
structure HomeThere (s : Check) : Prop extends Home s where
  isDir : s.tree.isDir s.kernel = true

theorem Home.of_place (h : OneWord u.check.kernel) (hkernel : v.check.kernel = u.check.kernel)
    (hplace : v.place.1 = u.check.kernel) : Home v.check :=
  ⟨hkernel ▸ h, hplace.trans hkernel.symm⟩

/-- Commands that both scripts have. -/
theorem Execs.sameFiles {l : List Command} (hl : ∀ c ∈ l, c ∉ looks ++ [.testInserted])
    (h : Execs PartShell.GoesWell (l.map .own) u w) (hsame : u.check.SameFiles v.check) :
    ∃ v', Execs PartShell.GoesWell (l.map .own) v v' ∧ w.check.SameFiles v'.check := by
  induction l generalizing u v with
  | nil =>
      cases h
      exact ⟨v, .nil v, hsame⟩
  | cons c l ih =>
      obtain ⟨hc, hl⟩ := List.forall_mem_cons.mp hl
      have hstraight : PartCommand.own c ∉ [.own .testReadme, .own .testRelease,
          .own .testInserted] := by
        simp only [looks, List.cons_append, List.nil_append, List.mem_cons, not_or] at hc
        simp [hc]
      obtain ⟨outside, o, hgood, hrest⟩ := h.straight_inv hstraight
      obtain ⟨v', hrest', hsame'⟩ := ih hl hrest (hsame.own hc)
      refine ⟨v', .cons outside o (hgood.of_sameFiles hsame hc) ?_, hsame'⟩
      rwa [PartShell.leaves_of_straight hstraight]

/-! ## The scripts, piece by piece -/

/-- Commands that are the same in both and do not move. -/
theorem refines_own {l : List Command} (hl : ∀ c ∈ l, c ∉ looks ++ [.testInserted])
    (hstay : ∀ kernel oldpwd, ((l.map PartCommand.own).foldl (drift kernel) (kernel, oldpwd)).1 =
      kernel) (hstraight : Straight (l.map .own)) :
    Refines Home Home (l.map .own) (l.map .own) := by
  intro u v w hsame hhome hrun
  obtain ⟨hkernel, hplace, -⟩ := hrun.places hstraight
  refine ⟨Home.of_place hhome.word hkernel ?_, Execs.sameFiles hl hrun hsame⟩
  rw [hplace, PartShell.place, hhome.cwd, hstay]

/-- What an iteration does before it turns back. -/
def insertIn (toInsertDir : String) : List Command :=
  [.cd toInsertDir, .external .pintck, .external .insert]

theorem Execs.insertIn {d : String} (h : Execs PartShell.GoesWell ((insertIn d).map .own) u w)
    (hhome : Home u.check) (hsame : u.check.SameFiles v.check) :
    w.check.kernel = u.check.kernel ∧ w.oldpwd = some u.check.kernel ∧
      ∃ v', Execs PartShell.GoesWell ((insertIn d).map .own) v v' ∧
        w.check.SameFiles v'.check ∧ v'.oldpwd = some u.check.kernel := by
  obtain ⟨hkernel, hplace, -⟩ := h.places (by simp [CheckKernel.insertIn])
  obtain ⟨v', hrun, hsame'⟩ := Execs.sameFiles (by simp [CheckKernel.insertIn, looks]) h hsame
  obtain ⟨-, hplace', -⟩ := hrun.places (by simp [CheckKernel.insertIn])
  have hold : w.oldpwd = some u.check.cwd := congrArg Prod.snd hplace
  have hold' : v'.oldpwd = some v.check.cwd := congrArg Prod.snd hplace'
  rw [hhome.cwd] at hold
  rw [hsame.cwd, hhome.cwd] at hold'
  exact ⟨hkernel, hold, v', hrun, hsame', hold'⟩

theorem straight_insertIn (d : String) : Straight ((insertIn d).map .own) := by
  simp [Straight, insertIn]

/-- `cd -` leads where `cd $Kernel` leads. -/
theorem turned_back (outside : Finset Str) (o : Outcome) (hword : OneWord u.check.kernel)
    (hold : u.oldpwd = some u.check.kernel)
    (hdir : u.check.tree.isDir u.check.kernel = true) (hsame : u.check.SameFiles v.check) :
    u.GoesWell outside o .cdBack ∧ v.GoesWell outside o (.own .cdKernel) ∧
      (u.exec outside o .cdBack).check.SameFiles (v.exec outside o (.own .cdKernel)).check ∧
        HomeThere (u.exec outside o .cdBack).check := by
  have hargs : v.check.cdArgs outside = [v.check.kernel] := (hsame.kernel ▸ hword).expand_eq _
  have hdir' : v.check.tree.isDir v.check.kernel = true := by rw [hsame.tree, hsame.kernel, hdir]
  have hback : (u.exec outside o .cdBack).check = { u.check with cwd := u.check.kernel } := by
    simp [PartShell.exec, hold, hdir]
  have hkernel : (v.exec outside o (.own .cdKernel)).check =
      { v.check with cwd := v.check.kernel, todo := [] } := by
    simp [PartShell.exec, Check.exec, hargs, hdir']
  rw [hback, hkernel]
  exact ⟨⟨⟨_, hold, hdir⟩, by simp, by simp, by simp⟩, ⟨⟨hargs, hdir'⟩, by simp, by simp, by simp⟩,
    ⟨hsame.kernel, hsame.kernel, hsame.tree, hsame.inserts⟩, ⟨⟨hword, rfl⟩, hdir⟩⟩

theorem refines_there (d : String) :
    Refines Home HomeThere (insertThere d) ((insertInto d).map .own) := by
  intro u v w hsame hhome hrun
  have hparts : Execs PartShell.GoesWell ((insertIn d).map .own ++ [.cdBack]) u w := hrun
  obtain ⟨u₁, hwork, hback⟩ := hparts.split (straight_insertIn d)
  obtain ⟨hkernel, hold, v₁, hwork', hsame₁, -⟩ := hwork.insertIn hhome hsame
  obtain ⟨outside, o, hgood, hend⟩ := hback.cons_inv
  cases hend
  obtain ⟨p, hp, hdir⟩ := hgood.finds
  obtain rfl : u.check.kernel = p := Option.some.inj (hold.symm.trans hp)
  rw [← hkernel] at hold hdir
  obtain ⟨-, hgood', hsame₂, hthere⟩ := turned_back outside o
    (hkernel ▸ hhome.word) hold hdir hsame₁
  exact ⟨hthere, _, hwork'.join (.cons outside o hgood' (.nil _)) (straight_insertIn d), hsame₂⟩

theorem refines_here (d : String) :
    Refines Home HomeThere ((insertInto d).map .own) (insertThere d) := by
  intro u v w hsame hhome hrun
  have hparts : Execs PartShell.GoesWell ((insertIn d).map .own ++ [.own .cdKernel]) u w := hrun
  obtain ⟨u₁, hwork, hback⟩ := hparts.split (straight_insertIn d)
  obtain ⟨hkernel, -, v₁, hwork', hsame₁, hold⟩ := hwork.insertIn hhome hsame
  obtain ⟨outside, o, hgood, hend⟩ := hback.cons_inv
  cases hend
  obtain ⟨-, hdir⟩ := hgood.finds
  have hkernel' : v₁.check.kernel = u.check.kernel := hsame₁.kernel.trans hkernel
  rw [← hkernel'] at hold
  have hdir' : v₁.check.tree.isDir v₁.check.kernel = true := by
    rw [hsame₁.tree, hsame₁.kernel, hdir]
  obtain ⟨hgood', -, hsame₂, hthere⟩ := turned_back outside o
    (hkernel' ▸ hhome.word) hold hdir' hsame₁.symm
  refine ⟨?_, _, hwork'.join (.cons outside o hgood' (.nil _)) (straight_insertIn d), hsame₂.symm⟩
  refine ⟨⟨hsame₂.kernel ▸ hthere.word, ?_⟩, ?_⟩
  · rw [hsame₂.kernel, hsame₂.cwd, hthere.cwd]
  · rw [hsame₂.kernel, hsame₂.tree, hthere.isDir]

theorem refines_mkdirS2e : Refines HomeThere HomeThere [.own .mkdirS2e] [.own .mkdirS2e] := by
  intro u v w hsame hthere hrun
  obtain ⟨hhome, hrest⟩ := refines_own (l := [.mkdirS2e]) (by simp [looks]) (fun _ _ => rfl)
    (by simp [Straight]) u v w hsame hthere.toHome hrun
  obtain ⟨outside, o, -, hend⟩ := hrun.cons_inv
  cases hend
  exact ⟨⟨hhome, FileTree.isDir_iff.mpr
    (FileTree.mem_mkdir_of_mem (FileTree.isDir_iff.mp hthere.isDir))⟩, hrest⟩

/-- From the directory of the kernel both copy the same file to the same place. -/
theorem copied_here (outside : Finset Str) (o : Outcome) (hhome : Home u.check)
    (hsame : u.check.SameFiles v.check) :
    (u.GoesWell outside o .cpHere ↔ v.GoesWell outside o (.own .cpS2e)) ∧
      (u.exec outside o .cpHere).check.SameFiles (v.exec outside o (.own .cpS2e)).check := by
  have hword : OneWord v.check.kernel := hsame.kernel ▸ hhome.word
  have hargs : v.check.cpArgs outside =
      [inside v.check.kernel "../config/s2e.h", inside v.check.kernel "include/s2e/"] := by
    rw [Check.cpArgs, hword.expand_inside (by decide) (by decide) (by decide),
      hword.expand_inside (by decide) (by decide) (by decide)]
    rfl
  have hheader : v.check.header =
      u.check.tree.get? (inside (dirName u.check.cwd) "config/s2e.h") := by
    rw [Check.header, hsame.tree, hsame.kernel, hhome.cwd]
  have hdir : inside v.check.kernel "include/s2e" = inside u.check.cwd "include/s2e" := by
    rw [hsame.kernel, hhome.cwd]
  refine ⟨⟨fun h => ⟨⟨hargs, ?_⟩, by simp, by simp, by simp⟩,
    fun h => ⟨?_, by simp, by simp, by simp⟩⟩, ?_⟩
  · rw [hheader, hdir, hsame.tree]
    exact h.finds
  · have hfinds : v.check.Goes outside ⟨v.check.tree, true⟩ .cpS2e := h.finds
    obtain ⟨-, hfile, hthere⟩ := hfinds
    rw [hheader] at hfile
    rw [hdir, hsame.tree] at hthere
    exact ⟨hfile, hthere⟩
  · have hplace : inside v.check.kernel "include/s2e/s2e.h" =
        inside u.check.cwd "include/s2e/s2e.h" := by rw [hsame.kernel, hhome.cwd]
    simp only [PartShell.exec, Check.exec, Check.cp, if_pos hargs, hheader, hplace, hsame.tree]
    cases u.check.tree.get? (inside (dirName u.check.cwd) "config/s2e.h") with
    | none => exact ⟨hsame.kernel, hsame.cwd, rfl, hsame.inserts⟩
    | some n => cases n <;> exact ⟨hsame.kernel, hsame.cwd, rfl, hsame.inserts⟩

theorem HomeThere.cpHere (h : HomeThere u.check) (hgood : u.GoesWell outside o .cpHere) :
    HomeThere (u.exec outside o .cpHere).check := by
  obtain ⟨hheader, -⟩ := hgood.finds
  obtain ⟨n, hn, hfile⟩ := (Option.any_eq_true _ _).mp hheader
  cases n with
  | dir => cases hfile
  | file c =>
      simp only [PartShell.exec, hn]
      refine ⟨⟨h.word, h.cwd⟩, FileTree.isDir_iff.mpr ?_⟩
      apply FileTree.mem_put_of_ne (FileTree.isDir_iff.mp h.isDir)
      rw [h.cwd]
      exact (inside_ne_self u.check.kernel _).symm

theorem refines_cpHere : Refines HomeThere HomeThere [.cpHere] [.own .cpS2e] := by
  intro u v w hsame hthere hrun
  obtain ⟨outside, o, hgood, hend⟩ := hrun.cons_inv
  cases hend
  obtain ⟨hiff, hsame'⟩ := copied_here outside o hthere.toHome hsame
  exact ⟨hthere.cpHere hgood, _, .cons outside o (hiff.mp hgood) (.nil _), hsame'⟩

theorem Home.of_sameFiles {s t : Check} (h : Home s) (hsame : s.SameFiles t) : Home t :=
  ⟨hsame.kernel ▸ h.word, by rw [hsame.cwd, hsame.kernel, h.cwd]⟩

theorem refines_cpS2e : Refines Home Home [.own .cpS2e] [.cpHere] := by
  intro u v w hsame hhome hrun
  obtain ⟨outside, o, hgood, hend⟩ := hrun.cons_inv
  cases hend
  obtain ⟨hiff, hsame'⟩ := copied_here outside o (hhome.of_sameFiles hsame)
    hsame.symm
  exact ⟨⟨hhome.word, hhome.cwd⟩, _, .cons outside o (hiff.mpr hgood) (.nil _), hsame'.symm⟩

/-! ## What checkKernel.sh does besides -/

theorem sameFiles_cdKernel (outside : Finset Str) (o : Outcome) (hhome : Home u.check) :
    u.check.SameFiles (u.exec outside o (.own .cdKernel)).check := by
  have hargs : u.check.cdArgs outside = [u.check.kernel] := hhome.word.expand_eq _
  simp only [PartShell.exec, Check.exec, hargs]
  split
  · exact ⟨rfl, hhome.cwd.symm, rfl, rfl⟩
  · exact ⟨rfl, rfl, rfl, rfl⟩

theorem refines_cdKernel_nil : Refines Home Home [.own .cdKernel] [] := by
  intro u v w hsame hhome hrun
  obtain ⟨outside, o, -, hend⟩ := hrun.straight_inv (by simp)
  cases hend
  have hidle := sameFiles_cdKernel outside o hhome
  exact ⟨hhome.of_sameFiles hidle, v, .nil v, hidle.symm.trans hsame⟩

theorem refines_cdKernel : Refines HomeThere Home [] [.own .cdKernel] := by
  intro u v w hsame hthere hrun
  cases hrun
  have hhome := hthere.toHome.of_sameFiles hsame
  have hgood : v.GoesWell ∅ ⟨v.check.tree, true⟩ (.own .cdKernel) := by
    refine ⟨⟨hhome.word.expand_eq _, ?_⟩, by simp, by simp, by simp⟩
    rw [hsame.tree, hsame.kernel, hthere.isDir]
  exact ⟨hthere.toHome, _, .cons _ _ hgood (.nil _),
    hsame.trans (sameFiles_cdKernel _ _ hhome)⟩

/-! ## The scripts as a whole -/

/-- What checkKernel.sh does in the place of onlyinsert.sh. -/
def insertResults : List Command := toInsert.flatMap insertInto ++ [.mkdirS2e, .cpS2e]

/-- What the last script does. -/
def compileKernel : List Command :=
  [.external .mrproper, .external .defconfig, .external .bzImage]

theorem refines_compileByKint :
    Refines Home Home (compileByKint.map .own) (compileByKint.map .own) :=
  refines_own (by decide) (fun _ _ => rfl) (by decide)

theorem refines_compileKernel :
    Refines Home Home (compileKernel.map .own) (compileKernel.map .own) :=
  refines_own (by decide) (fun _ _ => rfl) (by decide)

theorem refines_startTest : Refines Home Home [.own .startTest] [.own .startTest] :=
  refines_own (l := [.startTest]) (by decide) (fun _ _ => rfl) (by decide)

theorem refines_onlyinsert :
    Refines Home HomeThere Part.onlyinsert.script (insertResults.map .own) := by
  have hagain : ∀ d, Refines HomeThere HomeThere (insertThere d) ((insertInto d).map .own) :=
    fun d => (refines_there d).weaken fun _ h => h.toHome
  have hcopy : Refines HomeThere HomeThere ([.own .mkdirS2e] ++ [.cpHere])
      ([.own .mkdirS2e] ++ [.own .cpS2e]) :=
    refines_mkdirS2e.append refines_cpHere (by decide) (by decide)
  exact (refines_there "net/ipv4").append ((hagain "net/core").append
    ((hagain "kernel/events").append hcopy (by decide) (by decide)) (by decide) (by decide))
    (by decide) (by decide)

theorem refines_insertResults :
    Refines Home Home (insertResults.map .own) Part.onlyinsert.script := by
  have hagain : ∀ d, Refines HomeThere HomeThere ((insertInto d).map .own) (insertThere d) :=
    fun d => (refines_here d).weaken fun _ h => h.toHome
  have hcopy : Refines HomeThere Home ([.own .mkdirS2e] ++ [.own .cpS2e])
      ([.own .mkdirS2e] ++ [.cpHere]) :=
    refines_mkdirS2e.append (refines_cpS2e.weaken fun _ h => h.toHome) (by decide) (by decide)
  exact (refines_here "net/ipv4").append ((hagain "net/core").append
    ((hagain "kernel/events").append hcopy (by decide) (by decide)) (by decide) (by decide))
    (by decide) (by decide)

theorem refines_onlybzImage : Refines HomeThere Home Part.onlybzImage.script
    ([.own .cdKernel] ++ compileKernel.map .own) :=
  refines_cdKernel.append refines_compileKernel (by decide) (by decide)

theorem refines_finish : Refines Home Home
    ([.own .cdKernel] ++ compileKernel.map .own) Part.onlybzImage.script :=
  refines_cdKernel_nil.append refines_compileKernel (by decide) (by decide)

theorem Home.sameFiles_begin {s : Check} (h : Home s) (oldpwd : Option Str) :
    s.SameFiles (s.begin oldpwd).check :=
  ⟨rfl, h.cwd.symm, rfl, rfl⟩

theorem Plays.cons_inv {p : Part} {ps : List Part} {s t : Check} (h : Plays (p :: ps) s t) :
    ∃ oldpwd u, Execs PartShell.GoesWell p.script (s.begin oldpwd) u ∧ Plays ps u.check t := by
  cases h with
  | cons oldpwd h hrest => exact ⟨oldpwd, _, h, hrest⟩

theorem Plays.single_inv {p : Part} {s t : Check} (h : Plays [p] s t) :
    ∃ oldpwd u, Execs PartShell.GoesWell p.script (s.begin oldpwd) u ∧ u.check = t := by
  obtain ⟨oldpwd, u, hrun, hend⟩ := h.cons_inv
  cases hend
  exact ⟨oldpwd, u, hrun, rfl⟩

/-- onlykint.sh, onlyinsert.sh and onlybzImage.sh in turn, and startTest.sh after
them, can leave a kernel without an s2e.h exactly as checkKernel.sh can. -/
theorem plays_in_steps_iff {s : Check} {tree : FileTree Contents} {inserts : List (Str × Bool)}
    (hfresh : ¬ s.Marked) (hword : OneWord s.kernel) :
    (∃ t, Plays [.checkKernel] s t ∧ t.tree = tree ∧ t.inserts = inserts) ↔
      ∃ t u, Plays [.onlykint, .onlyinsert, .onlybzImage] s t ∧
        Execs PartShell.GoesWell [.own .startTest] (t.begin none) u ∧
        u.check.tree = tree ∧ u.check.inserts = inserts := by
  constructor
  · rintro ⟨end₁, hplays, rfl, rfl⟩
    obtain ⟨oldpwd, t, h, rfl⟩ := hplays.single_inv
    rcases h.checks rfl with ⟨hmark, -⟩ | ⟨-, u, hsame, hbody, hother⟩
    · exact absurd hmark hfresh
    have hstart : Home (s.begin oldpwd).check := ⟨hword, rfl⟩
    have hhome := hstart.of_sameFiles hsame
    have hparts : Execs PartShell.GoesWell (compileByKint.map .own ++ (insertResults.map .own ++
      (([.own .cdKernel] ++ compileKernel.map .own) ++ [.own .startTest]))) u t := hbody
    obtain ⟨t₁, hkint, hrest⟩ := hparts.split (by decide)
    obtain ⟨t₂, hinsert, hrest⟩ := hrest.split (by decide)
    obtain ⟨t₃, hfinish, hlaunch⟩ := hrest.split (by decide)
    obtain ⟨hhome₁, -⟩ := refines_compileByKint u u t₁ ⟨rfl, rfl, rfl, rfl⟩ hhome hkint
    obtain ⟨hhome₂, v₂, hinsert', hsame₂⟩ := refines_insertResults t₁ _ t₂
      (hhome₁.sameFiles_begin none) hhome₁ hinsert
    obtain ⟨hhome₃, v₃, hfinish', hsame₃⟩ := refines_finish t₂ _ t₃
      (hsame₂.trans ((hhome₂.of_sameFiles hsame₂).sameFiles_begin none)) hhome₂ hfinish
    obtain ⟨-, v₄, hlaunch', hsame₄⟩ := refines_startTest t₃ _ t
      (hsame₃.trans ((hhome₃.of_sameFiles hsame₃).sameFiles_begin none)) hhome₃ hlaunch
    exact ⟨v₃.check, v₄,
      .cons oldpwd (hother hkint) (.cons none hinsert' (.cons none hfinish' (.nil _))),
      hlaunch', hsame₄.tree, hsame₄.inserts⟩
  · rintro ⟨end₃, t₄, hplays, hlaunch, rfl, rfl⟩
    obtain ⟨oldpwd, t₁, h₁, hlater⟩ := hplays.cons_inv
    obtain ⟨oldpwd₂, t₂, h₂, hlast⟩ := hlater.cons_inv
    obtain ⟨oldpwd₃, t₃, h₃, rfl⟩ := hlast.single_inv
    rcases h₁.checks rfl with ⟨hmark, -⟩ | ⟨-, u, hsame, hkint, hother⟩
    · exact absurd hmark hfresh
    have hstart : Home (s.begin oldpwd).check := ⟨hword, rfl⟩
    have hhome := hstart.of_sameFiles hsame
    obtain ⟨hhome₁, -⟩ := refines_compileByKint u u t₁ ⟨rfl, rfl, rfl, rfl⟩ hhome hkint
    have hbegin₁ := hhome₁.sameFiles_begin oldpwd₂
    obtain ⟨hthere₂, v₂, hinsert, hsame₂⟩ := refines_onlyinsert _ t₁ t₂ hbegin₁.symm
      (hhome₁.of_sameFiles hbegin₁) h₂
    have hbegin₂ := hthere₂.toHome.sameFiles_begin oldpwd₃
    obtain ⟨hhome₃, v₃, hfinish, hsame₃⟩ := refines_onlybzImage _ v₂ t₃
      (hbegin₂.symm.trans hsame₂) ⟨hthere₂.toHome.of_sameFiles hbegin₂, hthere₂.isDir⟩ h₃
    have hbegin₃ := hhome₃.sameFiles_begin none
    obtain ⟨-, v₄, hlaunch', hsame₄⟩ := refines_startTest _ v₃ t₄ (hbegin₃.symm.trans hsame₃)
      (hhome₃.of_sameFiles hbegin₃) hlaunch
    have hwhole : Execs PartShell.GoesWell ((work ++ .cpS2e :: finish).map .own) u v₄ :=
      hkint.join (hinsert.join (hfinish.join hlaunch' (by decide)) (by decide)) (by decide)
    exact ⟨v₄.check, .cons oldpwd (hother hwhole) (.nil _), hsame₄.tree, hsame₄.inserts⟩

/-- checkKernel.sh on the small kernel. -/
def checkedOnce : Check :=
  (PartShell.runs 29 Part.checkKernel.script (freshCheck.begin none)).check

theorem plays_in_steps_iff_smallKernel :
    (∃ t, Plays [.checkKernel] freshCheck t ∧ t.tree = checkedOnce.tree ∧
        t.inserts = checkedOnce.inserts) ↔
      ∃ t u, Plays [.onlykint, .onlyinsert, .onlybzImage] freshCheck t ∧
        Execs PartShell.GoesWell [.own .startTest] (t.begin none) u ∧
        u.check.tree = checkedOnce.tree ∧ u.check.inserts = checkedOnce.inserts :=
  plays_in_steps_iff (by decide +kernel) oneWord_smallKernel

end AutoTestKernel.CheckKernel
