import AutoTestKernel.CheckKernel.Marker

/-!
# Running checkKernel.sh again

An s2e.h makes every later run skip the build.  A run that stops between the
copy of s2e.h and the end of the build therefore leaves a kernel that no later
run completes, unless a bzImage of an instrumented tree is already there.
-/

namespace AutoTestKernel.CheckKernel

open Text Pathname Shell Fs Runs

/-- A directory that unquoted expansions leave as it is. -/
structure OneWord (p : Str) : Prop where
  ne_nil : p ≠ []
  unbroken : Unbroken p
  no_pattern : Inert (p ++ ['/'])

theorem OneWord.inert {p : Str} (h : OneWord p) : Inert p := h.no_pattern.of_append

theorem OneWord.expand_eq {p : Str} (h : OneWord p) (fs : Finset Str) : expand fs p = [p] :=
  expand_of_sole h.ne_nil h.unbroken (Sole.of_inert h.inert fs)

theorem OneWord.expand_inside {p : Str} (h : OneWord p) {n : String} (hword : Unbroken n.toList)
    (hn : Flat n.toList) (hslash : ¬ ['/', '/'] <:+: '/' :: n.toList) (fs : Finset Str) :
    expand fs (inside p n) = [inside p n] := by
  have hunbroken : Unbroken (inside p n) :=
    unbroken_append.mpr ⟨h.unbroken, List.forall_mem_cons.mpr ⟨by decide, hword⟩⟩
  exact expand_of_sole (by simp [inside]) hunbroken (Sole.of_inert (h.no_pattern.join hn hslash) fs)

/-- What the script needs of a kernel, with a startTest.sh beside it. -/
structure KernelTree (t : FileTree Contents) (kernel : Str) : Prop where
  top : t.isDir kernel = true
  readme : 0 < releaseLines t kernel
  dirs : ∀ d ∈ toInsert, t.isDir (inside kernel d) = true
  starter : inside (dirName kernel) "startTest.sh" ∈ t.keys

instance (t : FileTree Contents) (kernel : Str) : Decidable (KernelTree t kernel) :=
  decidable_of_iff (t.isDir kernel = true ∧ 0 < releaseLines t kernel ∧
      (∀ d ∈ toInsert, t.isDir (inside kernel d) = true) ∧
      t.keys.contains (inside (dirName kernel) "startTest.sh") = true)
    ⟨fun ⟨h₁, h₂, h₃, h₄⟩ => ⟨h₁, h₂, h₃, List.contains_iff_mem.mp h₄⟩,
      fun ⟨h₁, h₂, h₃, h₄⟩ => ⟨h₁, h₂, h₃, List.contains_iff_mem.mpr h₄⟩⟩

def Needed (kernel k : Str) : Prop :=
  k = kernel ∨ (∃ n ∈ "README" :: toInsert, k = inside kernel n) ∨
    k = inside (dirName kernel) "startTest.sh"

/-- The files that the script itself writes. -/
def touched : List String :=
  ["include/linux/rcupdate.h.new", "include/linux/rcupdate.h",
    "arch/x86/include/asm/bitops.h", "include/s2e", "include/s2e/s2e.h",
    "arch/x86/boot/bzImage"]

theorem not_prefix_beside {k n rest : Str} (hn : '/' ∉ n) (hrest : '/' ∈ rest) :
    ¬ k ++ '/' :: rest <+: dirName k ++ '/' :: n := by
  intro h
  obtain ⟨w, hw⟩ : dirName k <+: k := (List.dropLast_prefix _).trans (List.rdropWhile_prefix _ _)
  have hshort : w ++ '/' :: rest <+: '/' :: n := by
    rw [← List.prefix_append_right_inj (dirName k), ← List.append_assoc, hw]
    exact h
  cases w with
  | nil =>
      have hn' : rest <+: n := (List.cons_prefix_cons.mp hshort).2
      exact hn (hn'.subset hrest)
  | cons c w =>
      have hn' : w ++ '/' :: rest <+: n := (List.cons_prefix_cons.mp hshort).2
      exact hn (hn'.subset (by simp))

theorem Needed.not_prefix {kernel k : Str} (h : Needed kernel k) {n : String}
    (hn : n ∈ touched) : ¬ inside kernel n <+: k := by
  have hslash : ∀ n ∈ touched, '/' ∈ n.toList := by decide
  have hapart : ∀ n ∈ touched, ∀ m ∈ "README" :: toInsert,
      ¬ '/' :: n.toList <+: '/' :: m.toList := by decide
  rcases h with rfl | ⟨m, hm, rfl⟩ | rfl
  · intro h
    have hlength := h.length_le
    simp only [inside, List.length_append, List.length_cons] at hlength
    omega
  · intro h
    exact hapart n hn m hm ((List.prefix_append_right_inj kernel).mp h)
  · exact not_prefix_beside (by decide) (hslash n hn)

/-- startTest.sh does not rename what a kernel needs. -/
theorem Needed.not_ofTests {kernel k : Str} (h : Needed kernel k) : ¬ OfTests kernel k := by
  have hnamed : ∀ n ∈ ["README", "ipv4", "core", "events", "startTest.sh"],
      '/' ∉ n.toList ∧ n.toList ∉ ["test.lua".toList, "test".toList, "testdone".toList] := by decide
  have hsplit : ∀ n ∈ "README" :: toInsert,
      ∃ m ∈ ["README", "ipv4", "core", "events", "startTest.sh"],
        hasName m.toList ('/' :: n.toList) = true := by decide
  rcases h with rfl | ⟨n, hn, rfl⟩ | rfl
  · rintro (hconfig | ⟨hbelow, hname⟩)
    · have hdir : inside (dirName k) "config/test.lua" =
          inside (dirName k) "config" ++ '/' :: "test.lua".toList := by simp [inside]
      have hshort := congrArg (List.length ∘ dirName) hconfig
      rw [hdir] at hshort
      simp only [Function.comp_apply, dirName_join (by decide : '/' ∉ "test.lua".toList), inside,
        List.length_append, List.length_cons] at hshort
      omega
    · have hapart : ∀ m ∈ ["test".toList, "testdone".toList], hasName m k = true → False := by
        intro m hm hmk
        obtain ⟨d, rfl⟩ := hasName_iff.mp hmk
        have hslash : ∀ m ∈ ["test".toList, "testdone".toList], '/' ∉ m := by decide
        have hother : ∀ m ∈ ["test".toList, "testdone".toList],
            ¬ '/' :: "tests".toList ++ ['/'] <+: '/' :: m := by decide
        rw [dirName_join (hslash m hm), inside, List.append_assoc] at hbelow
        exact hother m hm ((List.prefix_append_right_inj d).mp hbelow)
      rcases hname with hname | hname
      · exact hapart _ (by decide) hname
      · exact hapart _ (by decide) hname
  · obtain ⟨m, hm, hname⟩ := hsplit n hn
    obtain ⟨hslash, hother⟩ := hnamed m hm
    exact not_ofTests_of_hasName hslash ((hasName_inside hslash kernel n).trans hname) hother
  · obtain ⟨hslash, hother⟩ := hnamed "startTest.sh" (by decide)
    exact not_ofTests_of_hasName hslash (hasName_iff.mpr ⟨_, rfl⟩) hother

theorem KernelTree.of_kept {t t' : FileTree Contents} {kernel : Str} (h : KernelTree t kernel)
    (hkept : ∀ k n, Needed kernel k → (k, n) ∈ t.entries → (k, n) ∈ t'.entries) :
    KernelTree t' kernel where
  top := FileTree.isDir_iff.mpr (hkept _ _ (Or.inl rfl) (FileTree.isDir_iff.mp h.top))
  readme := by
    have hreadme := h.readme
    cases hget : t.get? (inside kernel "README") with
    | none => simp [releaseLines, readText, hget] at hreadme
    | some n =>
        have hneeded : Needed kernel (inside kernel "README") :=
          Or.inr (Or.inl ⟨"README", List.mem_cons_self, rfl⟩)
        have hget' := FileTree.get?_eq_some_iff.mpr
          (hkept _ _ hneeded (FileTree.get?_eq_some_iff.mp hget))
        rw [releaseLines, readText, hget] at hreadme
        rwa [releaseLines, readText, hget']
  dirs d hd := by
    apply FileTree.isDir_iff.mpr
    apply hkept
    · exact Or.inr (Or.inl ⟨d, List.mem_cons_of_mem _ hd, rfl⟩)
    · exact FileTree.isDir_iff.mp (h.dirs d hd)
  starter := by
    obtain ⟨n, hn⟩ := FileTree.mem_keys_iff.mp h.starter
    exact FileTree.mem_keys_iff.mpr ⟨n, hkept _ _ (Or.inr (Or.inr rfl)) hn⟩

theorem KernelTree.of_tests {t t' : FileTree Contents} {kernel : Str} (h : KernelTree t kernel)
    (hsame : FileTree.SameOn (fun p => ¬ OfTests kernel p) t t') : KernelTree t' kernel :=
  h.of_kept fun k n hk => (hsame k n hk.not_ofTests).mp

theorem KernelTree.put {t : FileTree Contents} {kernel : Str} (h : KernelTree t kernel)
    {n : String} (hn : n ∈ touched) (c : Contents) :
    KernelTree (t.put (inside kernel n) c) kernel := by
  apply h.of_kept
  intro k m hk hmem
  apply FileTree.mem_put_of_ne hmem
  rintro rfl
  exact hk.not_prefix hn (List.prefix_refl _)

theorem KernelTree.mkdir {t : FileTree Contents} {kernel : Str} (h : KernelTree t kernel)
    (p : Str) : KernelTree (t.mkdir p) kernel :=
  h.of_kept fun _ _ _ hmem => FileTree.mem_mkdir_of_mem hmem

theorem cwd_of_plan {kernel : Str} : ∀ x ∈ plan kernel,
    x.2 ∉ [.external .pintck, .external .insert, .cdKernel] → x.1 = kernel := by
  simp [plan, ahead, script, looks, work, finish, insertInto, toInsert, moves]

theorem toInsert_of_plan {kernel cwd : Str} {d : String} (h : (cwd, .cd d) ∈ plan kernel) :
    d ∈ toInsert := by
  have hall : ∀ x ∈ plan kernel, ∀ d, x.2 = .cd d → d ∈ toInsert := by
    simp [plan, ahead, script, looks, work, finish, insertInto, toInsert, moves]
  exact hall _ h d rfl

theorem eq_of_cons_suffix_plan {kernel : Str} {x : Str × Command} {l : List (Str × Command)}
    (h : x :: l <:+ plan kernel) (hl : l <:+ [(kernel, .startTest)]) :
    (x = (kernel, .external .bzImage) ∧ l = [(kernel, .startTest)]) ∨
      (x = (kernel, .startTest) ∧ l = []) := by
  rcases List.suffix_cons_iff.mp hl with rfl | hl
  · left
    simpa [plan, ahead, script, looks, work, finish, insertInto, toInsert, moves,
      List.suffix_cons_iff] using h
  · right
    obtain rfl := List.suffix_nil.mp hl
    simpa [plan, ahead, script, looks, work, finish, insertInto, toInsert, moves,
      List.suffix_cons_iff] using h

theorem KernelTree.launched_ne_nil {t : FileTree Contents} {kernel : Str}
    (h : KernelTree t kernel) : t.below (dirName kernel) "startTest.sh".toList ≠ [] := by
  apply List.ne_nil_of_mem (a := inside (dirName kernel) "startTest.sh")
  apply FileTree.mem_below.mpr
  refine ⟨h.starter, ?_, ?_⟩
  · exact (List.prefix_append_right_inj (dirName kernel)).mpr (by decide)
  · exact hasName_iff.mpr ⟨_, rfl⟩

theorem insert_mem_work {kernel : Str} : ∀ d ∈ toInsert, (inside kernel d, .external .insert) ∈
    ahead (moves kernel) kernel (work ++ .cpS2e :: finish) := by
  simp [ahead, work, finish, insertInto, toInsert, moves]

theorem mem_work_ne {kernel : Str} : ∀ x ∈ ahead (moves kernel) kernel (work ++ .cpS2e :: finish),
    x.2 ∉ [.testReadme, .testRelease, .testInserted] := by
  simp [ahead, work, finish, insertInto, toInsert, moves]

namespace Check

variable {s t : Check} {outside : Finset Str} {o : Outcome}

theorem exec_planned {c : Command} (hword : OneWord s.kernel)
    (hplan : (s.cwd, c) ∈ plan s.kernel) (htree : KernelTree s.tree s.kernel)
    (hkeeps : ∀ e, c = .external e → KernelTree o.tree s.kernel)
    (htests : c = .startTest → s.Tests o) :
    KernelTree (s.exec outside o c).tree s.kernel ∧
      (s.exec outside o c).cwd = moves s.kernel s.cwd c := by
  cases c with
  | countRelease | countInserted => exact ⟨htree, rfl⟩
  | startTest =>
      have hcwd : s.cwd = s.kernel := cwd_of_plan _ hplan (by simp)
      exact ⟨htree.of_tests (hcwd ▸ htests rfl), rfl⟩
  | testReadme | testRelease | testInserted =>
      simp only [exec]
      split <;> exact ⟨htree, rfl⟩
  | grepRcupdate =>
      have hcwd : s.cwd = s.kernel := cwd_of_plan _ hplan (by simp)
      simp only [exec, hcwd]
      exact ⟨htree.put (by decide) _, rfl⟩
  | mvRcupdate =>
      have hcwd : s.cwd = s.kernel := cwd_of_plan _ hplan (by simp)
      simp only [exec, hcwd]
      refine ⟨htree.of_kept fun k n hk hmem => ?_, rfl⟩
      exact FileTree.mem_mv_of_mem hmem (hk.not_prefix (by decide)) (hk.not_prefix (by decide))
  | sedBitops =>
      have hcwd : s.cwd = s.kernel := cwd_of_plan _ hplan (by simp)
      simp only [exec, hcwd]
      split
      · exact ⟨htree.put (by decide) _, rfl⟩
      · exact ⟨htree, hcwd⟩
  | cd d =>
      have hcwd : s.cwd = s.kernel := cwd_of_plan _ hplan (by simp)
      simp only [exec, hcwd, htree.dirs d (toInsert_of_plan hplan), if_true]
      exact ⟨htree, rfl⟩
  | cdKernel =>
      simp only [exec, cdArgs, hword.expand_eq, htree.top, if_true]
      exact ⟨htree, rfl⟩
  | external e =>
      cases e <;> exact ⟨hkeeps _ rfl, rfl⟩
  | mkdirS2e => exact ⟨htree.mkdir _, rfl⟩
  | cpS2e =>
      have hargs : s.cpArgs outside =
          [inside s.kernel "../config/s2e.h", inside s.kernel "include/s2e/"] := by
        rw [cpArgs, hword.expand_inside (by decide) (by decide) (by decide),
          hword.expand_inside (by decide) (by decide) (by decide)]
        rfl
      simp only [exec, cp, hargs, if_true]
      split
      · exact ⟨htree.put (by decide) _, rfl⟩
      · exact ⟨htree, rfl⟩

/-- The bzImage is there, from a tree with all three directories instrumented. -/
def GoodImage (s : Check) : Prop :=
  ∃ c, s.tree.get? (inside s.kernel "arch/x86/boot/bzImage") = some (.file c) ∧
    ∀ d ∈ toInsert, inside s.kernel d ∈ c.compiledFrom

theorem get?_bzImage_of_tests {T T' : FileTree Contents} {cwd : Str} (kernel : Str)
    (hsame : FileTree.SameOn (fun p => ¬ OfTests cwd p) T T') :
    T.get? (inside kernel "arch/x86/boot/bzImage") =
      T'.get? (inside kernel "arch/x86/boot/bzImage") := by
  have hslash : '/' ∉ "bzImage".toList := by decide
  have hname : hasName "bzImage".toList (inside kernel "arch/x86/boot/bzImage") = true :=
    (hasName_inside hslash _ _).trans (by decide)
  exact hsame.get? (not_ofTests_of_hasName hslash hname (by decide))

theorem goodImage_iff_of_tests {cwd : Str} (hkernel : t.kernel = s.kernel)
    (hsame : FileTree.SameOn (fun p => ¬ OfTests cwd p) s.tree t.tree) :
    t.GoodImage ↔ s.GoodImage := by
  rw [GoodImage, GoodImage, hkernel, get?_bzImage_of_tests s.kernel hsame]

def Keeps (s : Check) (o : Outcome) : Prop :=
  ∀ e, s.todo.head? = some (.external e) → KernelTree o.tree s.kernel

inductive NextKept (s : Check) : Check → Prop
  | command (outside : Finset Str) (o : Outcome) (h : s.Performs o) (hkeeps : s.Keeps o) :
      NextKept s (s.step outside o)
  | stop (h : s.todo ≠ []) : NextKept s s.stop
  | start (h : s.todo = []) : NextKept s s.start

inductive Succeeds (s : Check) : Check → Prop
  | command (outside : Finset Str) (o : Outcome) (h : s.Performs o) (hkeeps : s.Keeps o)
      (hok : o.ok = true) : Succeeds s (s.step outside o)

/-- A run that is not stopped and whose commands succeed comes to its end, has
started startTest.sh, and has a good bzImage. -/
def Completes (s : Check) : Prop :=
  Terminates Succeeds s.start ∧
    ∀ t, Relation.ReflTransGen Succeeds s.start t → (∀ u, ¬ t.Succeeds u) →
      t.launched ≠ [] ∧ t.GoodImage

structure Planned (s : Check) : Prop where
  word : OneWord s.kernel
  tree : KernelTree s.tree s.kernel
  path : s.path s.todo <:+ plan s.kernel

theorem exec_todo_eq {c : Command} (hc : c ∉ [.testReadme, .testRelease, .testInserted]) :
    (s.exec outside o c).todo = s.todo := by
  cases c with
  | testReadme | testRelease | testInserted => simp at hc
  | sedBitops | cd d =>
      simp only [exec]
      split <;> rfl
  | cdKernel =>
      simp only [exec]
      split
      · split <;> rfl
      · rfl
  | external e => cases e <;> rfl
  | _ => rfl

theorem exec_todo (c : Command) : (s.exec outside o c).todo = s.todo ∨
    (s.exec outside o c).todo = [] ∨
      (c = .testInserted ∧ (s.exec outside o c).todo = [.startTest]) := by
  cases c with
  | testReadme | testRelease =>
      simp only [exec]
      split <;> simp
  | testInserted =>
      simp only [exec]
      split
      · exact Or.inr (Or.inr ⟨trivial, rfl⟩)
      · exact Or.inl rfl
  | _ => exact Or.inl (exec_todo_eq (by simp))

theorem step_todo (outside : Finset Str) (o : Outcome) {c : Command} {rest : List Command}
    (h : s.todo = c :: rest) : (s.step outside o).todo = rest ∨ (s.step outside o).todo = [] ∨
      (c = .testInserted ∧ (s.step outside o).todo = [.startTest]) := by
  rw [step_of_todo h]
  exact exec_todo c

theorem exec_inserts (c : Command) : (s.exec outside o c).inserts =
    s.inserts ++ if c = .external .insert then [(s.cwd, o.ok)] else [] := by
  cases c with
  | testReadme | testRelease | testInserted | sedBitops | cd d =>
      simp only [exec]
      split <;> simp
  | cdKernel =>
      simp only [exec]
      split
      · split <;> simp
      · simp
  | external e => cases e <;> simp [exec]
  | _ => simp [exec]

theorem mem_instrumented_step {c : Command} {rest : List Command} (htodo : s.todo = c :: rest)
    {d : Str} (h : d ∈ s.instrumented ∨ (c = .external .insert ∧ o.ok = true ∧ s.cwd = d)) :
    d ∈ (s.step outside o).instrumented := by
  rw [step_of_todo htodo, instrumented, exec_inserts, List.filter_append, List.map_append,
    List.mem_append]
  apply h.imp_right
  rintro ⟨rfl, hok, rfl⟩
  simp [hok]

theorem Planned.head {c : Command} {rest : List Command} (h : s.Planned)
    (htodo : s.todo = c :: rest) :
    (s.cwd, c) :: ahead (moves s.kernel) (moves s.kernel s.cwd c) rest <:+ plan s.kernel := by
  have hpath := h.path
  rwa [htodo] at hpath

theorem Planned.step_moves (h : s.Planned) (outside : Finset Str) {c : Command}
    {rest : List Command} (htodo : s.todo = c :: rest) (hperf : s.Performs o)
    (hkeeps : s.Keeps o) :
    KernelTree (s.step outside o).tree s.kernel ∧
      (s.step outside o).cwd = moves s.kernel s.cwd c := by
  have hplan : (s.cwd, c) ∈ plan s.kernel := (h.head htodo).subset List.mem_cons_self
  rw [step_of_todo htodo]
  refine exec_planned h.word hplan h.tree (fun e he => hkeeps e ?_) fun hc => hperf.tests ?_
  · rw [htodo, he]
    rfl
  · rw [htodo, hc]
    rfl

theorem Planned.step {c : Command} {rest : List Command} (h : s.Planned)
    (htodo : s.todo = c :: rest) (hperf : s.Performs o) (hkeeps : s.Keeps o) :
    (s.step outside o).Planned := by
  have hhead := h.head htodo
  obtain ⟨htree, hcwd⟩ := h.step_moves outside htodo hperf hkeeps
  constructor
  · rw [step_kernel]
    exact h.word
  · rw [step_kernel]
    exact htree
  · rw [Check.path, step_kernel, hcwd]
    rcases step_todo outside o htodo with hrest | hnil | ⟨rfl, hskip⟩
    · rw [hrest]
      exact (List.suffix_cons _ _).trans hhead
    · rw [hnil]
      exact List.nil_suffix
    · rw [hskip]
      have htop : s.cwd = s.kernel :=
        cwd_of_plan _ (hhead.subset List.mem_cons_self) (by simp)
      change [(s.cwd, Command.startTest)] <:+ plan s.kernel
      rw [htop]
      exact ⟨(plan s.kernel).dropLast, rfl⟩

theorem Planned.next (h : s.Planned) (hnext : s.NextKept t) : t.Planned := by
  cases hnext with
  | command outside o hperf hkeeps =>
      obtain ⟨c, rest, htodo⟩ := List.exists_cons_of_ne_nil hperf.1
      exact h.step htodo hperf hkeeps
  | stop _ => exact ⟨h.word, h.tree, List.nil_suffix⟩
  | start _ => exact ⟨h.word, h.tree, List.suffix_refl _⟩

theorem Succeeds.nextKept (h : s.Succeeds t) : s.NextKept t := by
  cases h with
  | command outside o hperf hkeeps _ => exact .command outside o hperf hkeeps

theorem Planned.exists_succeeds (h : s.Planned) (htodo : s.todo ≠ []) : ∃ u, s.Succeeds u := by
  obtain ⟨c, rest, htodo⟩ := List.exists_cons_of_ne_nil htodo
  by_cases hc : c = .external .bzImage
  · have hcwd : s.cwd = s.kernel :=
      cwd_of_plan _ ((h.head htodo).subset List.mem_cons_self) (by simp [hc])
    have hname : ∀ p, hasName "s2e.h".toList p = true →
        p ≠ inside s.kernel "arch/x86/boot/bzImage" := by
      rintro p hp rfl
      exact absurd ((hasName_append (by decide)).symm.trans hp) (by decide)
    let built := s.tree.write (inside s.kernel "arch/x86/boot/bzImage")
      ⟨.empty, s.instrumented⟩
    have htree : KernelTree built s.kernel := by
      apply h.tree.of_kept
      intro k n hk hmem
      refine FileTree.mem_write.mpr (Or.inr ⟨?_, hmem⟩)
      rintro rfl
      exact hk.not_prefix (n := "arch/x86/boot/bzImage") (by decide) (List.prefix_refl _)
    refine ⟨_, .command ∅ ⟨built, true⟩ ⟨by simp [htodo], fun e _ => ⟨?_, ?_, ?_⟩, ?_⟩
      (fun _ _ => htree) rfl⟩
    · intro p hp hmarker
      exact (FileTree.mem_keys_write.mp hp).resolve_left (hname p hmarker)
    · intro p c hmem
      rcases FileTree.mem_write.mp hmem with ⟨-, heq⟩ | ⟨-, hold⟩
      · cases heq
        exact Or.inr (Or.inl rfl)
      · exact Or.inr (Or.inr ⟨p, c, hold, rfl⟩)
    · intro _ _
      rw [hcwd]
      exact ⟨_, FileTree.mem_write.mpr (Or.inl ⟨rfl, rfl⟩)⟩
    · simp [htodo, hc]
  · have himage : s.todo.head? ≠ some (.external .bzImage) := by simp [htodo, hc]
    have hbusy : s.todo ≠ [] := by simp [htodo]
    exact ⟨_, .command ∅ _ (performs_untouched hbusy himage) (fun _ _ => h.tree) rfl⟩

theorem Planned.rank_lt (h : s.Planned) (hsucc : s.Succeeds t) :
    t.todo.length < s.todo.length := by
  cases hsucc with
  | command outside o hperf _ _ =>
      obtain ⟨c, rest, htodo⟩ := List.exists_cons_of_ne_nil hperf.1
      rw [htodo]
      rcases step_todo outside o htodo with hrest | hnil | ⟨rfl, hskip⟩
      · simp [hrest]
      · simp [hnil]
      · have hmore : rest ≠ [] := by
          rintro rfl
          have hhead := h.head htodo
          simp [ahead, plan, script, looks, work, finish, insertInto, toInsert, moves,
            List.suffix_cons_iff] at hhead
        rw [hskip]
        simpa using List.length_pos_iff.mpr hmore

theorem Planned.terminates (h : s.Planned) : Terminates Succeeds s :=
  terminates_of_rank (I := Planned) (fun s => s.todo.length)
    (fun h hsucc => h.next hsucc.nextKept) (fun h hsucc => h.rank_lt hsucc) h

/-- A state of a run that starts on the files of `s` and succeeds. -/
inductive Rerun (s t : Check) : Prop
  | looking (rest : List Command) (hrest : rest <:+ looks)
      (htodo : t.todo = rest ++ .testInserted :: (work ++ .cpS2e :: finish))
      (hcwd : t.cwd = t.kernel) (hkernel : t.kernel = s.kernel) (htree : t.tree = s.tree)
      (hrelease : rest = [.testRelease, .countInserted] → 0 < t.iskernel)
      (hcount : rest = [] → (0 < t.inserted ↔ s.Marked))
  | skipping (hmark : s.Marked) (htodo : t.todo = [.startTest]) (hcwd : t.cwd = t.kernel)
      (hkernel : t.kernel = s.kernel) (htree : t.tree = s.tree)
  | skipped (hmark : s.Marked) (htodo : t.todo = []) (hkernel : t.kernel = s.kernel)
      (hsame : FileTree.SameOn (fun p => ¬ OfTests s.kernel p) s.tree t.tree)
      (hlaunch : t.launched ≠ [])
  | working (hmark : ¬ s.Marked)
      (hpath : t.path t.todo <:+ ahead (moves t.kernel) t.kernel (work ++ .cpS2e :: finish))
      (hcover : ∀ d ∈ toInsert, inside t.kernel d ∈ t.instrumented ∨
        (inside t.kernel d, .external .insert) ∈ t.path t.todo)
      (himage : t.path t.todo <:+ [(t.kernel, .startTest)] → t.GoodImage)
      (hlaunch : t.todo = [] → t.launched ≠ [])

theorem Rerun.step_looking {rest : List Command} (ht : t.Planned) (hrest : rest <:+ looks)
    (htodo : t.todo = rest ++ .testInserted :: (work ++ .cpS2e :: finish))
    (hcwd : t.cwd = t.kernel) (hkernel : t.kernel = s.kernel) (htree : t.tree = s.tree)
    (hrelease : rest = [.testRelease, .countInserted] → 0 < t.iskernel)
    (hcount : rest = [] → (0 < t.inserted ↔ s.Marked)) : s.Rerun (t.step outside o) := by
  have hreadme : 0 < releaseLines t.tree t.cwd := hcwd ▸ ht.tree.readme
  simp only [looks, List.suffix_cons_iff, List.suffix_nil] at hrest
  rcases hrest with rfl | rfl | rfl | rfl | rfl
  · have hsome : (readText t.tree (inside t.cwd "README")).isSome = true := by
      cases hread : readText t.tree (inside t.cwd "README") with
      | none => simp [releaseLines, hread] at hreadme
      | some f => rfl
    rw [step_of_todo htodo]
    simp only [exec, hsome, if_true]
    exact .looking _ (by decide) rfl hcwd hkernel htree (by simp) (by simp)
  · rw [step_of_todo htodo]
    exact .looking _ (by decide) rfl hcwd hkernel htree (fun _ => hreadme) (by simp)
  · have hsome : ¬ t.iskernel = 0 := Nat.pos_iff_ne_zero.mp (hrelease rfl)
    rw [step_of_todo htodo]
    simp only [exec, hsome, if_false]
    exact .looking _ (by decide) rfl hcwd hkernel htree (by simp) (by simp)
  · rw [step_of_todo htodo]
    refine .looking [] (by decide) rfl hcwd hkernel htree (by simp) fun _ => ?_
    change 0 < lineCount (printLines (t.tree.below t.cwd _)) ↔ s.tree.below s.kernel _ ≠ []
    rw [hcwd, hkernel, htree, lineCount_printLines_pos]
  · rw [step_of_todo htodo]
    by_cases hfound : 0 < t.inserted
    · simp only [exec, hfound, if_true]
      exact .skipping ((hcount rfl).mp hfound) rfl hcwd hkernel htree
    · simp only [exec, hfound, if_false]
      apply Rerun.working
      · exact fun hmark => hfound ((hcount rfl).mpr hmark)
      · rw [path, hcwd]
      · intro d hd
        right
        rw [path, hcwd]
        exact insert_mem_work d hd
      · intro hlast
        exact absurd hlast.length_le (by simp [path, ahead, work, insertInto, toInsert, finish])
      · intro hnil
        cases hnil

theorem Rerun.step_working (ht : t.Planned) (hmark : ¬ s.Marked) {c : Command}
    {rest : List Command} (htodo : t.todo = c :: rest) (hperf : t.Performs o)
    (hkeeps : t.Keeps o) (hok : o.ok = true)
    (hpath : t.path t.todo <:+ ahead (moves t.kernel) t.kernel (work ++ .cpS2e :: finish))
    (hcover : ∀ d ∈ toInsert, inside t.kernel d ∈ t.instrumented ∨
      (inside t.kernel d, .external .insert) ∈ t.path t.todo)
    (himage : t.path t.todo <:+ [(t.kernel, .startTest)] → t.GoodImage) :
    s.Rerun (t.step outside o) := by
  have hhead := ht.head htodo
  rw [htodo] at hpath himage hcover
  change (t.cwd, c) :: ahead (moves t.kernel) (moves t.kernel t.cwd c) rest <:+ _ at hpath
  have hposs : ∀ e, c = .external e → t.Possible e o := fun e he =>
    hperf.2 e (by rw [htodo, he]; rfl)
  have hrest : (t.step outside o).todo = rest := by
    rw [step_of_todo htodo]
    exact exec_todo_eq (mem_work_ne _ (hpath.subset List.mem_cons_self))
  have hcwd := (ht.step_moves outside htodo hperf hkeeps).2
  apply Rerun.working hmark
  · rw [path, step_kernel, hcwd, hrest]
    exact (List.suffix_cons _ _).trans hpath
  · intro d hd
    rw [path, step_kernel, hcwd, hrest]
    rcases hcover d hd with hdone | hahead
    · exact Or.inl (mem_instrumented_step htodo (Or.inl hdone))
    · rcases List.mem_cons.mp hahead with heq | hahead
      · obtain ⟨hplace, hc⟩ := Prod.mk.inj heq
        left
        apply mem_instrumented_step htodo
        exact Or.inr ⟨hc.symm, hok, hplace.symm⟩
      · exact Or.inr hahead
  · rw [path, step_kernel, hcwd, hrest, step_of_todo htodo]
    intro hlast
    rcases eq_of_cons_suffix_plan hhead hlast with ⟨heq, htail⟩ | ⟨heq, htail⟩
    · obtain ⟨hplace, rfl⟩ := Prod.mk.inj heq
      obtain ⟨text, hmem⟩ := (hposs _ rfl).bzImage rfl hok
      rw [hplace] at hmem
      refine ⟨⟨text, t.instrumented⟩, FileTree.get?_eq_some_iff.mpr hmem, fun d hd => ?_⟩
      refine (hcover d hd).resolve_right fun hahead => ?_
      change _ ∈ (t.cwd, _) :: ahead (moves t.kernel) (moves t.kernel t.cwd _) rest at hahead
      rw [htail] at hahead
      simp at hahead
    · obtain ⟨hplace, rfl⟩ := Prod.mk.inj heq
      have hsame : t.Tests o := hperf.tests (by rw [htodo]; rfl)
      have hiff : (exec outside o { t with todo := rest } .startTest).GoodImage ↔ t.GoodImage :=
        goodImage_iff_of_tests (exec_kernel _) hsame
      refine hiff.mpr (himage ?_)
      change (t.cwd, _) :: ahead (moves t.kernel) (moves t.kernel t.cwd _) rest <:+ _
      rw [htail, hplace]
  · rw [hrest, step_of_todo htodo]
    rintro rfl
    rcases eq_of_cons_suffix_plan hhead List.nil_suffix with ⟨-, htail⟩ | ⟨heq, -⟩
    · cases htail
    · obtain ⟨hplace, rfl⟩ := Prod.mk.inj heq
      change t.tree.below (dirName t.cwd) _ ≠ []
      rw [hplace]
      exact ht.tree.launched_ne_nil

theorem Rerun.next (h : s.Rerun t) (ht : t.Planned) {u : Check} (hsucc : t.Succeeds u) :
    s.Rerun u := by
  cases hsucc with
  | command outside o hperf hkeeps hok =>
      cases h with
      | looking rest hrest htodo hcwd hkernel htree hrelease hcount =>
          exact step_looking ht hrest htodo hcwd hkernel htree hrelease hcount
      | skipping hmark htodo hcwd hkernel htree =>
          have hsame : t.Tests o := hperf.tests (by rw [htodo]; rfl)
          rw [Tests, hcwd, hkernel, htree] at hsame
          rw [step_of_todo htodo]
          refine .skipped hmark rfl hkernel hsame ?_
          change t.tree.below (dirName t.cwd) _ ≠ []
          rw [hcwd]
          exact ht.tree.launched_ne_nil
      | skipped _ htodo _ _ _ => exact absurd htodo hperf.1
      | working hmark hpath hcover himage _ =>
          obtain ⟨c, rest, htodo⟩ := List.exists_cons_of_ne_nil hperf.1
          exact step_working ht hmark htodo hperf hkeeps hok hpath hcover himage

theorem Planned.start (h : s.Planned) : s.start.Planned :=
  ⟨h.word, h.tree, List.suffix_refl _⟩

theorem Planned.rerun (h : s.Planned) (hrun : Relation.ReflTransGen Succeeds s.start t) :
    t.Planned ∧ s.Rerun t := by
  apply preserved (I := fun t => t.Planned ∧ s.Rerun t) ?_ hrun
  · refine ⟨h.start, ?_⟩
    exact .looking looks (List.suffix_refl looks) rfl rfl rfl rfl (by simp [looks])
      (by simp [looks])
  · exact fun ht hsucc => ⟨ht.1.next hsucc.nextKept, ht.2.next ht.1 hsucc⟩

/-- Where a run that succeeds comes to. -/
theorem Planned.at_end (h : s.Planned) (hrun : Relation.ReflTransGen Succeeds s.start t)
    (hlast : ∀ u, ¬ t.Succeeds u) :
    t.launched ≠ [] ∧ (s.Marked → (t.GoodImage ↔ s.GoodImage)) ∧ (¬ s.Marked → t.GoodImage) := by
  obtain ⟨ht, hrerun⟩ := h.rerun hrun
  have hnil : t.todo = [] := by
    by_contra hne
    obtain ⟨u, hu⟩ := ht.exists_succeeds hne
    exact hlast u hu
  cases hrerun with
  | looking rest _ htodo _ _ _ _ _ => simp [htodo] at hnil
  | skipping _ htodo _ _ _ => simp [htodo] at hnil
  | skipped hmark _ hkernel hsame hlaunch =>
      exact ⟨hlaunch, fun _ => goodImage_iff_of_tests hkernel hsame, fun hno => absurd hmark hno⟩
  | working hmark _ _ himage hlaunch =>
      refine ⟨hlaunch hnil, fun hyes => absurd hyes hmark, fun _ => ?_⟩
      apply himage
      rw [hnil]
      exact List.nil_suffix

theorem Planned.completes (h : s.Planned) (hgood : ¬ s.Marked ∨ s.GoodImage) : s.Completes := by
  refine ⟨h.start.terminates, fun t hrun hlast => ?_⟩
  obtain ⟨hlaunch, hmarked, hunmarked⟩ := h.at_end hrun hlast
  refine ⟨hlaunch, ?_⟩
  by_cases hmark : s.Marked
  · exact (hmarked hmark).mpr (hgood.resolve_left fun hno => hno hmark)
  · exact hunmarked hmark

theorem Planned.goodImage_of_completes (h : s.Planned) (hmark : s.Marked)
    (hcompletes : s.Completes) : s.GoodImage := by
  obtain ⟨t, hrun, hlast⟩ := hcompletes.1.exists_last
  exact ((h.at_end hrun hlast).2.1 hmark).mp (hcompletes.2 t hrun hlast).2

theorem planned_of_run {kernel : Str} {tree : FileTree Contents} (hword : OneWord kernel)
    (hkernel : KernelTree tree kernel)
    (hrun : Relation.ReflTransGen NextKept { kernel, tree, cwd := kernel } s) : s.Planned :=
  preserved (fun h hnext => Planned.next h hnext) hrun ⟨hword, hkernel, List.nil_suffix⟩

end Check

/-- Whatever runs were stopped where, one more run completes exactly when there
is no s2e.h yet, or a bzImage of an instrumented tree already. -/
theorem completes_iff {kernel : Str} {tree : FileTree Contents} {s : Check}
    (hword : OneWord kernel) (hkernel : KernelTree tree kernel)
    (hrun : Relation.ReflTransGen Check.NextKept { kernel, tree, cwd := kernel } s) :
    s.Completes ↔ ¬ s.Marked ∨ s.GoodImage := by
  have h := Check.planned_of_run hword hkernel hrun
  constructor
  · intro hcompletes
    by_cases hmark : s.Marked
    · exact Or.inr (h.goodImage_of_completes hmark hcompletes)
    · exact Or.inl hmark
  · exact h.completes

theorem oneWord_smallKernel : OneWord "/k".toList :=
  ⟨by decide, by decide, by decide⟩

theorem kernelTree_smallKernel : KernelTree smallKernel "/k".toList :=
  ⟨by decide +kernel, by decide +kernel, by decide +kernel, by decide +kernel⟩

theorem completes_iff_smallKernel : freshCheck.Completes :=
  (completes_iff oneWord_smallKernel kernelTree_smallKernel .refl).mpr
    (Or.inl (by decide +kernel))

theorem Check.Smooth.reaches_kept {n : ℕ} {s : Check} (h : Check.Smooth n s) (hs : s.Planned) :
    Relation.ReflTransGen Check.NextKept s (Check.runs n s) := by
  induction n generalizing s with
  | zero => exact .refl
  | succ n ih =>
      obtain ⟨⟨c, hc, hne, -⟩, hrest⟩ := h
      obtain ⟨rest, htodo⟩ := List.head?_eq_some_iff.mp hc
      have hkeeps : s.Keeps ⟨s.tree, true⟩ := fun _ _ => hs.tree
      have hperf : s.Performs ⟨s.tree, true⟩ :=
        performs_untouched (by simp [htodo]) (by simp [htodo, hne])
      exact .head (.command ∅ _ hperf hkeeps) (ih hrest (hs.step htodo hperf hkeeps))

/-- The first run is stopped when it has copied s2e.h; there is no bzImage, and
no later run makes one. -/
theorem completes_fails_after_copy :
    ¬ ∀ (kernel : Str) (tree : FileTree Contents) (s : Check), OneWord kernel →
      KernelTree tree kernel → tree.below kernel "s2e.h".toList = [] →
      Relation.ReflTransGen Check.NextKept { kernel, tree, cwd := kernel } s →
      s.Completes := by
  intro hclaim
  let copied := Check.runs 24 freshCheck.start
  have hfresh : freshCheck.Planned :=
    ⟨oneWord_smallKernel, kernelTree_smallKernel, List.nil_suffix⟩
  have hcopied : Relation.ReflTransGen Check.NextKept freshCheck copied :=
    .head (.start rfl) (Check.Smooth.reaches_kept (by decide +kernel) hfresh.start)
  have hrun : Relation.ReflTransGen Check.NextKept freshCheck copied.stop :=
    hcopied.tail (.stop (by decide +kernel))
  have hcompletes := hclaim _ _ _ oneWord_smallKernel kernelTree_smallKernel
    (by decide +kernel) hrun
  have hplanned := Check.planned_of_run oneWord_smallKernel kernelTree_smallKernel hrun
  obtain ⟨c, hc, -⟩ := hplanned.goodImage_of_completes (by decide +kernel) hcompletes
  have hnone : copied.tree.get? (inside "/k".toList "arch/x86/boot/bzImage") = none := by
    decide +kernel
  exact absurd (hnone.symm.trans hc) (by simp)

/-! ## No way back -/

def wanted (cwd : Str) : List (Str × String) :=
  [(inside cwd "arch/x86/boot/bzImage", "arch/x86/boot/bzImage"),
    (inside (dirName cwd) "s2e/build/qemu-release/i386-s2e-softmmu/qemu-system-i386",
      "../s2e/build/qemu-release/i386-s2e-softmmu/qemu-system-i386"),
    (inside (dirName cwd) "config/test.lua", "../config/test.lua"),
    (inside (dirName cwd) "img/debian6.0.5.qcow2", "../img/debian6.0.5.qcow2")]

/-- `[ -d $testsPath ]`, where `several` is what `[` makes of an expansion into
several words. -/
def hasTests (several : List Str → Bool) (outside : Finset Str) (t : FileTree Contents)
    (cwd : Str) : Bool :=
  match expand (t.keys.toFinset ∪ outside) (inside cwd "../tests") with
  | [w] => if w = inside cwd "../tests" then t.isDir (inside (dirName cwd) "tests") else t.isDir w
  | ws => several ws

def refusal (several : List Str → Bool) (outside : Finset Str) (t : FileTree Contents)
    (cwd : Str) : Option String :=
  if (readText t (inside cwd "README")).isNone ∨ releaseLines t cwd = 0 then
    some "========== Not in kernel"
  else
    match (wanted cwd).find? fun x => (readText t x.1).isNone with
    | some x => some (x.2 ++ " not exist, check it please!")
    | none => if hasTests several outside t cwd then none else some "no tests"

namespace Check

/-- There is an s2e.h, and nothing else has changed than what startTest.sh writes. -/
structure Stuck (s t : Check) : Prop where
  kernel_eq : t.kernel = s.kernel
  marked : t.Marked
  same : FileTree.SameOn (fun p => ¬ OfTests s.kernel p) s.tree t.tree

inductive Frozen (s t : Check) : Prop
  | idle (htodo : t.todo = []) (hstuck : s.Stuck t)
  | looking (rest : List Command) (hrest : rest <:+ looks)
      (htodo : t.todo = rest ++ .testInserted :: (work ++ .cpS2e :: finish))
      (hcwd : t.cwd = t.kernel) (hstuck : s.Stuck t) (hcount : rest = [] → 0 < t.inserted)
  | skipping (htodo : t.todo = [.startTest]) (hcwd : t.cwd = t.kernel) (hstuck : s.Stuck t)

variable {s t u : Check}

theorem Frozen.step_looking {outside : Finset Str} {o : Outcome} {rest : List Command}
    (hrest : rest <:+ looks)
    (htodo : t.todo = rest ++ .testInserted :: (work ++ .cpS2e :: finish))
    (hcwd : t.cwd = t.kernel) (hstuck : s.Stuck t) (hcount : rest = [] → 0 < t.inserted) :
    s.Frozen (t.step outside o) := by
  obtain ⟨hkernel, hmark, hsame⟩ := hstuck
  have hfound : 0 < lineCount (printLines (t.tree.below t.cwd "s2e.h".toList)) := by
    rw [hcwd]
    exact lineCount_printLines_pos.mpr hmark
  simp only [looks, List.suffix_cons_iff, List.suffix_nil] at hrest
  rcases hrest with rfl | rfl | rfl | rfl | rfl
  · rw [step_of_todo htodo]
    simp only [exec]
    split
    · exact .looking _ (by decide) rfl hcwd ⟨hkernel, hmark, hsame⟩ (by simp)
    · exact .idle rfl ⟨hkernel, hmark, hsame⟩
  · rw [step_of_todo htodo]
    exact .looking _ (by decide) rfl hcwd ⟨hkernel, hmark, hsame⟩ (by simp)
  · rw [step_of_todo htodo]
    simp only [exec]
    split
    · exact .idle rfl ⟨hkernel, hmark, hsame⟩
    · exact .looking _ (by decide) rfl hcwd ⟨hkernel, hmark, hsame⟩ (by simp)
  · rw [step_of_todo htodo]
    exact .looking [] (by decide) rfl hcwd ⟨hkernel, hmark, hsame⟩ fun _ => hfound
  · rw [step_of_todo htodo]
    simp only [exec, hcount, if_true]
    exact .skipping rfl hcwd ⟨hkernel, hmark, hsame⟩

theorem Frozen.stuck (h : s.Frozen t) : s.Stuck t := by
  cases h with
  | idle _ hstuck => exact hstuck
  | looking _ _ _ _ hstuck _ => exact hstuck
  | skipping _ _ hstuck => exact hstuck

theorem Frozen.next (h : s.Frozen t) (hnext : t.Next u) : s.Frozen u := by
  obtain ⟨hkernel, hmark, hsame⟩ := h.stuck
  cases hnext with
  | command outside o hperf =>
      cases h with
      | idle htodo _ => exact absurd htodo hperf.busy
      | looking rest hrest htodo hcwd hstuck hcount =>
          exact step_looking hrest htodo hcwd hstuck hcount
      | skipping htodo hcwd _ =>
          have htests : t.Tests o := hperf.tests (by rw [htodo]; rfl)
          rw [step_of_todo htodo]
          refine .idle rfl ⟨hkernel, (marked_of_tests htests).mpr hmark, hsame.trans ?_⟩
          rwa [Tests, hcwd, hkernel] at htests
  | stop _ => exact .idle rfl ⟨hkernel, hmark, hsame⟩
  | start _ =>
      exact .looking looks (List.suffix_refl looks) rfl rfl ⟨hkernel, hmark, hsame⟩
        (by simp [looks])

end Check

theorem readText_of_same {part : Str → Prop} {T T' : FileTree Contents}
    (hsame : FileTree.SameOn part T T') {p : Str} (hp : part p) :
    readText T p = readText T' p := by
  rw [readText, readText, hsame.get? hp]

/-- Once a run has left an s2e.h and no bzImage, startTest.sh refuses after
every sequence of further runs. -/
theorem refuses_forever {s t : Check} (several : List Str → Bool) (outside : Finset Str)
    (hs : s.todo = []) (hmark : s.Marked) (hreadme : 0 < releaseLines s.tree s.kernel)
    (himage : readText s.tree (inside s.kernel "arch/x86/boot/bzImage") = none)
    (hrun : Relation.ReflTransGen Check.Next s t) :
    refusal several outside t.tree t.kernel =
      some "arch/x86/boot/bzImage not exist, check it please!" := by
  have hfrozen : s.Frozen t := by
    apply preserved (fun h hnext => Check.Frozen.next h hnext) hrun
    exact .idle hs ⟨rfl, hmark, FileTree.SameOn.refl _⟩
  obtain ⟨hkernel, -, hsame⟩ := hfrozen.stuck
  have himage' : readText t.tree (inside s.kernel "arch/x86/boot/bzImage") = none := by
    rwa [readText, ← Check.get?_bzImage_of_tests s.kernel hsame]
  have hneeded : Needed s.kernel (inside s.kernel "README") :=
    Or.inr (Or.inl ⟨"README", List.mem_cons_self, rfl⟩)
  rw [releaseLines, readText_of_same hsame hneeded.not_ofTests] at hreadme
  cases hread : readText t.tree (inside s.kernel "README") with
  | none => simp [hread] at hreadme
  | some f =>
      have hlines : ¬ releaseLines t.tree s.kernel = 0 := by
        rw [releaseLines]
        exact Nat.pos_iff_ne_zero.mp hreadme
      simp [refusal, hkernel, hread, wanted, himage', hlines]

/-- A second run finds the s2e.h of a first one that was stopped after its copy. -/
theorem refuses_forever_smallKernel :
    refusal (fun _ => false) ∅ (Check.runs 5 (Check.runs 24 freshCheck.start).stop.start).tree
        "/k".toList = some "arch/x86/boot/bzImage not exist, check it please!" := by
  have hstopped : (Check.runs 24 freshCheck.start).stop.Marked ∧
      0 < releaseLines (Check.runs 24 freshCheck.start).stop.tree "/k".toList ∧
      readText (Check.runs 24 freshCheck.start).stop.tree
        (inside "/k".toList "arch/x86/boot/bzImage") = none := by decide +kernel
  obtain ⟨hmark, hreadme, himage⟩ := hstopped
  exact refuses_forever (fun _ => false) ∅ rfl hmark hreadme himage
    (.head (.start rfl) (Check.Smooth.reaches_next (by decide +kernel)))

end AutoTestKernel.CheckKernel
