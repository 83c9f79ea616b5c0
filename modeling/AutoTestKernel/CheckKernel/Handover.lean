import AutoTestKernel.CheckKernel.Rerun
import AutoTestKernel.StartTest.Refinement

/-!
# From checkKernel.sh to startTest.sh

Both scripts work in the directory of the kernel, with the tests and the tools
in directories beside it.  Up to its last command checkKernel.sh keeps to the
kernel whatever happens to it, so startTest.sh finds there what was there before,
and a bzImage; and what startTest.sh then does is known from its sessions.
-/

namespace AutoTestKernel.CheckKernel

open Text Shell Fs Runs

/-! ## Beside the kernel -/

def Within (d p : Str) : Prop := p = d ∨ d ++ ['/'] <+: p

def Beside (kernel p : Str) : Prop := ¬ Within kernel p

instance (d p : Str) : Decidable (Within d p) := inferInstanceAs (Decidable (_ ∨ _))

instance (kernel p : Str) : Decidable (Beside kernel p) := inferInstanceAs (Decidable (¬ _))

section Within

variable {kernel cwd p : Str}

theorem within_iff {d : Str} :
    Within d p ↔ ∃ rest, (rest = [] ∨ ['/'] <+: rest) ∧ p = d ++ rest := by
  constructor
  · rintro (rfl | ⟨rest, rfl⟩)
    · exact ⟨[], Or.inl rfl, (List.append_nil _).symm⟩
    · exact ⟨['/'] ++ rest, Or.inr (List.prefix_append _ _), List.append_assoc _ _ _⟩
  · rintro ⟨rest, rfl | hrest, rfl⟩
    · exact Or.inl (List.append_nil d)
    · exact Or.inr ((List.prefix_append_right_inj d).mpr hrest)

theorem Within.slash_prefix (h : Within kernel cwd) : kernel ++ ['/'] <+: cwd ++ ['/'] := by
  rcases h with rfl | h
  · exact List.prefix_refl _
  · exact h.trans (List.prefix_append cwd ['/'])

theorem slash_prefix_inside (cwd : Str) (n : String) : cwd ++ ['/'] <+: inside cwd n :=
  (List.prefix_append_right_inj cwd).mpr (by simp)

theorem Within.inside (h : Within kernel cwd) (n : String) : Within kernel (inside cwd n) :=
  Or.inr (h.slash_prefix.trans (slash_prefix_inside cwd n))

theorem Beside.not_prefix (hp : Beside kernel p) (hcwd : Within kernel cwd) (n : String) :
    ¬ inside cwd n <+: p := fun h =>
  hp (Or.inr ((hcwd.slash_prefix.trans (slash_prefix_inside cwd n)).trans h))

theorem within_dirName (h : kernel ++ ['/'] <+: cwd) : Within kernel (dirName cwd) := by
  obtain ⟨rest, rfl⟩ := h
  by_cases hslash : '/' ∈ rest
  · obtain ⟨n, d, hsplit, hn⟩ := List.eq_append_cons_of_mem (List.mem_reverse.mpr hslash)
    have hrest : rest = d.reverse ++ '/' :: n.reverse := by
      rw [← List.reverse_reverse rest, hsplit]
      simp
    have hlast : '/' ∉ n.reverse := fun hmem => hn (List.mem_reverse.mp hmem)
    right
    rw [hrest, ← List.append_assoc, dirName_join hlast]
    exact List.prefix_append _ _
  · left
    rw [List.append_assoc, List.singleton_append, dirName_join hslash]

/-- Started from below the kernel, startTest.sh would stay there. -/
theorem OfTests.of_within (h : OfTests cwd p) (hcwd : Within kernel cwd) (hp : Beside kernel p) :
    OfTests kernel p := by
  rcases hcwd with rfl | hbelow
  · exact h
  · have hdir := within_dirName hbelow
    rcases h with rfl | ⟨htests, -⟩
    · exact absurd (hdir.inside _) hp
    · have hno := hp.not_prefix hdir "tests"
      exact absurd ((List.prefix_append _ _).trans htests) hno

end Within

namespace Check

variable {s t : Check} {outside : Finset Str} {o : Outcome}

/-- Wherever the script has come to, its own commands write below the kernel. -/
theorem exec_beside {part : Str → Prop} {c : Command} (hpart : ∀ q, part q → Beside s.kernel q)
    (hword : OneWord s.kernel) (hcwd : Within s.kernel s.cwd)
    (hneat : ∀ e, c = .external e → FileTree.SameOn part s.tree o.tree)
    (htests : c = .startTest → FileTree.SameOn part s.tree o.tree) :
    FileTree.SameOn part s.tree (s.exec outside o c).tree ∧
      Within s.kernel (s.exec outside o c).cwd := by
  have hinside : ∀ n, ¬ part (inside s.cwd n) := fun n h => hpart _ h (hcwd.inside n)
  have hsame : FileTree.SameOn part s.tree s.tree := FileTree.SameOn.refl s.tree
  cases c with
  | countRelease | countInserted => exact ⟨hsame, hcwd⟩
  | startTest => exact ⟨htests rfl, hcwd⟩
  | testReadme | testRelease | testInserted =>
      simp only [exec]
      split <;> exact ⟨hsame, hcwd⟩
  | grepRcupdate => exact ⟨FileTree.sameOn_put (hinside _), hcwd⟩
  | mvRcupdate =>
      have hno : ∀ n q, part q → ¬ inside s.cwd n <+: q := fun n q hq =>
        Beside.not_prefix (hpart q hq) hcwd n
      exact ⟨FileTree.sameOn_mv (hno _) (hno _), hcwd⟩
  | sedBitops =>
      simp only [exec]
      split
      · exact ⟨FileTree.sameOn_put (hinside _), hcwd⟩
      · exact ⟨hsame, hcwd⟩
  | cd d =>
      simp only [exec]
      split
      · exact ⟨hsame, hcwd.inside d⟩
      · exact ⟨hsame, hcwd⟩
  | cdKernel =>
      simp only [exec, cdArgs, hword.expand_eq]
      split
      · exact ⟨hsame, Or.inl rfl⟩
      · exact ⟨hsame, hcwd⟩
  | external e => cases e <;> exact ⟨hneat _ rfl, hcwd⟩
  | mkdirS2e => exact ⟨FileTree.sameOn_mkdir (hinside _), hcwd⟩
  | cpS2e =>
      have hargs : s.cpArgs outside =
          [inside s.kernel "../config/s2e.h", inside s.kernel "include/s2e/"] := by
        rw [cpArgs, hword.expand_inside (by decide) (by decide) (by decide),
          hword.expand_inside (by decide) (by decide) (by decide)]
        rfl
      simp only [exec, cp, hargs, if_true]
      split
      · have hkernel : Within s.kernel (inside s.kernel "include/s2e/s2e.h") :=
          Within.inside (Or.inl rfl) _
        exact ⟨FileTree.sameOn_put fun h => hpart _ h hkernel, hcwd⟩
      · exact ⟨hsame, hcwd⟩

/-- The programs from elsewhere keep to the kernel as well. -/
def Neat (s : Check) (o : Outcome) : Prop :=
  ∀ e, s.todo.head? = some (.external e) → FileTree.SameOn (Beside s.kernel) s.tree o.tree

inductive NextNeat (s : Check) : Check → Prop
  | command (outside : Finset Str) (o : Outcome) (h : s.Performs o) (hneat : s.Neat o) :
      NextNeat s (s.step outside o)
  | stop (h : s.todo ≠ []) : NextNeat s s.stop
  | start (h : s.todo = []) : NextNeat s s.start

/-- What is beside the kernel is as it was in `tree`, but for what startTest.sh
writes. -/
structure Kept (kernel : Str) (tree : FileTree Contents) (s : Check) : Prop where
  kernel_eq : s.kernel = kernel
  cwd : Within kernel s.cwd
  same : FileTree.SameOn (fun p => Beside kernel p ∧ ¬ OfTests kernel p) tree s.tree

theorem Kept.next {kernel : Str} {tree : FileTree Contents} (h : s.Kept kernel tree)
    (hword : OneWord kernel) (hnext : s.NextNeat t) : t.Kept kernel tree := by
  obtain ⟨rfl, hcwd, hsame⟩ := h
  cases hnext with
  | command outside o hperf hneat =>
      obtain ⟨c, rest, htodo⟩ := List.exists_cons_of_ne_nil hperf.busy
      obtain ⟨hsame', hcwd'⟩ :
          FileTree.SameOn (fun p => Beside s.kernel p ∧ ¬ OfTests s.kernel p) s.tree
            (s.step outside o).tree ∧ Within s.kernel (s.step outside o).cwd := by
        rw [step_of_todo htodo]
        refine exec_beside (s := { s with todo := rest }) (fun _ hq => hq.1) hword hcwd ?_ ?_
        · intro e he
          exact (hneat e (by rw [htodo, he]; rfl)).mono fun _ hq => hq.1
        · intro hc
          have htests : s.Tests o := hperf.tests (by rw [htodo, hc]; rfl)
          exact htests.mono fun q hq htest => hq.2 (htest.of_within hcwd hq.1)
      exact ⟨step_kernel, hcwd', hsame.trans hsame'⟩
  | stop _ => exact ⟨rfl, hcwd, hsame⟩
  | start _ => exact ⟨rfl, Or.inl rfl, hsame⟩

end Check

/-- What is below tests/, spelled as `find ${nowPath}/../tests` spells it. -/
def testsTree (t : FileTree Contents) (cwd : Str) : FileTree Contents :=
  t.spelled (inside (dirName cwd) "tests") (inside cwd "../tests")

/-- startTest.sh up to its first loop: what it says when it exits, or the
session that begins. -/
def startTest (several : List Str → Bool) (outside : Finset Str) (t : FileTree Contents)
    (cwd : Str) : Except String (StartTest.Session Contents) :=
  match refusal several outside t cwd with
  | some message => .error message
  | none => .ok
      { tree := testsTree t cwd
        config := (readText t (inside (dirName cwd) "config/test.lua")).getD .empty }

theorem mem_testsTree {t : FileTree Contents} {cwd rest : Str} {n : Node Contents}
    (hrest : rest = [] ∨ ['/'] <+: rest) :
    (inside cwd "../tests" ++ rest, n) ∈ (testsTree t cwd).entries ↔
      (inside (dirName cwd) "tests" ++ rest, n) ∈ t.entries := by
  rw [testsTree, FileTree.mem_spelled]
  constructor
  · rintro ⟨rest', -, heq, hmem⟩
    rwa [List.append_cancel_left heq]
  · exact fun hmem => ⟨rest, hrest, rfl, hmem⟩

/-- Below tests/ the name of a file is the same in both spellings. -/
theorem names_of_spelled {cwd rest : Str} (hrest : rest = [] ∨ ['/'] <+: rest)
    (h : ¬ OfTests cwd (inside (dirName cwd) "tests" ++ rest)) :
    hasName StartTest.testName (inside cwd "../tests" ++ rest) = false ∧
      hasName StartTest.doneName (inside cwd "../tests" ++ rest) = false := by
  have hslash : ∀ m ∈ [StartTest.testName, StartTest.doneName], '/' ∉ m := by decide
  have htop : ∀ m ∈ [StartTest.testName, StartTest.doneName],
      hasName m ('/' :: "../tests".toList) = false := by decide
  rcases hrest with rfl | ⟨r, rfl⟩
  · rw [List.append_nil, hasName_inside (hslash _ (by simp)), hasName_inside (hslash _ (by simp))]
    exact ⟨htop _ (by simp), htop _ (by simp)⟩
  · have hsame : ∀ m ∈ [StartTest.testName, StartTest.doneName],
        hasName m (inside cwd "../tests" ++ (['/'] ++ r)) =
          hasName m (inside (dirName cwd) "tests" ++ (['/'] ++ r)) := fun m hm =>
      (hasName_append (hslash m hm)).trans (hasName_append (hslash m hm)).symm
    have hbelow : inside (dirName cwd) "tests" ++ ['/'] <+:
        inside (dirName cwd) "tests" ++ (['/'] ++ r) := by
      rw [← List.append_assoc]
      exact List.prefix_append _ _
    rw [hsame _ (by simp), hsame _ (by simp), Bool.eq_false_iff, Bool.eq_false_iff]
    exact ⟨fun htest => h (Or.inr ⟨hbelow, Or.inl htest⟩),
      fun hdone => h (Or.inr ⟨hbelow, Or.inr hdone⟩)⟩

/-- What a session leaves behind: its tests below tests/, and outside of them its
configuration and nothing else. -/
structure Check.LeftBy (s : Check) (u : StartTest.Session Contents) (o : Outcome) : Prop where
  config : readText o.tree (inside (dirName s.cwd) "config/test.lua") = some u.config
  tests : ∀ q n, (q, n) ∈ u.tree.entries ↔ (q, n) ∈ (testsTree o.tree s.cwd).entries
  others : FileTree.SameOn (fun p => p ≠ inside (dirName s.cwd) "config/test.lua" ∧
    ¬ Within (inside (dirName s.cwd) "tests") p) s.tree o.tree

theorem startTest_tree {several : List Str → Bool} {outside : Finset Str}
    {t : FileTree Contents} {cwd : Str} {session : StartTest.Session Contents}
    (h : startTest several outside t cwd = .ok session) :
    ∃ config, session = { tree := testsTree t cwd, config } := by
  unfold startTest at h
  split at h
  · cases h
  · exact ⟨_, (Except.ok.inj h).symm⟩

/-- checkKernel.sh may rely on what it knows of startTest.sh, also where its
sessions are killed. -/
theorem tests_of_session {s : Check} {several : List Str → Bool} {outside : Finset Str}
    {more : Str → Option (TextFile → TextFile)} {session u : StartTest.Session Contents}
    {o : Outcome} (htidy : StartTest.Tidy (testsTree s.tree s.cwd))
    (hstart : startTest several outside s.tree s.cwd = .ok session)
    (hrun : Relation.ReflTransGen (StartTest.Session.NextOrKill more) session u)
    (hleft : s.LeftBy u o) : s.Tests o := by
  obtain ⟨config, rfl⟩ := startTest_tree hstart
  have hsession : u.Coherent ∧ FileTree.SameOn (fun p => hasName StartTest.testName p = false ∧
      hasName StartTest.doneName p = false) (testsTree s.tree s.cwd) u.tree := by
    apply preserved (I := fun u : StartTest.Session Contents => u.Coherent ∧ FileTree.SameOn
      (fun p => hasName StartTest.testName p = false ∧ hasName StartTest.doneName p = false)
        (testsTree s.tree s.cwd) u.tree) ?_ hrun
    · exact ⟨StartTest.Session.coherent_start htidy config, FileTree.SameOn.refl _⟩
    · rintro u v ⟨hu, hsame⟩ (hnext | ⟨-, rfl⟩)
      · exact ⟨hu.next hnext, hsame.trans (hu.move hnext).sameOn⟩
      · exact ⟨hu.restart, hsame⟩
  intro p n hp
  by_cases hwithin : Within (inside (dirName s.cwd) "tests") p
  · obtain ⟨rest, hrest, rfl⟩ := within_iff.mp hwithin
    rw [← mem_testsTree hrest, hsession.2 _ n (names_of_spelled hrest hp), hleft.tests,
      mem_testsTree hrest]
  · exact hleft.others p n ⟨fun hconfig => hp (Or.inl hconfig), hwithin⟩

/-- What startTest.sh needs besides a kernel, in directories beside it. -/
structure Laboratory (t : FileTree Contents) (kernel : Str) : Prop where
  files : ∀ x ∈ (wanted kernel).tail, (readText t x.1).isSome = true
  tests : t.isDir (inside (dirName kernel) "tests") = true
  beside : ∀ n ∈ ["s2e", "config", "img", "tests"], ∀ p,
    Within (inside (dirName kernel) n) p → Beside kernel p

section Laboratory

variable {kernel : Str} {t t' : FileTree Contents}

theorem Laboratory.mem_testsTree (h : Laboratory t kernel)
    (hsame : FileTree.SameOn (Beside kernel) t t') (q : Str) (n : Node Contents) :
    (q, n) ∈ (testsTree t kernel).entries ↔ (q, n) ∈ (testsTree t' kernel).entries := by
  simp only [testsTree, FileTree.mem_spelled]
  refine exists_congr fun rest => and_congr_right fun hrest => and_congr_right fun _ => ?_
  exact hsame _ n (h.beside "tests" (by decide) _ (within_iff.mpr ⟨rest, hrest, rfl⟩))

end Laboratory

/-! ## The handover -/

namespace Check

variable {s t u : Check}

/-- Before startTest.sh nothing beside the kernel has changed. -/
structure Before (s t : Check) : Prop where
  planned : t.Planned
  kernel_eq : t.kernel = s.kernel
  cwd : Within s.kernel t.cwd
  same : t.todo ≠ [] → FileTree.SameOn (Beside s.kernel) s.tree t.tree

theorem Before.next (h : s.Before t) (hsucc : t.Succeeds u) (hneat : t.NextNeat u) :
    s.Before u := by
  obtain ⟨hplanned, hkernel, hcwd, hsame⟩ := h
  have hbusy : t.todo ≠ [] := by
    cases hsucc with
    | command outside o hperf _ _ => exact hperf.busy
  have hnext := hplanned.next hsucc.nextKept
  rw [← hkernel] at hcwd hsame
  cases hneat with
  | command outside o hperf hneat =>
      obtain ⟨c, rest, htodo⟩ := List.exists_cons_of_ne_nil hbusy
      have hhead := hplanned.head htodo
      have hstep : t.step outside o = { t with todo := rest }.exec outside o c :=
        step_of_todo htodo
      by_cases hc : c = .startTest
      · subst hc
        obtain rfl : rest = [] := by
          cases rest with
          | nil => rfl
          | cons c' rest =>
              simp [ahead, plan, script, looks, work, finish, insertInto, toInsert, moves,
                List.suffix_cons_iff] at hhead
        refine ⟨hnext, step_kernel.trans hkernel, ?_, fun hmore => ?_⟩
        · rw [hstep, ← hkernel]
          exact hcwd
        · rw [hstep] at hmore
          exact absurd rfl hmore
      · have hbeside : FileTree.SameOn (Beside t.kernel) t.tree
            ({ t with todo := rest }.exec outside o c).tree ∧
              Within t.kernel ({ t with todo := rest }.exec outside o c).cwd :=
          exec_beside (s := { t with todo := rest }) (fun _ hq => hq) hplanned.word hcwd
            (fun e he => hneat e (by rw [htodo, he]; rfl)) fun h => absurd h hc
        refine ⟨hnext, step_kernel.trans hkernel, ?_, fun _ => ?_⟩
        · rw [hstep, ← hkernel]
          exact hbeside.2
        · rw [hstep, ← hkernel]
          exact (hsame hbusy).trans hbeside.1
  | stop _ => exact ⟨hnext, hkernel, hkernel ▸ hcwd, fun hmore => absurd rfl hmore⟩
  | start hnil => exact absurd hnil hbusy

end Check

def smallLaboratory : FileTree Contents where
  entries := smallKernel.entries ++
    [("/config/test.lua".toList, .file ⟨StartTest.hostFiles, []⟩), ("/img".toList, .dir),
      ("/img/debian6.0.5.qcow2".toList, .file ⟨.empty, []⟩), ("/s2e".toList, .dir),
      ("/s2e/build/qemu-release/i386-s2e-softmmu/qemu-system-i386".toList, .file ⟨.empty, []⟩),
      ("/tests".toList, .dir), ("/tests/socket".toList, .dir),
      ("/tests/socket/test".toList, .file ⟨.empty, []⟩)]
  nodup := by decide +kernel

namespace Check

def laboratoryCheck : Check :=
  { kernel := "/k".toList, tree := smallLaboratory, cwd := "/k".toList }

/-- Only the bzImage is missing. -/
def prepared : Check := runs 27 laboratoryCheck.start

def bzImageBuilt : Outcome where
  tree := prepared.tree.write (inside prepared.kernel "arch/x86/boot/bzImage")
    ⟨.empty, prepared.instrumented⟩
  ok := true

def built : Check := prepared.step ∅ bzImageBuilt

end Check

end AutoTestKernel.CheckKernel
