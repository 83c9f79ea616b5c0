import AutoTestKernel.Library.FileTree
import AutoTestKernel.Library.Runs
import AutoTestKernel.Library.Words
import Mathlib.Logic.Relation

/-!
# checkKernel.sh

Run in the directory of a kernel, the script instruments three directories,
copies s2e.h into the tree, compiles the kernel and starts startTest.sh.  A
kernel that has an s2e.h counts as done and is not touched again.  Of the
programs that are not part of the repository (make, kint-build, pintck and
insert) only what the script relies on is known, and of startTest.sh here only
where it writes.
-/

namespace AutoTestKernel.CheckKernel

open Text Shell Fs Runs

/-- The text of a file, and the directories that were instrumented in the tree
from which it was compiled. -/
structure Contents where
  text : TextFile
  compiledFrom : List Str := []
  deriving DecidableEq

def inside (d : Str) (n : String) : Str := d ++ '/' :: n.toList

def readText (t : FileTree Contents) (p : Str) : Option TextFile :=
  match t.get? p with
  | some (.file c) => some c.text
  | _ => none

/-- ``grep "Linux kernel release" README | wc -l`` -/
def releaseLines (t : FileTree Contents) (cwd : Str) : ℕ :=
  match readText t (inside cwd "README") with
  | some f => f.lines.countP fun l => decide ("Linux kernel release".toList <:+: l)
  | none => 0

/-! ## Fixes to the kernel -/

/-- The pattern as `grep` reads it has no special character. -/
def buildBugOn : Str := "BUILD_BUG_ON(!__builtin_constant_p(offset))".toList

/-- `grep -v` -/
def withoutLines (pat : Str) (f : TextFile) : TextFile where
  lines := f.lines.filter fun l => decide (¬ pat <:+: l)
  newline_notMem l hl := f.newline_notMem l (List.mem_of_mem_filter hl)

/-- `s/pat/repl/g` on a line of which the first `skip` characters are consumed. -/
def replaceAll (pat repl : Str) : ℕ → Str → Str
  | _, [] => []
  | skip + 1, _ :: s => replaceAll pat repl skip s
  | 0, c :: s =>
      if pat <+: c :: s then repl ++ replaceAll pat repl (pat.length - 1) s
      else c :: replaceAll pat repl 0 s

theorem mem_replaceAll {pat repl s : Str} {skip : ℕ} {c : Char}
    (h : c ∈ replaceAll pat repl skip s) : c ∈ repl ∨ c ∈ s := by
  fun_induction replaceAll pat repl skip s with
  | case1 => exact absurd h List.not_mem_nil
  | case2 skip x s ih => exact (ih h).imp_right (List.mem_cons_of_mem x)
  | case3 x s _ ih =>
      rcases List.mem_append.mp h with h | h
      · exact Or.inl h
      · exact (ih h).imp_right (List.mem_cons_of_mem x)
  | case4 x s _ ih =>
      rcases List.mem_cons.mp h with rfl | h
      · exact Or.inr List.mem_cons_self
      · exact (ih h).imp_right (List.mem_cons_of_mem x)

/-- `sed "s/long tmp/int tmp/g"` -/
def shortenTmp (f : TextFile) : TextFile where
  lines := f.lines.map (replaceAll "long tmp".toList "int tmp".toList 0)
  newline_notMem l hl := by
    obtain ⟨l', hl', rfl⟩ := List.mem_map.mp hl
    intro hmem
    rcases mem_replaceAll hmem with hmem | hmem
    · exact absurd hmem (by decide)
    · exact f.newline_notMem l' hl' hmem

/-! ## The script -/

inductive External
  | allyesconfig | kintBuild | pintck | insert | mrproper | defconfig | bzImage
  deriving DecidableEq

inductive Command
  | testReadme | countRelease | testRelease | countInserted | testInserted
  | grepRcupdate | mvRcupdate | sedBitops
  | cd (toInsertDir : String) | cdKernel | external (e : External)
  | mkdirS2e | cpS2e | startTest
  deriving DecidableEq

def toInsert : List String := ["net/ipv4", "net/core", "kernel/events"]

def insertInto (toInsertDir : String) : List Command :=
  [.cd toInsertDir, .external .pintck, .external .insert, .cdKernel]

def looks : List Command := [.testReadme, .countRelease, .testRelease, .countInserted]

def work : List Command :=
  [.grepRcupdate, .mvRcupdate, .sedBitops, .external .allyesconfig, .external .kintBuild] ++
    toInsert.flatMap insertInto ++ [.mkdirS2e]

def finish : List Command :=
  [.cdKernel, .external .mrproper, .external .defconfig, .external .bzImage, .startTest]

/-- The commands in their order, without those that only print or count. -/
def script : List Command := looks ++ .testInserted :: (work ++ .cpS2e :: finish)

/-- Where a command takes the script if it succeeds. -/
def moves (kernel cwd : Str) : Command → Str
  | .cd d => inside cwd d
  | .cdKernel => kernel
  | _ => cwd

def plan (kernel : Str) : List (Str × Command) := ahead (moves kernel) kernel script

/-- The files, the variables of the script, the commands it has still to do,
and what has happened: where insert was applied and whether it succeeded, and
which startTest.sh were started. -/
structure Check where
  kernel : Str
  tree : FileTree Contents
  cwd : Str
  todo : List Command := []
  iskernel : ℕ := 0
  inserted : ℕ := 0
  inserts : List (Str × Bool) := []
  launched : List Str := []

structure Outcome where
  tree : FileTree Contents
  ok : Bool

/-- What startTest.sh writes: ../config/test.lua, and the names test and testdone
below ../tests. -/
def OfTests (cwd p : Str) : Prop :=
  p = inside (dirName cwd) "config/test.lua" ∨
    (inside (dirName cwd) "tests" ++ ['/'] <+: p ∧
      (hasName "test".toList p = true ∨ hasName "testdone".toList p = true))

instance (cwd p : Str) : Decidable (OfTests cwd p) := inferInstanceAs (Decidable (_ ∨ _))

theorem not_ofTests_of_hasName {cwd p : Str} {n : String} (hslash : '/' ∉ n.toList)
    (hp : hasName n.toList p = true)
    (hn : n.toList ∉ ["test.lua".toList, "test".toList, "testdone".toList]) : ¬ OfTests cwd p := by
  have hbase : ∀ m : Str, '/' ∉ m → hasName m p = true → m = n.toList := by
    intro m hm hname
    obtain ⟨d, rfl⟩ := hasName_iff.mp hname
    obtain ⟨d', heq⟩ := hasName_iff.mp hp
    have hboth := congrArg baseName heq
    rwa [baseName_join hm, baseName_join hslash] at hboth
  intro h
  have hname : ∃ m ∈ ["test.lua".toList, "test".toList, "testdone".toList],
      '/' ∉ m ∧ hasName m p = true := by
    rcases h with rfl | ⟨-, htest | hdone⟩
    · refine ⟨"test.lua".toList, by decide, by decide, hasName_iff.mpr ?_⟩
      exact ⟨inside (dirName cwd) "config", by simp [inside]⟩
    · exact ⟨"test".toList, by decide, by decide, htest⟩
    · exact ⟨"testdone".toList, by decide, by decide, hdone⟩
  obtain ⟨m, hm, hslash', hname⟩ := hname
  exact hn (hbase m hslash' hname ▸ hm)

namespace Check

def instrumented (s : Check) : List Str := (s.inserts.filter Prod.snd).map Prod.fst

def existing (outside : Finset Str) (s : Check) : Finset Str := s.tree.keys.toFinset ∪ outside

/-- The arguments of `cd $Kernel`. -/
def cdArgs (outside : Finset Str) (s : Check) : List Str := expand (s.existing outside) s.kernel

/-- The arguments of `cp $Kernel/../config/s2e.h $Kernel/include/s2e/`. -/
def cpArgs (outside : Finset Str) (s : Check) : List Str :=
  expand (s.existing outside) (inside s.kernel "../config/s2e.h") ++
    expand (s.existing outside) (inside s.kernel "include/s2e/")

def header (s : Check) : Option (Node Contents) :=
  s.tree.get? (inside (dirName s.kernel) "config/s2e.h")

/-- `$Kernel/include/s2e/s2e.h` takes the contents of the header.  What `cp`
makes of other arguments is left open. -/
def cp (outside : Finset Str) (o : Outcome) (s : Check) : FileTree Contents :=
  if s.cpArgs outside = [inside s.kernel "../config/s2e.h", inside s.kernel "include/s2e/"] then
    match s.header with
    | some (.file c) => s.tree.put (inside s.kernel "include/s2e/s2e.h") c
    | _ => s.tree
  else o.tree

/-- What a command does, with `todo` the commands after it. -/
def exec (outside : Finset Str) (o : Outcome) (s : Check) : Command → Check
  | .testReadme =>
      if (readText s.tree (inside s.cwd "README")).isSome then s else { s with todo := [] }
  | .countRelease => { s with iskernel := releaseLines s.tree s.cwd }
  | .testRelease => if s.iskernel = 0 then { s with todo := [] } else s
  | .countInserted =>
      { s with inserted := lineCount (printLines (s.tree.below s.cwd "s2e.h".toList)) }
  | .testInserted => if 0 < s.inserted then { s with todo := [.startTest] } else s
  | .grepRcupdate =>
      let old := (readText s.tree (inside s.cwd "include/linux/rcupdate.h")).getD .empty
      let new := inside s.cwd "include/linux/rcupdate.h.new"
      { s with tree := s.tree.put new ⟨withoutLines buildBugOn old, []⟩ }
  | .mvRcupdate =>
      let new := inside s.cwd "include/linux/rcupdate.h.new"
      { s with tree := s.tree.mv [new, inside s.cwd "include/linux/rcupdate.h"] }
  | .sedBitops =>
      let bitops := inside s.cwd "arch/x86/include/asm/bitops.h"
      match readText s.tree bitops with
      | some f => { s with tree := s.tree.put bitops ⟨shortenTmp f, []⟩ }
      | none => s
  | .cd d => if s.tree.isDir (inside s.cwd d) then { s with cwd := inside s.cwd d } else s
  | .cdKernel =>
      match s.cdArgs outside with
      | [p] => if s.tree.isDir p then { s with cwd := p } else s
      | _ => s
  | .external .insert => { s with tree := o.tree, inserts := s.inserts ++ [(s.cwd, o.ok)] }
  | .external _ => { s with tree := o.tree }
  | .mkdirS2e => { s with tree := s.tree.mkdir (inside s.cwd "include/s2e") }
  | .cpS2e => { s with tree := s.cp outside o }
  | .startTest =>
      { s with tree := o.tree, launched := s.tree.below (dirName s.cwd) "startTest.sh".toList }

def step (outside : Finset Str) (o : Outcome) (s : Check) : Check :=
  match s.todo with
  | [] => s
  | c :: rest => { s with todo := rest }.exec outside o c

def start (s : Check) : Check :=
  { kernel := s.kernel, tree := s.tree, cwd := s.kernel, todo := script, inserts := s.inserts }

def stop (s : Check) : Check := { s with todo := [] }

/-- A program from elsewhere creates no s2e.h.  What is compiled has seen the
directories instrumented by then, and a bzImage that was made is there. -/
structure Possible (s : Check) (e : External) (o : Outcome) : Prop where
  no_marker : ∀ p ∈ o.tree.keys, hasName "s2e.h".toList p = true → p ∈ s.tree.keys
  compiled : ∀ p c, (p, .file c) ∈ o.tree.entries → c.compiledFrom = [] ∨
    c.compiledFrom = s.instrumented ∨
    ∃ p' c', (p', .file c') ∈ s.tree.entries ∧ c'.compiledFrom = c.compiledFrom
  bzImage : e = .bzImage → o.ok = true → ∃ text,
    (inside s.cwd "arch/x86/boot/bzImage", .file ⟨text, s.instrumented⟩) ∈ o.tree.entries

/-- startTest.sh keeps to its configuration and to the names of the tests. -/
def Tests (s : Check) (o : Outcome) : Prop :=
  FileTree.SameOn (fun p => ¬ OfTests s.cwd p) s.tree o.tree

structure Performs (s : Check) (o : Outcome) : Prop where
  busy : s.todo ≠ []
  possible : ∀ e, s.todo.head? = some (.external e) → s.Possible e o
  tests : s.todo.head? = some .startTest → s.Tests o

inductive Next (s : Check) : Check → Prop
  | command (outside : Finset Str) (o : Outcome) (h : s.Performs o) :
      Next s (s.step outside o)
  | stop (h : s.todo ≠ []) : Next s s.stop
  | start (h : s.todo = []) : Next s s.start

def Marked (s : Check) : Prop := s.tree.below s.kernel "s2e.h".toList ≠ []

instance (s : Check) : Decidable s.Marked := inferInstanceAs (Decidable (_ ≠ _))

def path (s : Check) (rest : List Command) : List (Str × Command) :=
  ahead (moves s.kernel) s.cwd rest

variable {s : Check} {outside : Finset Str} {o : Outcome}

theorem step_of_todo {c : Command} {rest : List Command} (h : s.todo = c :: rest) :
    s.step outside o = { s with todo := rest }.exec outside o c := by
  simp [step, h]

theorem exec_kernel (c : Command) : (s.exec outside o c).kernel = s.kernel := by
  cases c with
  | testReadme | testRelease | testInserted | cd d | sedBitops =>
      simp only [exec]
      split <;> rfl
  | cdKernel =>
      simp only [exec]
      split
      · split <;> rfl
      · rfl
  | external e => cases e <;> rfl
  | _ => rfl

theorem step_kernel : (s.step outside o).kernel = s.kernel := by
  cases htodo : s.todo with
  | nil => rw [step, htodo]
  | cons c rest => rw [step_of_todo htodo, exec_kernel]

end Check

end AutoTestKernel.CheckKernel
