import AutoTestKernel.Library.Occurrence
import AutoTestKernel.Library.Words

/-!
# The pathnames startTest.sh computes

A test is the file `test` of some directory.  The script derives the directory
from the pathname, marks the test as done by renaming it, and later derives the
old name again.  Both derivations append `hahaha` and let `sed` delete the
first occurrence of a suffix that now ends in it; the expansions involved are
unquoted.
-/

namespace AutoTestKernel.StartTest

open Text Pathname Shell Occurrence

def testName : Str := "test".toList

def doneName : Str := "testdone".toList

def testPath (d : Str) : Str := d ++ '/' :: testName

def donePath (d : Str) : Str := d ++ '/' :: doneName

def done : Str := "done".toList

def hahaha : Str := "hahaha".toList

/-- `sed 's/pat//'` on a text. -/
def sedDelete (pat text : Str) : Str := joinLines ((splitLines text).map (deleteFirst pat))

/-- `` `echo ${nowTest}hahaha | sed 's/pat//'` `` -/
def stripped (pat : Str) (fs : Finset Str) (nowTest : Str) : Str :=
  captured (sedDelete pat (echo (expand fs (nowTest ++ hahaha))))

/-- ``nowTestPath=`echo ${nowTest}hahaha | sed 's/testhahaha//'` `` -/
def nowTestPath (fs : Finset Str) (nowTest : Str) : Str :=
  stripped "testhahaha".toList fs nowTest

/-- The arguments of `mv $nowTest "${nowTest}done"`. -/
def markArgs (fs : Finset Str) (nowTest : Str) : List Str :=
  expand fs nowTest ++ [nowTest ++ done]

/-- The arguments of ``mv $nowTest `echo ${nowTest}hahaha | sed 's/donehahaha//'` ``,
whose substitution is unquoted and expanded once more. -/
def resetArgs (fs : Finset Str) (nowTest : Str) : List Str :=
  expand fs nowTest ++ expand fs (stripped "donehahaha".toList fs nowTest)

/-- The directory is derived, the test marked and the mark undone as meant,
with the pathnames `fs` existing in the first loop and `fs'` in the second. -/
def RoundTrips (fs fs' : Finset Str) (d : Str) : Prop :=
  nowTestPath fs (testPath d) = d ++ ['/'] ∧
    markArgs fs (testPath d) = [testPath d, donePath d] ∧
      resetArgs fs' (donePath d) = [donePath d, testPath d]

/-- A directory on which no command of the script goes astray. -/
structure SafeDirectory (d : Str) : Prop where
  unbroken : Unbroken d
  literal : Literal d
  no_test : ¬ "testhahaha".toList <:+: d
  no_done : ¬ "donehahaha".toList <:+: d

theorem testPath_done (d : Str) : testPath d ++ done = donePath d := by
  have hname : testName ++ done = doneName := by decide
  rw [testPath, List.append_assoc, List.cons_append, hname, donePath]

theorem testPath_hahaha (d : Str) :
    testPath d ++ hahaha = d ++ '/' :: "testhahaha".toList := by
  have hname : testName ++ hahaha = "testhahaha".toList := by decide
  rw [testPath, List.append_assoc, List.cons_append, hname]

theorem donePath_hahaha (d : Str) :
    donePath d ++ hahaha = d ++ '/' :: "testdonehahaha".toList := by
  have hname : doneName ++ hahaha = "testdonehahaha".toList := by decide
  rw [donePath, List.append_assoc, List.cons_append, hname]

theorem deleteFirst_testPath_iff (d : Str) :
    deleteFirst "testhahaha".toList (testPath d ++ hahaha) = d ++ ['/'] ↔
      ¬ "testhahaha".toList <:+: d := by
  rw [testPath_hahaha]
  exact deleteFirst_append_cons_self_iff (by decide) (by decide)

theorem deleteFirst_donePath_iff (d : Str) :
    deleteFirst "donehahaha".toList (donePath d ++ hahaha) = testPath d ↔
      ¬ "donehahaha".toList <:+: d := by
  have hsplit : '/' :: "testdonehahaha".toList =
      '/' :: "tes".toList ++ 't' :: "donehahaha".toList := by decide
  have hname : testName = "tes".toList ++ ['t'] := by decide
  have hstem : ¬ "donehahaha".toList <:+: "tes".toList := by decide
  rw [donePath_hahaha, hsplit, ← List.append_assoc, testPath, hname, ← List.cons_append,
    ← List.append_assoc, deleteFirst_append_cons_self_iff (by decide) (by decide),
    infix_append_cons_iff (by decide), or_iff_left hstem]

theorem unbroken_testPath {d : Str} : Unbroken (testPath d) ↔ Unbroken d := by
  have hname : Unbroken ('/' :: testName) := by decide
  rw [testPath, unbroken_append, and_iff_left hname]

theorem unbroken_donePath {d : Str} : Unbroken (donePath d) ↔ Unbroken d := by
  have hname : Unbroken ('/' :: doneName) := by decide
  rw [donePath, unbroken_append, and_iff_left hname]

theorem stripped_of_expand {pat nowTest : Str} {fs : Finset Str}
    (hword : Unbroken (nowTest ++ hahaha))
    (h : expand fs (nowTest ++ hahaha) = [nowTest ++ hahaha]) :
    stripped pat fs nowTest = deleteFirst pat (nowTest ++ hahaha) := by
  have hline : newline ∉ nowTest ++ hahaha := hword.newline_notMem
  have hrest : newline ∉ deleteFirst pat (nowTest ++ hahaha) := fun hmem =>
    hline (mem_of_mem_deleteFirst hmem)
  have hjoin : ∀ s : Str, joinLines [s, []] = s ++ [newline] := fun s => by simp [joinLines]
  rw [stripped, h, echo_singleton, sedDelete, splitLines_append_newline _ hline]
  simp only [List.map_cons, List.map_nil, deleteFirst_nil]
  rw [hjoin, captured_append_newline, captured_of_notMem hrest]

theorem unbroken_testPath_hahaha {d : Str} (h : Unbroken d) : Unbroken (testPath d ++ hahaha) :=
  unbroken_append.mpr ⟨unbroken_testPath.mpr h, by decide⟩

theorem nowTestPath_of_sole {fs : Finset Str} {d : Str} (hd : Unbroken d)
    (hsole : Sole fs (testPath d ++ hahaha)) (hno : ¬ "testhahaha".toList <:+: d) :
    nowTestPath fs (testPath d) = d ++ ['/'] := by
  have hword := unbroken_testPath_hahaha hd
  rw [nowTestPath, stripped_of_expand hword (expand_of_sole (by simp [testPath]) hword hsole),
    (deleteFirst_testPath_iff d).mpr hno]

theorem markArgs_of_sole {fs : Finset Str} {d : Str} (hd : Unbroken d)
    (hsole : Sole fs (testPath d)) : markArgs fs (testPath d) = [testPath d, donePath d] := by
  rw [markArgs, expand_of_sole (by simp [testPath]) (unbroken_testPath.mpr hd) hsole,
    testPath_done]
  rfl

/-! ## Directories on which the commands work -/

namespace SafeDirectory

variable {d : Str}

theorem expand_join (h : SafeDirectory d) {n : Str} (hword : Unbroken n) (hn : Simple n)
    (fs : Finset Str) : expand fs (d ++ '/' :: n) = [d ++ '/' :: n] := by
  have hunbroken : Unbroken (d ++ '/' :: n) :=
    unbroken_append.mpr ⟨h.unbroken, List.forall_mem_cons.mpr ⟨by decide, hword⟩⟩
  exact expand_of_sole (by simp) hunbroken (.of_literal h.literal hn fs)

theorem nowTestPath_eq (h : SafeDirectory d) (fs : Finset Str) :
    nowTestPath fs (testPath d) = d ++ ['/'] := by
  refine nowTestPath_of_sole h.unbroken ?_ h.no_test
  rw [testPath_hahaha]
  exact .of_literal h.literal (by decide) fs

theorem markArgs_eq (h : SafeDirectory d) (fs : Finset Str) :
    markArgs fs (testPath d) = [testPath d, donePath d] :=
  markArgs_of_sole h.unbroken (.of_literal h.literal (by decide) fs)

theorem resetArgs_eq (h : SafeDirectory d) (fs : Finset Str) :
    resetArgs fs (donePath d) = [donePath d, testPath d] := by
  have hunbroken : Unbroken (donePath d ++ hahaha) := by
    rw [donePath_hahaha]
    exact unbroken_append.mpr ⟨h.unbroken, by decide⟩
  have hexpand : expand fs (donePath d ++ hahaha) = [donePath d ++ hahaha] := by
    rw [donePath_hahaha]
    exact h.expand_join (by decide) (by decide) fs
  rw [resetArgs, stripped_of_expand hunbroken hexpand,
    (deleteFirst_donePath_iff d).mpr h.no_done, donePath, testPath,
    h.expand_join (by decide) (by decide), h.expand_join (by decide) (by decide)]
  rfl

theorem roundTrips (h : SafeDirectory d) (fs fs' : Finset Str) : RoundTrips fs fs' d :=
  ⟨h.nowTestPath_eq fs, h.markArgs_eq fs, h.resetArgs_eq fs'⟩

end SafeDirectory

/-! ## Directories on which they fail -/

theorem unbroken_of_markArgs {d : Str}
    (h : markArgs ∅ (testPath d) = [testPath d, donePath d]) : Unbroken d := by
  have hexpand : expand ∅ (testPath d) = [testPath d] := by
    rw [markArgs, testPath_done] at h
    exact List.append_cancel_right (h.trans (List.singleton_append ..).symm)
  exact unbroken_testPath.mp (unbroken_of_expand_empty hexpand)

/-- When only another directory that the name matches holds a test, `mv` gets
that one. -/
theorem literal_of_markArgs {d : Str} (hword : Unbroken d)
    (h : ∀ fs, markArgs fs (testPath d) = [testPath d, donePath d]) : Literal d := by
  intro hp x hx
  have hother : expand {x ++ testName} (testPath d) = [x ++ testName] :=
    expand_other_match hp hx (unbroken_testPath.mpr hword) (by decide)
  have hargs := h {x ++ testName}
  rw [markArgs, hother] at hargs
  have hpath : x ++ testName = d ++ ['/'] ++ testName :=
    (List.cons.inj hargs).1.trans (by simp [testPath])
  exact List.append_cancel_right hpath

theorem not_infix_of_roundTrips {d : Str} (hword : Unbroken d) (h : RoundTrips ∅ ∅ d) :
    ¬ "testhahaha".toList <:+: d ∧ ¬ "donehahaha".toList <:+: d := by
  obtain ⟨hpath, -, hreset⟩ := h
  have hself : ∀ {w : Str}, w ≠ [] → Unbroken w → expand ∅ w = [w] := fun hne hw => by
    rw [expand_empty, splitWords_eq_self_iff.mpr ⟨hne, hw⟩]
  have htest : Unbroken (testPath d ++ hahaha) := unbroken_testPath_hahaha hword
  have hdone : Unbroken (donePath d) := unbroken_donePath.mpr hword
  have hdone' : Unbroken (donePath d ++ hahaha) :=
    unbroken_append.mpr ⟨hdone, by decide⟩
  constructor
  · rw [nowTestPath, stripped_of_expand htest (hself (by simp [testPath]) htest)] at hpath
    exact (deleteFirst_testPath_iff d).mp hpath
  · rw [resetArgs, stripped_of_expand hdone' (hself (by simp [donePath]) hdone'),
      hself (by simp [donePath]) hdone] at hreset
    have hback := List.append_cancel_left (hreset.trans (List.singleton_append ..).symm)
    have hstem : Unbroken (deleteFirst "donehahaha".toList (donePath d ++ hahaha)) :=
      fun c hc => hdone' c (mem_of_mem_deleteFirst hc)
    have hne : deleteFirst "donehahaha".toList (donePath d ++ hahaha) ≠ [] := by
      intro hnil
      rw [hnil, expand_empty] at hback
      simp [splitWords] at hback
    rw [hself hne hstem] at hback
    exact (deleteFirst_donePath_iff d).mp (List.cons.inj hback).1

/-- The commands do what is meant, whatever other files exist, exactly for the
safe directories. -/
theorem roundTrips_iff (d : Str) : (∀ fs fs', RoundTrips fs fs' d) ↔ SafeDirectory d := by
  constructor
  · intro h
    have hword : Unbroken d := unbroken_of_markArgs (h ∅ ∅).2.1
    have hnot := not_infix_of_roundTrips hword (h ∅ ∅)
    exact ⟨hword, literal_of_markArgs hword fun fs => (h fs ∅).2.1, hnot.1, hnot.2⟩
  · exact fun h fs fs' => h.roundTrips fs fs'

/-- A space in a directory name splits the argument of `mv`. -/
theorem roundTrips_fails_at_space : ¬ RoundTrips ∅ ∅ "/linux/../tests/a b".toList := by
  unfold RoundTrips
  decide

end AutoTestKernel.StartTest
