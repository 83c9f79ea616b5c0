import AutoTestKernel.GuestProgram.WholeTree
import AutoTestKernel.StartTest.Refinement

/-!
# From the Makefiles to S2E

The Makefiles of the programs compile with `-o test`, which is the name that
startTest.sh looks for.  Where the lists of the other Makefiles are complete,
`make` compiles every program that is listed, directly or through others, and
a run of startTest.sh launches each of them once.
-/

namespace AutoTestKernel.GuestProgram

open Text Pathname Shell Fs Fuel Runs Relation StartTest

namespace Sources

variable {w : Sources} {sub : SubMake} {recipe : Recipe} {fuel : ℕ} {s t : LoopShell}
  {top d d' n : Str} {names : List Str}

/-- The Makefile in `d` compiles a program. -/
def IsProgram (w : Sources) (d : Str) : Prop :=
  w.makefile? d = some (some .compile) ∧ ¬ w.UpToDate d

instance (w : Sources) (d : Str) : Decidable (w.IsProgram d) :=
  inferInstanceAs (Decidable (_ ∧ _))

/-- The directories in which the compiler is run by `make` in `d`, in their order. -/
def compiled (w : Sources) : ℕ → Str → List Str
  | 0, _ => []
  | fuel + 1, d =>
      if w.IsProgram d then [d]
      else ((w.make (fuel + 1) d).elim [] LoopShell.makes).flatMap (w.compiled fuel)

/-- The tree after `make`, with a `test` wherever the compiler succeeds.  Where it
fails, it leaves an older one alone. -/
def made (w : Sources) (fuel : ℕ) (d : Str) : FileTree (Option Recipe) :=
  w.tree.putAll (((w.compiled fuel d).filter w.compiles).map testPath) none

/-! ## What is compiled -/

/-- The Makefile in `d` lists the directory `d'`. -/
def Lists (w : Sources) (d d' : Str) : Prop :=
  ∃ recipe, w.makefile? d = some (some recipe) ∧ ¬ w.UpToDate d ∧
    ∃ n ∈ w.forList d recipe.words, d' = child d n

/-- There is a Makefile, and its names are those of directories.  The programs
of a loop that stops at a failure compile. -/
structure Complete (w : Sources) (d : Str) : Prop where
  there : w.tree.isDir d = true
  makefile : ∃ recipe, w.makefile? d = some (some recipe)
  directories : ∀ recipe, w.makefile? d = some (some recipe) →
    ∀ n ∈ w.forList d recipe.words, Proper n ∧ w.tree.isDir (child d n) = true
  compile : ∀ words, w.makefile? d = some (some (.chain words)) →
    ∀ n ∈ w.forList d words, w.IsProgram (child d n) → w.compiles (child d n) = true

theorem Complete.deeper (h : w.Complete d) (hlists : w.Lists d d') :
    d.length < d'.length ∧ w.tree.isDir d' = true := by
  obtain ⟨recipe, hmake, -, n, hn, rfl⟩ := hlists
  exact ⟨length_lt_child d n, (h.directories recipe hmake n hn).2⟩

end Sources

end AutoTestKernel.GuestProgram
