import AutoTestKernel.Library.FileTree
import AutoTestKernel.Library.Fuel
import AutoTestKernel.Library.Words

/-!
# The Makefiles of the guest programs

A Makefile of guest_program either compiles the program of its own directory
or loops over the directories of several programs and runs `make` in each.
The loops are run by a shell whose working directory is carried from one
iteration into the next.  No Makefile creates a directory or another Makefile,
so the tree is the same for every `make`.
-/

namespace AutoTestKernel.GuestProgram

open Text Pathname Shell Fs Fuel

/-- A word of a `for` list: quoted or escaped, or open to pathname expansion. -/
inductive Word
  | quoted (text : Str)
  | bare (text : Str)
  deriving DecidableEq

/-- The recipe of the target `all`: one that runs no `make`, such as a call of
the compiler, or one of the two loops. -/
inductive Recipe
  | compile
  | descend (words : List Word)
  | chain (words : List Word)
  deriving DecidableEq

def Recipe.words : Recipe → List Word
  | .compile => []
  | .descend words => words
  | .chain words => words

def Word.text : Word → Str
  | .quoted text => text
  | .bare text => text

def bareNames (ns : List String) : List Word := ns.map fun n => .bare n.toList

/-! ## The files -/

/-- guest_program/Makefile -/
def guestProgram : Recipe :=
  .descend (bareNames ["accept", "bind", "connect", "listen", "send", "sendto", "socket",
    "setsockopt", "sendmsg", "sendmsg-cm1", "sendmsg-cm2", "sendmsg-2cm", "sendmsg-2len",
    "sendmsg-2flags"])

/-- file-rw/Makefile, where every `&` is escaped. -/
def fileRw : Recipe :=
  .descend [.bare "creat".toList, .quoted "dup&dup2".toList, .bare "fcntl".toList,
    .bare "flock".toList, .bare "open".toList, .quoted "open&flock".toList,
    .quoted "pread&pwrite".toList, .quoted "readv&writev".toList, .quoted "read&write".toList,
    .quoted "truncate&ftruncate".toList]

/-- socket/Makefile -/
def socket : Recipe :=
  .descend (bareNames ["accept", "bind", "connect", "listen", "send", "sendto", "socket",
    "setsockopt", "sendmsg-cm1", "sendmsg-cm2", "sendmsg-2cm", "sendmsg-2len",
    "sendmsg-2flags", "sendmsg-bug"])

/-- sendmsg-detail/one/Makefile -/
def sendmsgDetailOne : Recipe :=
  .chain (bareNames ["*1", "*2", "*3", "*4", "*5", "*6", "*7", "*8", "*9"])

/-- sendmsg-detail/two/Makefile -/
def sendmsgDetailTwo : Recipe :=
  .chain (bareNames ["1-2", "1-4", "1-6", "1-7", "1-8", "2-4", "2-6", "2-7", "2-8", "4-6", "4-7",
    "4-8", "6-7", "6-8", "7-8"])

/-! ## The shell of a recipe -/

/-- What the Makefiles are run on: the files, each with its recipe if it is a
Makefile, whether the compiler succeeds in a directory, and where `cd` leads
with a name that is not proper, which depends on the shell and its variables. -/
structure Sources where
  tree : FileTree (Option Recipe)
  compiles : Str → Bool
  cdImproper : Str → Str → Option Str

def child (d n : Str) : Str := d ++ '/' :: n

/-- A name that `cd $name` takes as it is for an entry of the working directory. -/
structure Proper (n : Str) : Prop where
  ne_nil : n ≠ []
  unbroken : Unbroken n
  plain : Plain n
  no_slash : '/' ∉ n
  no_hyphen : n.head? ≠ some '-'
  no_dots : n ≠ ['.'] ∧ n ≠ ['.', '.']

instance (n : Str) : Decidable (Proper n) :=
  decidable_of_iff (n ≠ [] ∧ Unbroken n ∧ Plain n ∧ '/' ∉ n ∧ n.head? ≠ some '-' ∧
      n ≠ ['.'] ∧ n ≠ ['.', '.'])
    ⟨fun ⟨h₁, h₂, h₃, h₄, h₅, h₆⟩ => ⟨h₁, h₂, h₃, h₄, h₅, h₆⟩,
      fun ⟨h₁, h₂, h₃, h₄, h₅, h₆⟩ => ⟨h₁, h₂, h₃, h₄, h₅, h₆⟩⟩

/-- All of the lists but the one of patterns. -/
theorem words_proper : ∀ recipe ∈ [guestProgram, fileRw, socket, sendmsgDetailTwo],
    (recipe.words.map Word.text).Nodup ∧ ∀ word ∈ recipe.words, Proper word.text := by
  decide +kernel

/-- A shell in the middle of a recipe, with the status of the last command, the
working directories in which iterations began, and where it has run `make`. -/
structure LoopShell where
  cwd : Str
  ok : Bool := true
  begins : List Str := []
  makes : List Str := []
  deriving DecidableEq

/-- What running `make` comes to, after the ones before it and in a directory:
its success, if it comes to an end. -/
abbrev SubMake := List Str → Str → Option Bool

namespace Sources

/-- `cd $name`, with no CDPATH set. -/
def cd (w : Sources) (cwd name : Str) : Option Str :=
  (if Proper name then some (child cwd name) else w.cdImproper cwd name).filter (w.tree.isDir ·)

/-- The entries of a directory. -/
def entryNames (w : Sources) (d : Str) : Finset Str :=
  ((w.tree.keys.filter fun k => decide (k ≠ [] ∧ dirName k = d)).map baseName).toFinset

/-- The list of a `for` loop that is run in `d`. -/
def forList (w : Sources) (d : Str) (words : List Word) : List Str :=
  words.flatMap fun
    | .quoted text => [text]
    | .bare text => glob (w.entryNames d) text

end Sources

namespace LoopShell

def next (s : LoopShell) : LoopShell := { s with begins := s.begins ++ [s.cwd] }

def cd (w : Sources) (name : Str) (s : LoopShell) : LoopShell :=
  match w.cd s.cwd name with
  | some d => { s with cwd := d, ok := true }
  | none => { s with ok := false }

theorem cd_of_eq_some {w : Sources} {s : LoopShell} {n d : Str} (h : w.cd s.cwd n = some d) :
    s.cd w n = { s with cwd := d, ok := true } := by
  simp only [cd, h]

theorem cd_of_eq_none {w : Sources} {s : LoopShell} {n : Str} (h : w.cd s.cwd n = none) :
    s.cd w n = { s with ok := false } := by
  simp only [cd, h]

def make (sub : SubMake) (s : LoopShell) : Option LoopShell :=
  (sub s.makes s.cwd).map fun ok => { s with ok := ok, makes := s.makes ++ [s.cwd] }

/-- `cd ..` -/
def up (s : LoopShell) : LoopShell := { s with cwd := dirName s.cwd, ok := true }

/-- `cd $$tododir; make; cd ..` -/
def descend (w : Sources) (sub : SubMake) (s : LoopShell) (tododir : Str) : Option LoopShell :=
  ((s.next.cd w tododir).make sub).map up

/-- `cd $$i && make && cd ..` -/
def chain (w : Sources) (sub : SubMake) (s : LoopShell) (i : Str) : Option LoopShell :=
  if (s.next.cd w i).ok then
    ((s.next.cd w i).make sub).map fun s' => if s'.ok then s'.up else s'
  else some (s.next.cd w i)

end LoopShell

/-! ## make -/

namespace Sources

def file? (w : Sources) (p : Str) : Option (Option Recipe) :=
  match w.tree.get? p with
  | some (.file c) => some c
  | _ => none

/-- The first of these that is there is read; it need not be a Makefile. -/
def makefile? (w : Sources) (d : Str) : Option (Option Recipe) :=
  ["GNUmakefile", "makefile", "Makefile"].findSome? fun n => w.file? (child d n.toList)

/-- Nothing is done for `all`, which needs no other target, where it exists. -/
def UpToDate (w : Sources) (d : Str) : Prop := child d "all".toList ∈ w.tree.keys

instance (w : Sources) (d : Str) : Decidable (w.UpToDate d) := inferInstanceAs (Decidable (_ ∈ _))

/-- The state of the shell after the recipe of the Makefile in `d`, whose status
is the status of `make`.  The number bounds how deep the calls go. -/
def make (w : Sources) : ℕ → Str → Option LoopShell
  | 0, _ => none
  | fuel + 1, d =>
      let sub : SubMake := fun _ d' => (make w fuel d').map LoopShell.ok
      match w.makefile? d with
      | some (some recipe) =>
          if w.UpToDate d then some { cwd := d }
          else
            match recipe with
            | .compile => some { cwd := d, ok := w.compiles d }
            | .descend words => (w.forList d words).foldlM (LoopShell.descend w sub) { cwd := d }
            | .chain words => (w.forList d words).foldlM (LoopShell.chain w sub) { cwd := d }
      | _ => some { cwd := d, ok := false }

/-- The directories that are meant by a list of names. -/
def listed (w : Sources) (top : Str) (names : List Str) : List Str :=
  (names.map (child top)).filter (w.tree.isDir ·)

theorem forList_of_proper {w : Sources} {d : Str} {words : List Word}
    (h : ∀ word ∈ words, Proper word.text) : w.forList d words = words.map Word.text := by
  induction words with
  | nil => rfl
  | cons word words ih =>
      obtain ⟨hword, hwords⟩ := List.forall_mem_cons.mp h
      rw [forList, List.flatMap_cons, ← forList, ih hwords, List.map_cons]
      cases word with
      | quoted text => rfl
      | bare text =>
          have hinert : Inert text := fun _ => ⟨hword.plain, fun hdouble =>
            hword.no_slash (hdouble.subset List.mem_cons_self)⟩
          exact congrArg (· ++ _) (glob_of_sole (Sole.of_inert hinert _))

/-- The patterns of sendmsg-detail/one, with two directories there. -/
example : Sources.forList
    { tree :=
        { entries := [("/one/1".toList, .dir), ("/one/3".toList, .dir)]
          nodup := by decide +kernel }
      compiles := fun _ => true
      cdImproper := fun _ _ => none } "/one".toList sendmsgDetailOne.words =
    ["1", "*2", "3", "*4", "*5", "*6", "*7", "*8", "*9"].map String.toList := by
  decide +kernel

end Sources

/-! ## Directories -/

theorem prefix_child (d n : Str) : d <+: child d n := List.prefix_append d ('/' :: n)

theorem child_injective (d : Str) : Function.Injective (child d) := fun n m h => by
  simpa [child] using h

theorem dirName_child {n : Str} (h : '/' ∉ n) (d : Str) : dirName (child d n) = d :=
  dirName_join h

namespace Sources

variable {w : Sources}

theorem isDir_of_cd {cwd n d : Str} (h : w.cd cwd n = some d) : w.tree.isDir d = true :=
  (Option.filter_eq_some_iff.mp h).2

theorem cd_of_proper {n : Str} (hn : Proper n) (cwd : Str) :
    w.cd cwd n = if w.tree.isDir (child cwd n) then some (child cwd n) else none := by
  rw [cd, if_pos hn]
  cases hdir : w.tree.isDir (child cwd n) <;> simp [Option.filter, hdir]

end Sources

/-! ## More fuel -/

theorem LoopShell.make_of_sub {sub sub' : SubMake}
    (hsub : ∀ ms d ok, sub ms d = some ok → sub' ms d = some ok) {s t : LoopShell}
    (h : s.make sub = some t) : s.make sub' = some t := by
  obtain ⟨ok, hok, rfl⟩ := Option.map_eq_some_iff.mp h
  rw [make, hsub _ _ _ hok, Option.map_some]

theorem LoopShell.descend_of_sub {w : Sources} {sub sub' : SubMake}
    (hsub : ∀ ms d ok, sub ms d = some ok → sub' ms d = some ok) {s t : LoopShell} {n : Str}
    (h : s.descend w sub n = some t) : s.descend w sub' n = some t := by
  obtain ⟨u, hu, rfl⟩ := Option.map_eq_some_iff.mp h
  rw [descend, make_of_sub hsub hu, Option.map_some]

theorem LoopShell.chain_of_sub {w : Sources} {sub sub' : SubMake}
    (hsub : ∀ ms d ok, sub ms d = some ok → sub' ms d = some ok) {s t : LoopShell} {n : Str}
    (h : s.chain w sub n = some t) : s.chain w sub' n = some t := by
  unfold chain at h ⊢
  split at h
  · next hok =>
      obtain ⟨u, hu, rfl⟩ := Option.map_eq_some_iff.mp h
      rw [if_pos hok, make_of_sub hsub hu, Option.map_some]
  · next hok => rwa [if_neg hok]

namespace Sources

theorem stable_make (w : Sources) : Stable w.make := by
  intro fuel
  induction fuel with
  | zero => exact fun d s h => by simp [make] at h
  | succ fuel ih =>
      intro d s h
      have hsub : ∀ (_ : List Str) d' ok, (w.make fuel d').map LoopShell.ok = some ok →
          (w.make (fuel + 1) d').map LoopShell.ok = some ok := by
        intro _ d' ok hok
        obtain ⟨s', hs', rfl⟩ := Option.map_eq_some_iff.mp hok
        rw [ih d' s' hs', Option.map_some]
      rw [make] at h ⊢
      split at h
      · next hmake =>
          split at h
          · next hdone => simp only [if_pos hdone, h]
          · next hdone =>
              simp only [if_neg hdone]
              split at h
              · exact h
              · exact foldlM_of_body (fun _ _ _ => LoopShell.descend_of_sub hsub) h
              · exact foldlM_of_body (fun _ _ _ => LoopShell.chain_of_sub hsub) h
      · exact h

end Sources

end AutoTestKernel.GuestProgram
