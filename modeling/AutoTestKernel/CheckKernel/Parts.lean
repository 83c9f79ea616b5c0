import AutoTestKernel.CheckKernel.Rerun

/-!
# The scripts for single steps

onlykint.sh, onlyinsert.sh and onlybzImage.sh each do a part of what
checkKernel.sh does, and insertall.sh instruments the directory it is run in.
The two that instrument look for no s2e.h, and onlyinsert.sh comes back from a
directory by `cd -`, which leads to wherever the shell was before.
-/

namespace AutoTestKernel.CheckKernel

open Text Shell Fs

/-- A command of one of the scripts: one that checkKernel.sh has as well,
`cd -`, or `cp ../config/s2e.h include/s2e/`. -/
inductive PartCommand
  | own (c : Command)
  | cdBack
  | cpHere
  deriving DecidableEq

inductive Part
  | checkKernel | onlykint | onlyinsert | insertall | onlybzImage
  deriving DecidableEq

/-- An iteration of the loop of onlyinsert.sh. -/
def insertThere (toInsertDir : String) : List PartCommand :=
  [.own (.cd toInsertDir), .own (.external .pintck), .own (.external .insert), .cdBack]

/-- What follows the check for an s2e.h in onlykint.sh. -/
def compileByKint : List Command :=
  [.grepRcupdate, .mvRcupdate, .sedBitops, .external .allyesconfig, .external .kintBuild]

def Part.script : Part → List PartCommand
  | .checkKernel => CheckKernel.script.map .own
  | .onlykint => (looks ++ .testInserted :: compileByKint).map .own
  | .onlyinsert => toInsert.flatMap insertThere ++ [.own .mkdirS2e, .cpHere]
  | .insertall => [.own (.external .pintck), .own (.external .insert), .own .mkdirS2e, .cpHere]
  | .onlybzImage =>
      [.own (.external .mrproper), .own (.external .defconfig), .own (.external .bzImage)]

/-- The files and variables as for checkKernel.sh, and OLDPWD. -/
structure PartShell where
  check : Check
  oldpwd : Option Str

namespace Check

/-- Where a `cd` leads, if it succeeds. -/
def entered (outside : Finset Str) (s : Check) : Command → Option Str
  | .cd d => if s.tree.isDir (inside s.cwd d) then some (inside s.cwd d) else none
  | .cdKernel =>
      match s.cdArgs outside with
      | [p] => if s.tree.isDir p then some p else none
      | _ => none
  | _ => none

/-- The shell in which a script is started. -/
def begin (s : Check) (oldpwd : Option Str) : PartShell where
  check := { s.start with todo := [] }
  oldpwd := oldpwd

end Check

namespace PartShell

def exec (outside : Finset Str) (o : Outcome) (s : PartShell) : PartCommand → PartShell
  | .own c =>
      { check := { s.check.exec outside o c with todo := [] }
        oldpwd := if (s.check.entered outside c).isSome then some s.check.cwd else s.oldpwd }
  | .cdBack =>
      match s.oldpwd with
      | some p =>
          if s.check.tree.isDir p then
            { check := { s.check with cwd := p }, oldpwd := some s.check.cwd }
          else s
      | none => s
  | .cpHere =>
      match s.check.tree.get? (inside (dirName s.check.cwd) "config/s2e.h") with
      | some (.file c) =>
          let tree := s.check.tree.put (inside s.check.cwd "include/s2e/s2e.h") c
          { s with check := { s.check with tree } }
      | _ => s

/-- What is left of a script after a command, which may be an `exit`. -/
def leaves (s : PartShell) (rest : List PartCommand) : PartCommand → List PartCommand
  | .own .testReadme =>
      if (readText s.check.tree (inside s.check.cwd "README")).isSome then rest else []
  | .own .testRelease => if s.check.iskernel = 0 then [] else rest
  | .own .testInserted => if 0 < s.check.inserted then [.own .startTest] else rest
  | _ => rest

end PartShell

/-- A run of the commands to the end, in which each of them is as `good` says. -/
inductive Execs (good : Finset Str → Outcome → PartShell → PartCommand → Prop) :
    List PartCommand → PartShell → PartShell → Prop
  | nil (s : PartShell) : Execs good [] s s
  | cons {c : PartCommand} {rest : List PartCommand} {s t : PartShell} (outside : Finset Str)
      (o : Outcome) (h : good outside o s c)
      (hrest : Execs good (s.leaves rest c) (s.exec outside o c) t) : Execs good (c :: rest) s t

theorem Execs.append {good : Finset Str → Outcome → PartShell → PartCommand → Prop}
    {l l' : List PartCommand} {s t : PartShell} (h : Execs good (l ++ l') s t)
    (hl : ∀ c ∈ l, ∀ (s : PartShell) rest, s.leaves rest c = rest) :
    ∃ u, Execs good l s u ∧ Execs good l' u t := by
  induction l generalizing s with
  | nil => exact ⟨s, .nil s, h⟩
  | cons c l ih =>
      obtain ⟨hc, hl⟩ := List.forall_mem_cons.mp hl
      cases h with
      | cons outside o hgood hrest =>
          rw [hc] at hrest
          obtain ⟨u, hfirst, hsecond⟩ := ih hrest hl
          exact ⟨u, .cons outside o hgood (by rwa [hc]), hsecond⟩

/-! ## Scripts whose commands go well -/

namespace PartShell

/-- Working directory and OLDPWD. -/
def place (s : PartShell) : Str × Option Str := (s.check.cwd, s.oldpwd)

/-- The checks are passed, and every directory and the header are found. -/
def Finds (outside : Finset Str) (s : PartShell) : PartCommand → Prop
  | .own .testReadme => (readText s.check.tree (inside s.check.cwd "README")).isSome = true
  | .own .testRelease => s.check.iskernel ≠ 0
  | .own (.cd d) => s.check.tree.isDir (inside s.check.cwd d) = true
  | .own .cdKernel =>
      s.check.cdArgs outside = [s.check.kernel] ∧ s.check.tree.isDir s.check.kernel = true
  | .own .cpS2e => s.check.Goes outside ⟨s.check.tree, true⟩ .cpS2e
  | .own _ => True
  | .cdBack => ∃ p ∈ s.oldpwd, s.check.tree.isDir p = true
  | .cpHere =>
      (s.check.tree.get? (inside (dirName s.check.cwd) "config/s2e.h")).any Node.isFile = true ∧
        s.check.tree.isDir (inside s.check.cwd "include/s2e") = true

instance (outside : Finset Str) (s : PartShell) : (c : PartCommand) → Decidable (s.Finds outside c)
  | .own .testReadme | .own (.cd _) => inferInstanceAs (Decidable (_ = _))
  | .own .testRelease => inferInstanceAs (Decidable (_ ≠ _))
  | .own .cdKernel => inferInstanceAs (Decidable (_ ∧ _))
  | .own .cpS2e => inferInstanceAs (Decidable (s.check.Goes outside ⟨s.check.tree, true⟩ .cpS2e))
  | .cdBack => inferInstanceAs (Decidable (∃ p ∈ s.oldpwd, _))
  | .cpHere => inferInstanceAs (Decidable (_ ∧ _))
  | .own .countRelease | .own .countInserted | .own .testInserted | .own .grepRcupdate
  | .own .mvRcupdate | .own .sedBitops | .own (.external _) | .own .mkdirS2e
  | .own .startTest => isTrue trivial

/-- Besides, no program from elsewhere creates or removes an s2e.h, and
startTest.sh keeps to what it writes. -/
structure GoesWell (outside : Finset Str) (o : Outcome) (s : PartShell) (c : PartCommand) :
    Prop where
  finds : s.Finds outside c
  possible : ∀ e, c = .own (.external e) → s.check.Possible e o
  keeps : ∀ e, c = .own (.external e) → s.check.Goes outside o (.external e)
  tests : c = .own .startTest → s.check.Tests o

end PartShell

/-- Where a command that goes well takes the shell. -/
def drift (kernel : Str) (x : Str × Option Str) : PartCommand → Str × Option Str
  | .own (.cd d) => (inside x.1 d, some x.1)
  | .own .cdKernel => (kernel, some x.1)
  | .cdBack => (x.2.getD x.1, some x.1)
  | _ => x

/-- Where commands that go well apply insert. -/
def insertsFrom (kernel : Str) : Str × Option Str → List PartCommand → List Str
  | _, [] => []
  | x, c :: l =>
      (if c = .own (.external .insert) then [x.1] else []) ++
        insertsFrom kernel (drift kernel x c) l

namespace PartShell

variable {s t : PartShell} {outside : Finset Str} {o : Outcome}

theorem exec_kernel {c : PartCommand} :
    (s.exec outside o c).check.kernel = s.check.kernel := by
  cases c with
  | own c => exact Check.exec_kernel c
  | cdBack =>
      simp only [exec]
      split
      · split <;> rfl
      · rfl
  | cpHere =>
      simp only [exec]
      split <;> rfl

theorem place_exec {c : PartCommand} (h : s.GoesWell outside o c) :
    (s.exec outside o c).place = drift s.check.kernel s.place c := by
  cases c with
  | own c =>
      cases c with
      | testReadme | testRelease | testInserted | sedBitops =>
          simp only [exec, Check.exec, place]
          split <;> rfl
      | cd d =>
          have hdir : s.check.tree.isDir (inside s.check.cwd d) = true := h.finds
          simp [exec, Check.exec, Check.entered, place, drift, hdir]
      | cdKernel =>
          obtain ⟨hargs, hdir⟩ := h.finds
          simp [exec, Check.exec, Check.entered, place, drift, hargs, hdir]
      | external e => cases e <;> rfl
      | _ => rfl
  | cdBack =>
      obtain ⟨p, hp, hdir⟩ := h.finds
      simp [exec, place, drift, Option.mem_def.mp hp, hdir]
  | cpHere =>
      simp only [exec, place]
      split <;> rfl

theorem places_exec {c : PartCommand} : (s.exec outside o c).check.places =
    s.check.places ++ if c = .own (.external .insert) then [s.check.cwd] else [] := by
  cases c with
  | own c =>
      have hinserts : (s.check.exec outside o c).inserts = _ := Check.exec_inserts c
      simp only [exec, Check.places, hinserts, List.map_append]
      by_cases hc : c = .external .insert <;> simp [hc]
  | cdBack =>
      simp only [exec]
      split
      · split <;> simp [Check.places]
      · simp
  | cpHere =>
      simp only [exec]
      split <;> simp [Check.places]

theorem leaves_of_straight {c : PartCommand}
    (hc : c ∉ [.own .testReadme, .own .testRelease, .own .testInserted])
    (rest : List PartCommand) : s.leaves rest c = rest := by
  cases c with
  | own c => cases c <;> simp_all [leaves]
  | _ => rfl

end PartShell

/-- A run that goes well goes where its commands say. -/
theorem Execs.places {l : List PartCommand} {s t : PartShell}
    (h : Execs PartShell.GoesWell l s t)
    (hl : ∀ c ∈ l, c ∉ [.own .testReadme, .own .testRelease, .own .testInserted]) :
    t.check.kernel = s.check.kernel ∧ t.place = l.foldl (drift s.check.kernel) s.place ∧
      t.check.places = s.check.places ++ insertsFrom s.check.kernel s.place l := by
  induction h with
  | nil s => simp [insertsFrom]
  | cons outside o hgood _ ih =>
      obtain ⟨hc, hl⟩ := List.forall_mem_cons.mp hl
      rw [PartShell.leaves_of_straight hc] at ih
      obtain ⟨hkernel, hplace, hplaces⟩ := ih hl
      rw [PartShell.exec_kernel] at hkernel
      refine ⟨hkernel, ?_, ?_⟩
      · rw [hplace, PartShell.exec_kernel, PartShell.place_exec hgood, List.foldl_cons]
      · rw [hplaces, PartShell.places_exec, PartShell.exec_kernel, PartShell.place_exec hgood,
          insertsFrom, List.append_assoc]
        rfl

/-! ## What becomes of the marker -/

theorem Check.marked_of_keys {s t : Check} (hs : s.Marked) (hkernel : t.kernel = s.kernel)
    (hkeys : ∀ p ∈ s.tree.keys, p ∈ t.tree.keys) : t.Marked := by
  obtain ⟨p, hp, hprefix, hname⟩ := marked_iff.mp hs
  exact marked_iff.mpr ⟨p, hkeys p hp, hkernel ▸ hprefix, hname⟩

theorem inside_ne_self (kernel : Str) (d : String) : inside kernel d ≠ kernel := fun h => by
  have hlength := congrArg List.length h
  simp [inside] at hlength

theorem mem_keys_put_of_mem {t : FileTree Contents} {p q : Str} {c : Contents}
    (h : q ∈ t.keys) : q ∈ (t.put p c).keys := by
  unfold FileTree.put
  split
  · exact FileTree.mem_keys_write.mpr (Or.inr h)
  · exact h

theorem mem_keys_mkdir_of_mem {t : FileTree Contents} {p q : Str} (h : q ∈ t.keys) :
    q ∈ (t.mkdir p).keys := by
  obtain ⟨n, hn⟩ := FileTree.mem_keys_iff.mp h
  exact FileTree.mem_keys_iff.mpr ⟨n, FileTree.mem_mkdir_of_mem hn⟩

namespace PartShell

variable {s t : PartShell} {outside : Finset Str} {o : Outcome}

theorem not_marked_exec {c : PartCommand} (h : s.GoesWell outside o c)
    (hc : c ∉ [.own .mvRcupdate, .own .cpS2e, .cpHere]) (hs : ¬ s.check.Marked) :
    ¬ (s.exec outside o c).check.Marked := by
  have hslash : '/' ∉ "s2e.h".toList := by decide
  cases c with
  | own c =>
      cases c with
      | mvRcupdate | cpS2e => simp at hc
      | testReadme | testRelease | testInserted | cd d =>
          simp only [exec, Check.exec]
          split <;> exact hs
      | cdKernel =>
          simp only [exec, Check.exec]
          split
          · split <;> exact hs
          · exact hs
      | grepRcupdate =>
          exact Check.not_marked_put hs (by rw [hasName_inside hslash]; decide)
      | sedBitops =>
          simp only [exec, Check.exec]
          split
          · exact Check.not_marked_put hs (by rw [hasName_inside hslash]; decide)
          · exact hs
      | external e =>
          have hkeys := (h.possible e rfl).no_marker
          cases e <;> exact Check.not_marked_of_keys hs rfl hkeys
      | mkdirS2e => exact Check.not_marked_mkdir hs (by rw [hasName_inside hslash]; decide)
      | startTest => exact fun hmark => hs ((Check.marked_of_tests (h.tests rfl)).mp hmark)
      | _ => exact hs
  | cdBack =>
      simp only [exec]
      split
      · split <;> exact hs
      · exact hs
  | cpHere => simp at hc

theorem marked_exec {c : PartCommand} (h : s.GoesWell outside o c)
    (hc : c ∉ [.own .grepRcupdate, .own .mvRcupdate, .own .sedBitops])
    (hs : s.check.Marked) : (s.exec outside o c).check.Marked := by
  cases c with
  | own c =>
      cases c with
      | grepRcupdate | mvRcupdate | sedBitops => simp at hc
      | testReadme | testRelease | testInserted | cd d =>
          simp only [exec, Check.exec]
          split <;> exact hs
      | cdKernel =>
          simp only [exec, Check.exec]
          split
          · split <;> exact hs
          · exact hs
      | external e =>
          have hkept : { s.check with tree := o.tree }.Marked := h.keeps e rfl hs
          cases e <;> exact Check.marked_of_keys hkept rfl fun _ hp => hp
      | mkdirS2e => exact Check.marked_of_keys hs rfl fun _ hp => mem_keys_mkdir_of_mem hp
      | cpS2e =>
          have hgoes : s.check.Goes outside o .cpS2e := h.finds
          have hcopied := Check.marked_cpS2e hgoes
          exact Check.marked_of_keys hcopied rfl fun _ hp => hp
      | startTest => exact (Check.marked_of_tests (h.tests rfl)).mpr hs
      | _ => exact hs
  | cdBack =>
      simp only [exec]
      split
      · split <;> exact hs
      · exact hs
  | cpHere =>
      simp only [exec]
      split
      · exact Check.marked_of_keys hs rfl fun _ => mem_keys_put_of_mem
      · exact hs

theorem marked_cpHere (h : s.GoesWell outside o .cpHere) (hcwd : s.check.cwd = s.check.kernel) :
    (s.exec outside o .cpHere).check.Marked := by
  obtain ⟨hheader, hdir⟩ := h.finds
  obtain ⟨n, hn, hfile⟩ := (Option.any_eq_true _ _).mp hheader
  cases n with
  | dir => cases hfile
  | file c =>
      have hslash : '/' ∉ "s2e.h".toList := by decide
      have hsplit : inside s.check.cwd "include/s2e/s2e.h" =
          inside s.check.cwd "include/s2e" ++ '/' :: "s2e.h".toList := by simp [inside]
      simp only [exec, hn]
      refine Check.marked_iff.mpr ⟨inside s.check.cwd "include/s2e/s2e.h", ?_, ?_, ?_⟩
      · apply FileTree.mem_keys_put_self
        rw [hsplit, dirName_join hslash, hdir]
      · rw [← hcwd]
        exact (List.prefix_append_right_inj s.check.cwd).mpr (by decide)
      · rw [hasName_inside hslash]
        decide

end PartShell

theorem Execs.marked {l : List PartCommand} {s t : PartShell} (h : Execs PartShell.GoesWell l s t)
    (hl : ∀ c ∈ l, c ∉ [.own .testReadme, .own .testRelease, .own .testInserted,
      .own .grepRcupdate, .own .mvRcupdate, .own .sedBitops])
    (hs : s.check.Marked) : t.check.Marked := by
  induction h with
  | nil s => exact hs
  | cons outside o hgood _ ih =>
      obtain ⟨hc, hl⟩ := List.forall_mem_cons.mp hl
      simp only [List.mem_cons, not_or] at hc
      rw [PartShell.leaves_of_straight (by simp [hc])] at ih
      exact ih hl (PartShell.marked_exec hgood (by simp [hc]) hs)

theorem Execs.not_marked {l : List PartCommand} {s t : PartShell}
    (h : Execs PartShell.GoesWell l s t)
    (hl : ∀ c ∈ l, c ∉ [.own .testReadme, .own .testRelease, .own .testInserted,
      .own .mvRcupdate, .own .cpS2e, .cpHere])
    (hs : ¬ s.check.Marked) : ¬ t.check.Marked := by
  induction h with
  | nil s => exact hs
  | cons outside o hgood _ ih =>
      obtain ⟨hc, hl⟩ := List.forall_mem_cons.mp hl
      simp only [List.mem_cons, not_or] at hc
      rw [PartShell.leaves_of_straight (by simp [hc])] at ih
      exact ih hl (PartShell.not_marked_exec hgood (by simp [hc]) hs)

/-! ## What the scripts come to -/

structure Check.SameFiles (s t : Check) : Prop where
  kernel : t.kernel = s.kernel
  cwd : t.cwd = s.cwd
  tree : t.tree = s.tree
  inserts : t.inserts = s.inserts

theorem Check.SameFiles.trans {s t u : Check} (h : s.SameFiles t) (h' : t.SameFiles u) :
    s.SameFiles u :=
  ⟨h'.kernel.trans h.kernel, h'.cwd.trans h.cwd, h'.tree.trans h.tree, h'.inserts.trans h.inserts⟩

theorem Check.SameFiles.marked {s t : Check} (h : s.SameFiles t) : t.Marked ↔ s.Marked := by
  rw [Marked, Marked, h.tree, h.kernel]

theorem PartShell.sameFiles_exec {s : PartShell} (outside : Finset Str) (o : Outcome) {c : Command}
    (hc : c ∈ looks ++ [.testInserted]) :
    s.check.SameFiles (s.exec outside o (.own c)).check := by
  simp only [looks, List.cons_append, List.nil_append, List.mem_cons, List.not_mem_nil,
    or_false] at hc
  rcases hc with rfl | rfl | rfl | rfl | rfl
  all_goals
    simp only [exec, Check.exec]
    first
      | exact ⟨rfl, rfl, rfl, rfl⟩
      | split <;> exact ⟨rfl, rfl, rfl, rfl⟩

theorem Execs.cons_inv {good : Finset Str → Outcome → PartShell → PartCommand → Prop}
    {c : PartCommand} {rest : List PartCommand} {s t : PartShell} (h : Execs good (c :: rest) s t) :
    ∃ outside o, good outside o s c ∧ Execs good (s.leaves rest c) (s.exec outside o c) t := by
  cases h with
  | cons outside o hgood hrest => exact ⟨outside, o, hgood, hrest⟩

theorem PartShell.leaves_of_look {s : PartShell} {outside : Finset Str} {o : Outcome}
    {c : Command} (hc : c ∈ looks) (h : s.GoesWell outside o (.own c)) (rest : List PartCommand) :
    s.leaves rest (.own c) = rest := by
  simp only [looks, List.mem_cons, List.not_mem_nil, or_false] at hc
  rcases hc with rfl | rfl | rfl | rfl
  · exact if_pos h.finds
  · rfl
  · exact if_neg h.finds
  · rfl

theorem Execs.of_looks (l : List Command) {rest : List PartCommand} {s t : PartShell}
    (h : Execs PartShell.GoesWell (l.map .own ++ rest) s t) (hl : ∀ c ∈ l, c ∈ looks) :
    ∃ u, s.check.SameFiles u.check ∧ Execs PartShell.GoesWell rest u t ∧
      ∀ {rest' t'}, Execs PartShell.GoesWell rest' u t' →
        Execs PartShell.GoesWell (l.map .own ++ rest') s t' := by
  induction l generalizing s with
  | nil => exact ⟨s, ⟨rfl, rfl, rfl, rfl⟩, h, id⟩
  | cons c l ih =>
      obtain ⟨hc, hl⟩ := List.forall_mem_cons.mp hl
      obtain ⟨outside, o, hgood, hrest⟩ := h.cons_inv
      rw [PartShell.leaves_of_look hc hgood] at hrest
      obtain ⟨u, hu, hexecs, hother⟩ := ih hrest hl
      refine ⟨u, (PartShell.sameFiles_exec outside o (List.mem_append_left _ hc)).trans hu, hexecs,
        fun h' => .cons outside o hgood ?_⟩
      rw [PartShell.leaves_of_look hc hgood]
      exact hother h'

theorem Execs.straight_inv {good : Finset Str → Outcome → PartShell → PartCommand → Prop}
    {c : PartCommand} {rest : List PartCommand} {s t : PartShell} (h : Execs good (c :: rest) s t)
    (hc : c ∉ [.own .testReadme, .own .testRelease, .own .testInserted]) :
    ∃ outside o, good outside o s c ∧ Execs good rest (s.exec outside o c) t := by
  obtain ⟨outside, o, hgood, hrest⟩ := h.cons_inv
  rw [PartShell.leaves_of_straight hc] at hrest
  exact ⟨outside, o, hgood, hrest⟩

/-- The checks of checkKernel.sh and onlykint.sh: with an s2e.h the script only
starts startTest.sh.  What follows the checks makes no difference to them. -/
theorem Execs.checks {body : List Command} {s t : PartShell}
    (h : Execs PartShell.GoesWell ((looks ++ .testInserted :: body).map .own) s t)
    (hcwd : s.check.cwd = s.check.kernel) :
    (s.check.Marked ∧ ∃ u, s.check.SameFiles u.check ∧
        Execs PartShell.GoesWell [.own .startTest] u t) ∨
      (¬ s.check.Marked ∧ ∃ u, s.check.SameFiles u.check ∧
        Execs PartShell.GoesWell (body.map .own) u t ∧
          ∀ {body' t'}, Execs PartShell.GoesWell (body'.map .own) u t' →
            Execs PartShell.GoesWell ((looks ++ .testInserted :: body').map .own) s t') := by
  have hlooks : (looks ++ .testInserted :: body).map PartCommand.own =
      [.testReadme, .countRelease, .testRelease].map .own ++
        .own .countInserted :: .own .testInserted :: body.map .own := rfl
  rw [hlooks] at h
  obtain ⟨u, hu, hcount, hother⟩ := Execs.of_looks _ h (by decide)
  obtain ⟨x, o, hcounted, htest⟩ := hcount.cons_inv
  have hfiles := hu.trans (PartShell.sameFiles_exec x o
    (List.mem_append_left _ (by decide : .countInserted ∈ looks)))
  have hfound : 0 < (u.exec x o (.own .countInserted)).check.inserted ↔ s.check.Marked := by
    change 0 < lineCount (printLines (u.check.tree.below u.check.cwd _)) ↔ _
    rw [lineCount_printLines_pos, hu.cwd, hcwd, hu.tree]
    rfl
  generalize hv : u.exec x o (.own .countInserted) = v at htest hfiles hfound
  obtain ⟨x', o', htested, hrest⟩ := htest.cons_inv
  have hfiles' := hfiles.trans (PartShell.sameFiles_exec x' o'
    (by simp : .testInserted ∈ looks ++ [.testInserted]))
  rw [PartShell.leaves] at hrest
  split at hrest
  · next hinserted => exact Or.inl ⟨hfound.mp hinserted, _, hfiles', hrest⟩
  · next hinserted =>
      refine Or.inr ⟨fun hmark => hinserted (hfound.mpr hmark), _, hfiles', hrest, fun h' => ?_⟩
      subst hv
      refine hother (.cons x o hcounted (.cons x' o' htested ?_))
      rwa [PartShell.leaves, if_neg hinserted]

/-- What is known of a kernel: whether there is an s2e.h, and where insert has
been applied so far. -/
structure Standing where
  marked : Bool
  places : List Str
  deriving DecidableEq

def Check.standing (s : Check) : Standing := ⟨decide s.Marked, s.places⟩

/-- What a script is good for. -/
def Part.on (kernel : Str) (x : Standing) : Part → Standing
  | .checkKernel => if x.marked then x else ⟨true, x.places ++ toInsert.map (inside kernel)⟩
  | .onlykint | .onlybzImage => x
  | .onlyinsert => ⟨true, x.places ++ toInsert.map (inside kernel)⟩
  | .insertall => ⟨true, x.places ++ [kernel]⟩

section Standing

variable {s : Check} {oldpwd : Option Str} {t u : PartShell}

theorem Check.SameFiles.standing {s t : Check} (h : s.SameFiles t) : t.standing = s.standing := by
  rw [Check.standing, Check.standing, Check.places, Check.places, h.inserts,
    decide_eq_decide.mpr h.marked]

theorem Check.standing_of_marked {s : Check} {ps : List Str} (hmark : s.Marked)
    (hplaces : s.places = ps) : s.standing = ⟨true, ps⟩ := by
  rw [Check.standing, decide_eq_true hmark, hplaces]

theorem Execs.standing_startTest (h : Execs PartShell.GoesWell [.own .startTest] u t) :
    t.check.kernel = u.check.kernel ∧ t.check.standing = u.check.standing := by
  obtain ⟨hkernel, -, hplaces⟩ := h.places (by decide)
  have hmark : t.check.Marked ↔ u.check.Marked :=
    ⟨not_imp_not.mp (h.not_marked (by decide)), h.marked (by decide)⟩
  refine ⟨hkernel, ?_⟩
  rw [Check.standing, Check.standing, decide_eq_decide.mpr hmark, hplaces]
  exact congrArg _ (List.append_nil _)

/-- Both end in `cp ../config/s2e.h include/s2e/`. -/
theorem Execs.standing_cpHere {l : List PartCommand}
    (h : Execs PartShell.GoesWell (l ++ [.cpHere]) (s.begin oldpwd) t)
    (hl : ∀ c ∈ l, c ∉ [.own .testReadme, .own .testRelease, .own .testInserted])
    (hcwd : (l.foldl (drift s.kernel) (s.kernel, oldpwd)).1 = s.kernel) :
    t.check.kernel = s.kernel ∧ t.check.standing =
      ⟨true, s.places ++ insertsFrom s.kernel (s.kernel, oldpwd) l⟩ := by
  obtain ⟨u, hfirst, hlast⟩ := h.append fun c hc v rest =>
    PartShell.leaves_of_straight (s := v) (hl c hc) rest
  obtain ⟨hkernel, hplace, hplaces⟩ := hfirst.places hl
  obtain ⟨outside, o, hgood, hend⟩ := hlast.cons_inv
  cases hend
  have hhere : u.check.cwd = u.check.kernel := by
    rw [hkernel]
    exact (congrArg Prod.fst hplace).trans hcwd
  refine ⟨PartShell.exec_kernel.trans hkernel, ?_⟩
  apply Check.standing_of_marked (PartShell.marked_cpHere hgood hhere)
  rw [PartShell.places_exec, if_neg (by simp), List.append_nil, hplaces]
  rfl

theorem Execs.standing_onlyinsert
    (h : Execs PartShell.GoesWell Part.onlyinsert.script (s.begin oldpwd) t) :
    t.check.kernel = s.kernel ∧ t.check.standing = Part.onlyinsert.on s.kernel s.standing :=
  Execs.standing_cpHere (l := toInsert.flatMap insertThere ++ [.own .mkdirS2e]) h
    (by decide) rfl

theorem Execs.standing_insertall
    (h : Execs PartShell.GoesWell Part.insertall.script (s.begin oldpwd) t) :
    t.check.kernel = s.kernel ∧ t.check.standing = Part.insertall.on s.kernel s.standing :=
  Execs.standing_cpHere
    (l := [.own (.external .pintck), .own (.external .insert), .own .mkdirS2e]) h (by decide) rfl

theorem Execs.standing_onlybzImage
    (h : Execs PartShell.GoesWell Part.onlybzImage.script (s.begin oldpwd) t) :
    t.check.kernel = s.kernel ∧ t.check.standing = Part.onlybzImage.on s.kernel s.standing := by
  obtain ⟨hkernel, -, hplaces⟩ := h.places (by decide)
  have hmark : t.check.Marked ↔ s.Marked :=
    ⟨not_imp_not.mp (h.not_marked (by decide)), h.marked (by decide)⟩
  refine ⟨hkernel, ?_⟩
  rw [Check.standing, decide_eq_decide.mpr hmark, hplaces]
  exact congrArg _ (List.append_nil _)

/-- The fixes and the first compilation create no s2e.h. -/
theorem Execs.not_marked_compileByKint {v : PartShell}
    (h : Execs PartShell.GoesWell (compileByKint.map .own) v t)
    (hcwd : v.check.cwd = v.check.kernel) (hmark : ¬ v.check.Marked) : ¬ t.check.Marked := by
  obtain ⟨x, o, hgrep, h₁⟩ := h.cons_inv
  have hmark₁ := PartShell.not_marked_exec hgrep (by simp) hmark
  have hcwd₁ : (v.exec x o (.own .grepRcupdate)).check.cwd =
      (v.exec x o (.own .grepRcupdate)).check.kernel := hcwd
  generalize v.exec x o (.own .grepRcupdate) = v₁ at h₁ hmark₁ hcwd₁
  obtain ⟨x', o', -, h₂⟩ := h₁.cons_inv
  refine Execs.not_marked (l := compileByKint.tail.tail.map .own) h₂ (by decide) fun hmoved => ?_
  have hmoved' := Check.marked_of_keys hmoved
    (t := v₁.check.exec x' o' .mvRcupdate) rfl fun _ hp => hp
  exact Check.not_marked_mvRcupdate hmark₁ hcwd₁ hmoved'

theorem Execs.standing_onlykint
    (h : Execs PartShell.GoesWell Part.onlykint.script (s.begin oldpwd) t) :
    t.check.kernel = s.kernel ∧ t.check.standing = Part.onlykint.on s.kernel s.standing := by
  rcases h.checks rfl with ⟨-, u, hsame, hstart⟩ | ⟨hmark, u, hsame, hbody, -⟩
  · obtain ⟨hkernel, hstanding⟩ := hstart.standing_startTest
    exact ⟨hkernel.trans hsame.kernel, hstanding.trans hsame.standing⟩
  · obtain ⟨hkernel, -, hplaces⟩ := hbody.places (by decide)
    have hcwd : u.check.cwd = u.check.kernel := hsame.cwd.trans hsame.kernel.symm
    have hmark' : ¬ u.check.Marked := fun h => hmark (hsame.marked.mp h)
    have hend : t.check.Marked ↔ u.check.Marked :=
      iff_of_false (hbody.not_marked_compileByKint hcwd hmark') hmark'
    have hplaces' : t.check.places = u.check.places := hplaces.trans (List.append_nil _)
    refine ⟨hkernel.trans hsame.kernel, ?_⟩
    have hstanding : t.check.standing = u.check.standing := by
      rw [Check.standing, Check.standing, decide_eq_decide.mpr hend, hplaces']
    exact hstanding.trans hsame.standing

theorem Execs.standing_checkKernel
    (h : Execs PartShell.GoesWell Part.checkKernel.script (s.begin oldpwd) t) :
    t.check.kernel = s.kernel ∧ t.check.standing = Part.checkKernel.on s.kernel s.standing := by
  rcases h.checks rfl with ⟨hmark, u, hsame, hstart⟩ | ⟨hmark, u, hsame, hbody, -⟩
  · have hmarked : s.standing.marked = true := decide_eq_true hmark
    obtain ⟨hkernel, hstanding⟩ := hstart.standing_startTest
    refine ⟨hkernel.trans hsame.kernel, ?_⟩
    rw [Part.on, if_pos hmarked]
    exact hstanding.trans hsame.standing
  · have hunmarked : ¬ s.standing.marked = true := by
      rw [Check.standing, decide_eq_true_eq]
      exact hmark
    obtain ⟨hkernel, -, hplaces⟩ := hbody.places (by decide)
    rw [List.map_append] at hbody
    obtain ⟨v, -, hlast⟩ := hbody.append fun c hc w rest =>
      PartShell.leaves_of_straight (s := w)
        ((by decide : ∀ c ∈ work.map PartCommand.own, c ∉
          [.own .testReadme, .own .testRelease, .own .testInserted]) c hc) rest
    obtain ⟨x, o, hgood, hfinish⟩ := hlast.cons_inv
    have hgoes : v.check.Goes x o .cpS2e := hgood.finds
    have hcopied : (v.exec x o (.own .cpS2e)).check.Marked :=
      Check.marked_of_keys (Check.marked_cpS2e hgoes) rfl fun _ hp => hp
    have hmarked : t.check.Marked :=
      Execs.marked (l := finish.map .own) hfinish (by decide) hcopied
    refine ⟨hkernel.trans hsame.kernel, ?_⟩
    rw [Part.on, if_neg hunmarked]
    apply Check.standing_of_marked hmarked
    rw [hplaces, PartShell.place, hsame.cwd, hsame.kernel, Check.places, hsame.inserts]
    rfl

/-- Each script has the effect on a kernel that it is good for. -/
theorem Execs.standing {p : Part} (h : Execs PartShell.GoesWell p.script (s.begin oldpwd) t) :
    t.check.kernel = s.kernel ∧ t.check.standing = p.on s.kernel s.standing := by
  cases p with
  | checkKernel => exact h.standing_checkKernel
  | onlykint => exact h.standing_onlykint
  | onlyinsert => exact h.standing_onlyinsert
  | insertall => exact h.standing_insertall
  | onlybzImage => exact h.standing_onlybzImage

end Standing

/-- Scripts run one after another, each to its end. -/
inductive Plays : List Part → Check → Check → Prop
  | nil (s : Check) : Plays [] s s
  | cons {p : Part} {ps : List Part} {s u : Check} {t : PartShell} (oldpwd : Option Str)
      (h : Execs PartShell.GoesWell p.script (s.begin oldpwd) t) (hrest : Plays ps t.check u) :
      Plays (p :: ps) s u

/-- In whatever order the scripts are run: whether there is an s2e.h in the end
and where insert has been applied, and how often, follows from the order alone. -/
theorem standing_of_plays {ps : List Part} {s t : Check} (h : Plays ps s t) :
    t.standing = ps.foldl (Part.on s.kernel) s.standing := by
  induction h with
  | nil s => rfl
  | cons oldpwd h _ ih =>
      obtain ⟨hkernel, hstanding⟩ := h.standing
      rw [ih, hkernel, hstanding, List.foldl_cons]

/-! ## When the marker is right -/

section On

variable {kernel : Str} {ps : List Part}

theorem places_prefix_foldl_on (kernel : Str) (x : Standing) (ps : List Part) :
    x.places <+: (ps.foldl (Part.on kernel) x).places := by
  induction ps generalizing x with
  | nil => exact List.prefix_refl _
  | cons p ps ih =>
      have hone : x.places <+: (Part.on kernel x p).places := by
        cases p with
        | checkKernel =>
            simp only [Part.on]
            split
            · exact List.prefix_refl _
            · exact List.prefix_append _ _
        | onlykint | onlybzImage => exact List.prefix_refl _
        | onlyinsert | insertall => exact List.prefix_append _ _
      exact hone.trans (ih _)

/-- With an s2e.h only the scripts that do not look for it apply insert. -/
theorem foldl_on_eq_self_iff (kernel : Str) (l : List Str) (ps : List Part) :
    ps.foldl (Part.on kernel) ⟨true, l⟩ = ⟨true, l⟩ ↔
      ∀ p ∈ ps, p ∉ [.onlyinsert, .insertall] := by
  induction ps with
  | nil => simp
  | cons p ps ih =>
      have hlonger : ∀ more, more ≠ [] →
          ps.foldl (Part.on kernel) ⟨true, l ++ more⟩ ≠ ⟨true, l⟩ := by
        intro more hmore heq
        have hprefix := places_prefix_foldl_on kernel ⟨true, l ++ more⟩ ps
        rw [heq] at hprefix
        have hlength : (l ++ more).length ≤ l.length := hprefix.length_le
        rw [List.length_append] at hlength
        exact hmore (List.length_eq_zero_iff.mp (by omega))
      rw [List.foldl_cons, List.forall_mem_cons]
      cases p with
      | checkKernel | onlykint | onlybzImage => simpa [Part.on] using ih
      | onlyinsert => simpa [Part.on] using hlonger _ (by simp [toInsert])
      | insertall => simpa [Part.on] using hlonger [kernel] (by simp)

/-- The marker says what it should after exactly these orders of scripts. -/
def Orderly (ps : List Part) : Prop :=
  ∃ before first after, ps = before ++ first :: after ∧
    (∀ p ∈ before, p ∈ [.onlykint, .onlybzImage]) ∧ first ∈ [.checkKernel, .onlyinsert] ∧
      ∀ p ∈ after, p ∉ [.onlyinsert, .insertall]

theorem orderly_cons_of_idle {p : Part} (hp : p ∈ [.onlykint, .onlybzImage]) :
    Orderly (p :: ps) ↔ Orderly ps := by
  constructor
  · rintro ⟨before, first, after, heq, hbefore, hfirst, hafter⟩
    rcases List.cons_eq_append_iff.mp heq with ⟨rfl, hcons⟩ | ⟨before', rfl, heq'⟩
    · obtain ⟨rfl, -⟩ := List.cons.inj hcons
      cases first <;> simp at hp hfirst
    · exact ⟨before', first, after, heq', (List.forall_mem_cons.mp hbefore).2, hfirst, hafter⟩
  · rintro ⟨before, first, after, rfl, hbefore, hfirst, hafter⟩
    exact ⟨p :: before, first, after, rfl, List.forall_mem_cons.mpr ⟨hp, hbefore⟩, hfirst, hafter⟩

theorem orderly_cons_of_busy {p : Part} (hp : p ∉ [.onlykint, .onlybzImage]) :
    Orderly (p :: ps) ↔ p ∈ [.checkKernel, .onlyinsert] ∧
      ∀ q ∈ ps, q ∉ [.onlyinsert, .insertall] := by
  constructor
  · rintro ⟨before, first, after, heq, hbefore, hfirst, hafter⟩
    rcases List.cons_eq_append_iff.mp heq with ⟨rfl, hcons⟩ | ⟨before', rfl, heq'⟩
    · obtain ⟨rfl, rfl⟩ := List.cons.inj hcons
      exact ⟨hfirst, hafter⟩
    · exact absurd (hbefore p List.mem_cons_self) hp
  · rintro ⟨hfirst, hafter⟩
    exact ⟨[], p, ps, rfl, by simp, hfirst, hafter⟩

theorem foldl_on_eq_all_iff (kernel : Str) (ps : List Part) :
    ps.foldl (Part.on kernel) ⟨false, []⟩ = ⟨true, toInsert.map (inside kernel)⟩ ↔
      Orderly ps := by
  induction ps with
  | nil => simp [Orderly]
  | cons p ps ih =>
      rw [List.foldl_cons]
      cases p with
      | onlykint => rw [orderly_cons_of_idle (by simp), ← ih]; rfl
      | onlybzImage => rw [orderly_cons_of_idle (by simp), ← ih]; rfl
      | checkKernel =>
          rw [orderly_cons_of_busy (by simp), ←
            foldl_on_eq_self_iff kernel (toInsert.map (inside kernel))]
          simp [Part.on]
      | onlyinsert =>
          rw [orderly_cons_of_busy (by simp), ←
            foldl_on_eq_self_iff kernel (toInsert.map (inside kernel))]
          simp [Part.on]
      | insertall =>
          rw [orderly_cons_of_busy (by simp)]
          refine iff_of_false (fun heq => ?_) (by simp)
          have hprefix := places_prefix_foldl_on kernel ⟨true, [kernel]⟩ ps
          change ps.foldl (Part.on kernel) ⟨true, [kernel]⟩ = _ at heq
          rw [heq] at hprefix
          have hhead : kernel = inside kernel "net/ipv4" := (List.cons_prefix_cons.mp hprefix).1
          exact absurd (congrArg List.length hhead) (by simp [inside])

end On

theorem Plays.kernel_eq {ps : List Part} {s t : Check} (h : Plays ps s t) :
    t.kernel = s.kernel := by
  induction h with
  | nil s => rfl
  | cons oldpwd h _ ih => exact ih.trans h.standing.1

/-- From a fresh kernel on, an s2e.h means that the three directories have been
instrumented once each if and only if exactly one script has done so. -/
theorem marker_right_iff {ps : List Part} {s t : Check} (hfresh : ¬ s.Marked)
    (hinserts : s.inserts = []) (h : Plays ps s t) :
    (t.Marked ∧ t.inserts.map Prod.fst = toInsert.map (inside t.kernel)) ↔ Orderly ps := by
  have hstart : s.standing = ⟨false, []⟩ := by
    rw [Check.standing, decide_eq_false hfresh, Check.places, hinserts]
    rfl
  have hend := standing_of_plays h
  rw [hstart] at hend
  rw [← foldl_on_eq_all_iff s.kernel, ← hend, h.kernel_eq, Check.standing,
    Standing.mk.injEq, decide_eq_true_eq, Check.places]

/-! ## Examples -/

namespace PartShell

/-- The programs from elsewhere leave the files alone. -/
def untouched (s : PartShell) : Outcome := ⟨s.check.tree, true⟩

/-- The next `n` commands, if there are so many. -/
def runs : ℕ → List PartCommand → PartShell → PartShell
  | n + 1, c :: rest, s => runs n (s.leaves rest c) (s.exec ∅ s.untouched c)
  | _, _, s => s

def Smooth : ℕ → List PartCommand → PartShell → Prop
  | _, [], _ => True
  | 0, _ :: _, _ => False
  | n + 1, c :: rest, s =>
      c ≠ .own (.external .bzImage) ∧ s.Finds ∅ c ∧
        Smooth n (s.leaves rest c) (s.exec ∅ s.untouched c)

instance decidableSmooth : (n : ℕ) → (l : List PartCommand) → (s : PartShell) →
    Decidable (Smooth n l s)
  | _, [], _ => isTrue (by simp [Smooth])
  | 0, _ :: _, _ => isFalse (by simp [Smooth])
  | n + 1, c :: rest, s =>
      have := decidableSmooth n (s.leaves rest c) (s.exec ∅ s.untouched c)
      inferInstanceAs (Decidable (_ ∧ _ ∧ _))

theorem Smooth.execs {n : ℕ} {l : List PartCommand} {s : PartShell} (h : Smooth n l s) :
    Execs GoesWell l s (runs n l s) := by
  induction n generalizing l s with
  | zero =>
      cases l with
      | nil => exact .nil s
      | cons c rest => exact h.elim
  | succ n ih =>
      cases l with
      | nil => exact .nil s
      | cons c rest =>
          obtain ⟨hc, hfinds, hrest⟩ := h
          refine .cons ∅ s.untouched ⟨hfinds, fun e he => ?_, fun e he hmark => hmark,
            fun _ => FileTree.SameOn.refl _⟩ (ih hrest)
          apply Check.possible_untouched
          rintro rfl
          exact hc he

end PartShell

/-- onlyinsert.sh on the small kernel, and checkKernel.sh after it. -/
def insertedCheck : Check :=
  (PartShell.runs 14 Part.onlyinsert.script (freshCheck.begin none)).check

def checkedAgain : Check :=
  (PartShell.runs 6 Part.checkKernel.script (insertedCheck.begin none)).check

theorem plays_onlyinsert_checkKernel :
    Plays [.onlyinsert, .checkKernel] freshCheck checkedAgain :=
  .cons none (PartShell.Smooth.execs (by decide +kernel))
    (.cons none (PartShell.Smooth.execs (by decide +kernel)) (.nil _))

theorem standing_of_plays_smallKernel : checkedAgain.standing =
    [Part.onlyinsert, .checkKernel].foldl (Part.on "/k".toList) freshCheck.standing :=
  standing_of_plays plays_onlyinsert_checkKernel

theorem marker_right_iff_smallKernel :
    (checkedAgain.Marked ∧ checkedAgain.inserts.map Prod.fst =
      toInsert.map (inside checkedAgain.kernel)) ↔ Orderly [.onlyinsert, .checkKernel] :=
  marker_right_iff (by decide +kernel) rfl plays_onlyinsert_checkKernel

end AutoTestKernel.CheckKernel
