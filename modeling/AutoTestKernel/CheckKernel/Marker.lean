import AutoTestKernel.CheckKernel.Script
import AutoTestKernel.Library.Runs

/-!
# The marker s2e.h

A kernel tree with an s2e.h should be one in which the three directories have
been instrumented, each of them once.  The file is copied after the last of
them, so a run that stops between the first and the copy leaves instrumented
directories without a marker, and the next run instruments them again.
-/

namespace AutoTestKernel.CheckKernel

open Text Shell Fs Runs

def applied (l : List (Str × Command)) : List Str :=
  (l.filter fun x => x.2 = .external .insert).map Prod.fst

@[simp] theorem applied_nil : applied [] = [] := rfl

theorem applied_cons (x : Str × Command) (l : List (Str × Command)) :
    applied (x :: l) = applied [x] ++ applied l := by
  rw [applied, applied, applied, ← List.map_append, ← List.filter_append]
  rfl

theorem applied_of_ne {c : Command} (h : c ≠ .external .insert) (d : Str) :
    applied [(d, c)] = [] := by
  simp [applied, h]

theorem applied_work (kernel : Str) :
    applied (ahead (moves kernel) kernel work) = toInsert.map (inside kernel) := rfl

theorem hasName_inside {n : Str} (hn : '/' ∉ n) (d : Str) (m : String) :
    hasName n (inside d m) = hasName n ('/' :: m.toList) :=
  hasName_append hn

namespace Check

variable {s t : Check} {outside : Finset Str} {o : Outcome}

theorem marked_iff : s.Marked ↔ ∃ p ∈ s.tree.keys,
    s.kernel ++ ['/'] <+: p ∧ hasName "s2e.h".toList p = true := by
  simp only [Marked, ne_eq, List.eq_nil_iff_forall_not_mem, not_forall, not_not,
    FileTree.mem_below]

theorem not_marked_of_keys (hs : ¬ s.Marked) (hkernel : t.kernel = s.kernel)
    (hkeys : ∀ p ∈ t.tree.keys, hasName "s2e.h".toList p = true → p ∈ s.tree.keys) :
    ¬ t.Marked := by
  intro ht
  obtain ⟨p, hp, hprefix, hname⟩ := marked_iff.mp ht
  exact hs (marked_iff.mpr ⟨p, hkeys p hp hname, hkernel ▸ hprefix, hname⟩)

theorem not_marked_put {p : Str} {c : Contents} (hs : ¬ s.Marked)
    (hp : hasName "s2e.h".toList p = false) : ¬ { s with tree := s.tree.put p c }.Marked := by
  refine not_marked_of_keys hs rfl fun q hq hname => ?_
  refine (FileTree.mem_keys_put hq).resolve_left fun heq => ?_
  exact absurd (hp.symm.trans (heq ▸ hname)) (by decide)

theorem not_marked_mkdir {p : Str} (hs : ¬ s.Marked)
    (hp : hasName "s2e.h".toList p = false) : ¬ { s with tree := s.tree.mkdir p }.Marked := by
  refine not_marked_of_keys hs rfl fun q hq hname => ?_
  refine (FileTree.mem_keys_mkdir hq).resolve_left fun heq => ?_
  exact absurd (hp.symm.trans (heq ▸ hname)) (by decide)

theorem not_marked_mvRcupdate (hs : ¬ s.Marked) (hcwd : s.cwd = s.kernel) :
    ¬ (s.exec outside o .mvRcupdate).Marked := by
  have hslash : '/' ∉ "s2e.h".toList := by decide
  have hbase : baseName (inside s.cwd "include/linux/rcupdate.h.new") =
      "rcupdate.h.new".toList := by
    have hsplit : inside s.cwd "include/linux/rcupdate.h.new" =
        inside s.cwd "include/linux" ++ '/' :: "rcupdate.h.new".toList := by simp [inside]
    rw [hsplit]
    exact baseName_join (by decide)
  intro ht
  obtain ⟨p, hp, hprefix, hname⟩ := marked_iff.mp ht
  obtain ⟨q, hq, hqname, hmoved⟩ := FileTree.of_mem_keys_mv hp hslash hname
    (by rw [hasName_inside hslash]; decide)
    (by rw [hasName_append hslash, hbase]; decide)
  refine hs (marked_iff.mpr ⟨q, hq, ?_, hqname⟩)
  rcases hmoved with rfl | hmoved
  · exact hprefix
  · apply List.IsPrefix.trans _ hmoved
    rw [inside, hcwd, List.append_assoc]
    exact (List.prefix_append_right_inj _).mpr (by decide)

/-- When a command keeps the marker right: up to the copy `cd` finds the
directories, s2e.h is copied, and no program from elsewhere removes it. -/
def Goes (outside : Finset Str) (o : Outcome) (s : Check) : Command → Prop
  | .cd d => s.tree.isDir (inside s.cwd d) = true
  | .cdKernel =>
      .cpS2e ∈ s.todo → s.cdArgs outside = [s.kernel] ∧ s.tree.isDir s.kernel = true
  | .cpS2e =>
      s.cpArgs outside = [inside s.kernel "../config/s2e.h", inside s.kernel "include/s2e/"] ∧
        s.header.any Node.isFile = true ∧ s.tree.isDir (inside s.kernel "include/s2e") = true
  | .external _ => s.Marked → { s with tree := o.tree }.Marked
  | _ => True

instance (outside : Finset Str) (o : Outcome) (s : Check) :
    (c : Command) → Decidable (s.Goes outside o c)
  | .cd _ => inferInstanceAs (Decidable (_ = _))
  | .cdKernel => inferInstanceAs (Decidable (_ → _ ∧ _))
  | .cpS2e => inferInstanceAs (Decidable (_ ∧ _ ∧ _))
  | .external _ => inferInstanceAs (Decidable (_ → _))
  | .testReadme | .countRelease | .testRelease | .countInserted | .testInserted | .grepRcupdate
  | .mvRcupdate | .sedBitops | .mkdirS2e | .startTest => isTrue trivial

/-- The run has not begun to instrument, or it has copied s2e.h. -/
def OutsideLoop (s : Check) : Prop :=
  s.todo.count (.external .insert) = toInsert.length ∨ .cpS2e ∉ s.todo

inductive NextCareful (s : Check) : Check → Prop
  | command (c : Command) (rest : List Command) (htodo : s.todo = c :: rest)
      (outside : Finset Str) (o : Outcome) (h : s.Performs o) (hgoes : s.Goes outside o c) :
      NextCareful s (s.step outside o)
  | stop (h : s.todo ≠ []) (hloop : s.OutsideLoop) : NextCareful s s.stop
  | start (h : s.todo = []) : NextCareful s s.start

def places (s : Check) : List Str := s.inserts.map Prod.fst

def allPlaces (s : Check) : List Str := toInsert.map (inside s.kernel)

/-- What the marker says while no run is at work. -/
structure Settled (s : Check) : Prop where
  marked : s.Marked → s.places = s.allPlaces
  unmarked : ¬ s.Marked → s.places = []

/-- How far the script is, and what that says about the marker. -/
inductive Stage (s : Check) : Prop
  | idle (htodo : s.todo = []) (hsettled : s.Settled)
  | looking (rest : List Command) (hrest : rest <:+ looks)
      (htodo : s.todo = rest ++ .testInserted :: (work ++ .cpS2e :: finish))
      (hcwd : s.cwd = s.kernel) (hsettled : s.Settled)
      (hcount : rest = [] → (0 < s.inserted ↔ s.Marked))
  | working (rest : List Command)
      (hrest : s.path rest <:+ ahead (moves s.kernel) s.kernel work)
      (htodo : s.todo = rest ++ .cpS2e :: finish) (hmark : ¬ s.Marked)
      (hplaces : s.places ++ applied (s.path rest) = s.allPlaces)
  | finishing (htodo : s.todo <:+ finish) (hmark : s.Marked) (hplaces : s.places = s.allPlaces)

/-- Commands before the copy create no s2e.h, and go on as planned. -/
theorem exec_work {c : Command} (hplan : (s.cwd, c) ∈ ahead (moves s.kernel) s.kernel work)
    (hcp : .cpS2e ∈ s.todo) (hperf : ∀ e, c = .external e → s.Possible e o)
    (hgoes : s.Goes outside o c) (hs : ¬ s.Marked) :
    (s.exec outside o c).kernel = s.kernel ∧ (s.exec outside o c).todo = s.todo ∧
      (s.exec outside o c).cwd = moves s.kernel s.cwd c ∧ ¬ (s.exec outside o c).Marked ∧
      (s.exec outside o c).places = s.places ++ applied [(s.cwd, c)] := by
  have hslash : '/' ∉ "s2e.h".toList := by decide
  cases c with
  | testReadme | countRelease | testRelease | countInserted | testInserted | startTest | cpS2e =>
      simp [ahead, work, insertInto, toInsert, moves] at hplan
  | grepRcupdate =>
      refine ⟨rfl, rfl, rfl, ?_, by simp [exec, places, applied]⟩
      exact not_marked_put hs (by rw [hasName_inside hslash]; decide)
  | mvRcupdate =>
      have hcwd : s.cwd = s.kernel := by
        simpa [ahead, work, insertInto, toInsert, moves] using hplan
      refine ⟨rfl, rfl, rfl, ?_, by simp [exec, places, applied]⟩
      exact not_marked_mvRcupdate hs hcwd
  | sedBitops =>
      cases hread : readText s.tree (inside s.cwd "arch/x86/include/asm/bitops.h") with
      | none => simp [exec, hread, moves, places, applied, hs]
      | some f =>
          simp only [exec, hread]
          refine ⟨trivial, trivial, rfl, ?_, by simp [places, applied]⟩
          exact not_marked_put hs (by rw [hasName_inside hslash]; decide)
  | cd d =>
      have hdir : s.tree.isDir (inside s.cwd d) = true := hgoes
      simp only [exec, hdir, if_true]
      exact ⟨trivial, trivial, rfl, hs, by simp [places, applied]⟩
  | cdKernel =>
      obtain ⟨hargs, hdir⟩ := hgoes hcp
      simp only [exec, hargs, hdir, if_true]
      exact ⟨trivial, trivial, rfl, hs, by simp [places, applied]⟩
  | external e =>
      have hkeys := (hperf e rfl).no_marker
      cases e with
      | insert =>
          refine ⟨rfl, rfl, rfl, not_marked_of_keys hs rfl hkeys, ?_⟩
          simp [exec, places, applied]
      | _ =>
          refine ⟨rfl, rfl, rfl, not_marked_of_keys hs rfl hkeys, ?_⟩
          simp [exec, places, applied]
  | mkdirS2e =>
      refine ⟨rfl, rfl, rfl, ?_, by simp [exec, places, applied]⟩
      exact not_marked_mkdir hs (by rw [hasName_inside hslash]; decide)

/-- startTest.sh touches no s2e.h. -/
theorem marked_of_tests (h : s.Tests o) : { s with tree := o.tree }.Marked ↔ s.Marked := by
  have hkeys : ∀ p, hasName "s2e.h".toList p = true →
      (p ∈ o.tree.keys ↔ p ∈ s.tree.keys) := fun p hname =>
    (h.mem_keys (not_ofTests_of_hasName (by decide) hname (by decide))).symm
  simp only [marked_iff]
  refine exists_congr fun p => ?_
  constructor
  · rintro ⟨hp, hprefix, hname⟩
    exact ⟨(hkeys p hname).mp hp, hprefix, hname⟩
  · rintro ⟨hp, hprefix, hname⟩
    exact ⟨(hkeys p hname).mpr hp, hprefix, hname⟩

theorem exec_finish {c : Command} (hc : c ∈ finish)
    (hkeeps : ∀ e, c = .external e → s.Marked → { s with tree := o.tree }.Marked)
    (htests : c = .startTest → s.Tests o)
    (hs : s.Marked) :
    (s.exec outside o c).todo = s.todo ∧ (s.exec outside o c).Marked ∧
      (s.exec outside o c).places = s.places ∧ (s.exec outside o c).kernel = s.kernel := by
  simp only [finish, List.mem_cons, List.not_mem_nil, or_false] at hc
  rcases hc with rfl | rfl | rfl | rfl | rfl
  · simp only [exec]
    split
    · split <;> exact ⟨rfl, hs, rfl, rfl⟩
    · exact ⟨rfl, hs, rfl, rfl⟩
  · exact ⟨rfl, hkeeps _ rfl hs, rfl, rfl⟩
  · exact ⟨rfl, hkeeps _ rfl hs, rfl, rfl⟩
  · exact ⟨rfl, hkeeps _ rfl hs, rfl, rfl⟩
  · exact ⟨rfl, (marked_of_tests (htests rfl)).mpr hs, rfl, rfl⟩

theorem marked_cpS2e (hgoes : s.Goes outside o .cpS2e) : (s.exec outside o .cpS2e).Marked := by
  obtain ⟨hargs, hheader, hdir⟩ := hgoes
  obtain ⟨c, hheader⟩ : ∃ c, s.header = some (.file c) := by
    obtain ⟨n, hn, hfile⟩ := (Option.any_eq_true _ _).mp hheader
    cases n with
    | dir => cases hfile
    | file c => exact ⟨c, hn⟩
  have hslash : '/' ∉ "s2e.h".toList := by decide
  have hsplit : inside s.kernel "include/s2e/s2e.h" =
      inside s.kernel "include/s2e" ++ '/' :: "s2e.h".toList := by simp [inside]
  have hplace : s.tree.isDir (dirName (inside s.kernel "include/s2e/s2e.h")) = true := by
    rw [hsplit, dirName_join hslash, hdir]
  have htree : (s.exec outside o .cpS2e).tree =
      s.tree.put (inside s.kernel "include/s2e/s2e.h") c := by
    simp [exec, cp, hargs, hheader]
  refine marked_iff.mpr ⟨inside s.kernel "include/s2e/s2e.h", ?_, ?_, ?_⟩
  · rw [htree]
    exact FileTree.mem_keys_put_self hplace
  · exact (List.prefix_append_right_inj s.kernel).mpr (by decide)
  · rw [hasName_inside hslash]
    decide

theorem Settled.of_eq (h : s.Settled) (htree : t.tree = s.tree) (hkernel : t.kernel = s.kernel)
    (hinserts : t.inserts = s.inserts) : t.Settled := by
  have hmarked : t.Marked ↔ s.Marked := by rw [Marked, Marked, htree, hkernel]
  have hplaces : t.places = s.places := by rw [places, places, hinserts]
  have hall : t.allPlaces = s.allPlaces := by rw [allPlaces, allPlaces, hkernel]
  exact ⟨fun ht => by rw [hplaces, hall, h.marked (hmarked.mp ht)],
    fun ht => by rw [hplaces, h.unmarked fun hs => ht (hmarked.mpr hs)]⟩

theorem eq_countInserted {c : Command} (h : [c] <:+ looks) : c = .countInserted := by
  simpa [looks, List.suffix_cons_iff] using h

theorem Stage.step_looking {rest : List Command} (hrest : rest <:+ looks)
    (htodo : s.todo = rest ++ .testInserted :: (work ++ .cpS2e :: finish))
    (hcwd : s.cwd = s.kernel) (hsettled : s.Settled)
    (hcount : rest = [] → (0 < s.inserted ↔ s.Marked)) : (s.step outside o).Stage := by
  cases rest with
  | nil =>
      rw [step_of_todo htodo]
      by_cases hfound : 0 < s.inserted
      · have hmark := (hcount rfl).mp hfound
        simp only [exec, hfound, if_true]
        apply Stage.finishing
        · exact ⟨finish.dropLast, rfl⟩
        · exact hmark
        · exact hsettled.marked hmark
      · have hmark : ¬ s.Marked := fun h => hfound ((hcount rfl).mpr h)
        simp only [exec, hfound, if_false]
        apply Stage.working work
        · rw [path, hcwd]
        · rfl
        · exact hmark
        · have hnone : s.places = [] := hsettled.unmarked hmark
          change s.places ++ applied (ahead (moves s.kernel) s.cwd work) = s.allPlaces
          rw [hnone, hcwd, applied_work, allPlaces, List.nil_append]
  | cons c rest =>
      have hc : c ∈ looks := hrest.subset List.mem_cons_self
      have hrest' : rest <:+ looks := (List.suffix_cons c rest).trans hrest
      have hlast : rest = [] → c = .countInserted := fun hnil =>
        eq_countInserted (hnil ▸ hrest)
      rw [step_of_todo htodo]
      simp only [looks, List.mem_cons, List.not_mem_nil, or_false] at hc
      rcases hc with rfl | rfl | rfl | rfl
      · simp only [exec]
        split
        · refine .looking rest hrest' rfl hcwd (hsettled.of_eq rfl rfl rfl) fun hnil => ?_
          cases hlast hnil
        · exact .idle rfl (hsettled.of_eq rfl rfl rfl)
      · refine .looking rest hrest' rfl hcwd (hsettled.of_eq rfl rfl rfl) fun hnil => ?_
        cases hlast hnil
      · simp only [exec]
        split
        · exact .idle rfl (hsettled.of_eq rfl rfl rfl)
        · refine .looking rest hrest' rfl hcwd (hsettled.of_eq rfl rfl rfl) fun hnil => ?_
          cases hlast hnil
      · refine .looking rest hrest' rfl hcwd (hsettled.of_eq rfl rfl rfl) fun _ => ?_
        change 0 < lineCount (printLines (s.tree.below s.cwd _)) ↔ s.tree.below s.kernel _ ≠ []
        rw [hcwd, lineCount_printLines_pos]

theorem Stage.step_working {rest : List Command}
    (hrest : s.path rest <:+ ahead (moves s.kernel) s.kernel work)
    (htodo : s.todo = rest ++ .cpS2e :: finish) (hmark : ¬ s.Marked)
    (hplaces : s.places ++ applied (s.path rest) = s.allPlaces) {c : Command}
    {rest' : List Command} (hnext : s.todo = c :: rest') (hperf : s.Performs o)
    (hgoes : s.Goes outside o c) : (s.step outside o).Stage := by
  rw [step_of_todo hnext]
  cases rest with
  | nil =>
      obtain ⟨rfl, rfl⟩ := List.cons.inj (hnext.symm.trans htodo)
      apply Stage.finishing
      · exact List.suffix_refl finish
      · exact marked_cpS2e hgoes
      · change s.places = s.allPlaces
        simpa [path, ahead] using hplaces
  | cons c' rest =>
      obtain ⟨rfl, rfl⟩ : c = c' ∧ rest' = rest ++ .cpS2e :: finish :=
        List.cons.inj (hnext.symm.trans htodo)
      have hplan : (s.cwd, c) ∈ ahead (moves s.kernel) s.kernel work :=
        hrest.subset List.mem_cons_self
      have hgoes' : { s with todo := rest ++ Command.cpS2e :: finish }.Goes outside o c := by
        cases c with
        | cdKernel => exact fun _ => hgoes (by simp [htodo])
        | _ => exact hgoes
      have hposs : ∀ e, c = .external e → s.Possible e o := fun e he =>
        hperf.2 e (by rw [hnext, he]; rfl)
      obtain ⟨hkernel, hnext', hcwd, hmark', hplaces'⟩ :=
        exec_work (s := { s with todo := rest ++ .cpS2e :: finish }) hplan (by simp)
          (fun e he => ⟨(hposs e he).1, (hposs e he).2, (hposs e he).3⟩) hgoes' hmark
      apply Stage.working rest
      · rw [path, hkernel, hcwd]
        exact (List.suffix_cons _ _).trans hrest
      · exact hnext'
      · exact hmark'
      · rw [hplaces', path, hkernel, hcwd, allPlaces, hkernel, List.append_assoc,
          ← applied_cons]
        exact hplaces

theorem Stage.step_finishing (htodo : s.todo <:+ finish) (hmark : s.Marked)
    (hplaces : s.places = s.allPlaces) {c : Command} {rest : List Command}
    (hnext : s.todo = c :: rest) (hperf : s.Performs o) (hgoes : s.Goes outside o c) :
    (s.step outside o).Stage := by
  have htests : c = .startTest → { s with todo := rest }.Tests o := fun hc =>
    hperf.tests (by rw [hnext, hc]; rfl)
  have hkeeps : ∀ e, c = .external e → { s with todo := rest }.Marked →
      { s with todo := rest, tree := o.tree }.Marked := by
    rintro e rfl
    exact hgoes
  rw [hnext] at htodo
  obtain ⟨hrest, hmark', hplaces', hkernel⟩ := exec_finish (s := { s with todo := rest })
    (htodo.subset List.mem_cons_self) hkeeps htests hmark
  rw [step_of_todo hnext]
  apply Stage.finishing
  · rw [hrest]
    exact (List.suffix_cons c rest).trans htodo
  · exact hmark'
  · rw [hplaces', allPlaces, hkernel]
    exact hplaces

theorem length_applied (kernel : Str) (rest : List Command) (d : Str) :
    (applied (ahead (moves kernel) d rest)).length = rest.count (.external .insert) := by
  induction rest generalizing d with
  | nil => rfl
  | cons c rest ih =>
      rw [ahead, applied_cons, List.length_append, ih]
      by_cases hc : c = .external .insert
      · subst hc
        rw [List.count_cons_self, Nat.add_comm]
        rfl
      · rw [applied_of_ne hc, List.count_cons_of_ne hc]
        simp

/-- Outside the loop the marker says which directories are instrumented. -/
theorem Stage.settled (h : s.Stage) (hloop : s.OutsideLoop) : s.Settled := by
  cases h with
  | idle _ hsettled => exact hsettled
  | looking _ _ _ _ hsettled _ => exact hsettled
  | working rest _ htodo hmark hplaces =>
      have hcp : .cpS2e ∈ s.todo := by simp [htodo]
      have hcount : s.todo.count (.external .insert) = toInsert.length :=
        hloop.resolve_right fun h => h hcp
      have hahead : (applied (s.path rest)).length = toInsert.length := by
        rw [← hcount, htodo, path, length_applied, List.count_append]
        rfl
      have hlength := congrArg List.length hplaces
      rw [List.length_append, hahead, allPlaces, List.length_map] at hlength
      have hnone : s.places = [] := List.length_eq_zero_iff.mp (by omega)
      exact ⟨fun h => absurd h hmark, fun _ => hnone⟩
  | finishing _ hmark hplaces => exact ⟨fun _ => hplaces, fun h => absurd hmark h⟩

theorem Stage.next (h : s.Stage) (hnext : s.NextCareful t) : t.Stage := by
  cases hnext with
  | command c rest hnext outside o hperf hgoes =>
      cases h with
      | idle htodo _ => simp [htodo] at hnext
      | looking rest hrest htodo hcwd hsettled hcount =>
          exact step_looking hrest htodo hcwd hsettled hcount
      | working rest hrest htodo hmark hplaces =>
          exact step_working hrest htodo hmark hplaces hnext hperf hgoes
      | finishing htodo hmark hplaces =>
          exact step_finishing htodo hmark hplaces hnext hperf hgoes
  | stop _ hloop => exact .idle rfl ((h.settled hloop).of_eq rfl rfl rfl)
  | start htodo =>
      have hloop : s.OutsideLoop := Or.inr (by simp [htodo])
      refine .looking looks (List.suffix_refl looks) rfl rfl ?_ fun hnil => ?_
      · exact (h.settled hloop).of_eq rfl rfl rfl
      · cases hnil

theorem Stage.sound (h : s.Stage) (hmark : s.Marked) : s.places = s.allPlaces := by
  cases h with
  | idle _ hsettled => exact hsettled.marked hmark
  | looking _ _ _ _ hsettled _ => exact hsettled.marked hmark
  | working _ _ _ hnot _ => exact absurd hmark hnot
  | finishing _ _ hplaces => exact hplaces

theorem NextCareful.kernel_eq (h : s.NextCareful t) : t.kernel = s.kernel := by
  cases h with
  | command c rest htodo outside o _ _ => exact step_kernel
  | stop _ _ => rfl
  | start _ => rfl

end Check

/-- When an s2e.h is found below the kernel, insert has been applied once in
each of the three directories, in every sequence of runs that are not stopped
inside the loop and whose commands find their files. -/
theorem marker_sound {kernel : Str} {tree : FileTree Contents} {s : Check}
    (hfresh : tree.below kernel "s2e.h".toList = [])
    (hrun : Relation.ReflTransGen Check.NextCareful { kernel, tree, cwd := kernel } s)
    (hmark : s.tree.below kernel "s2e.h".toList ≠ []) :
    s.inserts.map Prod.fst = toInsert.map (inside kernel) := by
  have h : s.Stage ∧ s.kernel = kernel := by
    apply preserved (I := fun s : Check => s.Stage ∧ s.kernel = kernel) ?_ hrun
    · refine ⟨.idle rfl ⟨fun hmark => absurd hfresh hmark, fun _ => rfl⟩, rfl⟩
    · exact fun h hnext => ⟨h.1.next hnext, hnext.kernel_eq.trans h.2⟩
  obtain ⟨hstage, rfl⟩ := h
  exact hstage.sound hmark

/-! ## Examples -/

namespace Check

/-- The next `n` commands, when the programs from elsewhere leave the files alone. -/
def runs : ℕ → Check → Check
  | 0, s => s
  | n + 1, s => runs n (s.step ∅ ⟨s.tree, true⟩)

/-- They are possible, and each of them goes well. -/
def Smooth : ℕ → Check → Prop
  | 0, _ => True
  | n + 1, s =>
      (∃ c ∈ s.todo.head?, c ≠ .external .bzImage ∧ s.Goes ∅ ⟨s.tree, true⟩ c) ∧
        Smooth n (s.step ∅ ⟨s.tree, true⟩)

instance decidableSmooth : (n : ℕ) → (s : Check) → Decidable (Smooth n s)
  | 0, _ => isTrue trivial
  | n + 1, s =>
      have := decidableSmooth n (s.step ∅ ⟨s.tree, true⟩)
      inferInstanceAs (Decidable (_ ∧ _))

theorem possible_untouched {s : Check} {e : External} (he : e ≠ .bzImage) :
    s.Possible e ⟨s.tree, true⟩ where
  no_marker _ hp _ := hp
  compiled p c hc := Or.inr (Or.inr ⟨p, c, hc, rfl⟩)
  bzImage h := absurd h he

theorem performs_untouched {s : Check} (htodo : s.todo ≠ [])
    (himage : s.todo.head? ≠ some (.external .bzImage)) : s.Performs ⟨s.tree, true⟩ where
  busy := htodo
  possible _ he := possible_untouched fun heq => himage (heq ▸ he)
  tests _ := FileTree.SameOn.refl _

theorem Smooth.reaches {n : ℕ} {s : Check} (h : Smooth n s) :
    Relation.ReflTransGen NextCareful s (runs n s) := by
  induction n generalizing s with
  | zero => exact .refl
  | succ n ih =>
      obtain ⟨⟨c, hc, hne, hgoes⟩, hrest⟩ := h
      obtain ⟨rest, htodo⟩ := List.head?_eq_some_iff.mp hc
      have himage : s.todo.head? ≠ some (.external .bzImage) := fun heq =>
        hne (Option.some.inj (hc.symm.trans heq))
      have hbusy : s.todo ≠ [] := by simp [htodo]
      exact .head (.command c rest htodo ∅ _ (performs_untouched hbusy himage) hgoes) (ih hrest)

theorem NextCareful.next {s t : Check} (h : s.NextCareful t) : s.Next t := by
  cases h with
  | command c rest htodo outside o hperf _ => exact .command outside o hperf
  | stop h _ => exact .stop h
  | start h => exact .start h

theorem Smooth.reaches_next {n : ℕ} {s : Check} (h : Smooth n s) :
    Relation.ReflTransGen Next s (runs n s) :=
  Relation.ReflTransGen.mono (fun _ _ hnext => NextCareful.next hnext) _ _ h.reaches

end Check

def smallKernel : FileTree Contents where
  entries :=
    [("/k".toList, .dir), ("/k/README".toList, .file ⟨⟨["Linux kernel release 3.x".toList],
        by decide +kernel⟩, []⟩), ("/k/include".toList, .dir), ("/k/include/linux".toList, .dir),
      ("/k/net".toList, .dir), ("/k/net/ipv4".toList, .dir), ("/k/net/core".toList, .dir),
      ("/k/kernel".toList, .dir), ("/k/kernel/events".toList, .dir), ("/config".toList, .dir),
      ("/config/s2e.h".toList, .file ⟨.empty, []⟩),
      ("/startTest.sh".toList, .file ⟨.empty, []⟩)]
  nodup := by decide +kernel

def freshCheck : Check :=
  { kernel := "/k".toList, tree := smallKernel, cwd := "/k".toList }

theorem marker_sound_smallKernel :
    (Check.runs 24 freshCheck.start).inserts.map Prod.fst =
      ["/k/net/ipv4".toList, "/k/net/core".toList, "/k/kernel/events".toList] :=
  have hrun : Relation.ReflTransGen Check.NextCareful freshCheck (Check.runs 24 freshCheck.start) :=
    .head (.start rfl) (Check.Smooth.reaches (by decide +kernel))
  marker_sound (by decide +kernel) hrun (by decide +kernel)

/-- The first run is stopped when it has instrumented net/ipv4; the second run
instruments it again. -/
theorem marker_sound_fails_after_stop :
    ¬ ∀ (kernel : Str) (tree : FileTree Contents) (s : Check),
      tree.below kernel "s2e.h".toList = [] →
      Relation.ReflTransGen Check.Next { kernel, tree, cwd := kernel } s →
      s.tree.below kernel "s2e.h".toList ≠ [] →
      s.inserts.map Prod.fst = toInsert.map (inside kernel) := by
  intro hclaim
  let stopped := (Check.runs 13 freshCheck.start).stop
  have hfirst : Relation.ReflTransGen Check.Next freshCheck (Check.runs 13 freshCheck.start) :=
    .head (.start rfl) (Check.Smooth.reaches_next (by decide +kernel))
  have hsecond : Relation.ReflTransGen Check.Next stopped (Check.runs 24 stopped.start) :=
    .head (.start rfl) (Check.Smooth.reaches_next (by decide +kernel))
  have hstop : Check.Next (Check.runs 13 freshCheck.start) stopped := .stop (by decide +kernel)
  have htwice : (Check.runs 24 stopped.start).inserts.map Prod.fst ≠
      toInsert.map (inside "/k".toList) := by decide +kernel
  apply htwice
  apply hclaim "/k".toList smallKernel
  · decide +kernel
  · exact (hfirst.tail hstop).trans hsecond
  · decide +kernel

end AutoTestKernel.CheckKernel
