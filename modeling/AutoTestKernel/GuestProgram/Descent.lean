import AutoTestKernel.GuestProgram.Makefiles
import AutoTestKernel.Library.Runs
import Mathlib.Data.List.Perm.Subperm

/-!
# cd $tododir; make; cd ..

Whatever `cd` and `make` come to, an iteration ends with `cd ..`.  A name that
`cd` does not enter makes the Makefile run itself in its own directory, and
that one the same, without end.  When every name of the list is entered, each
iteration comes back to where it began.
-/

namespace AutoTestKernel.GuestProgram

open Text Pathname Shell Fs Fuel Runs

namespace Sources

variable {w : Sources} {top : Str} {names : List Str} {words : List Word}

/-- Where `make` is run after `cd $name`, whether or not `cd` succeeds. -/
def target (w : Sources) (cwd name : Str) : Str := (w.cd cwd name).getD cwd

/-- The iterations of the loop, each with the directory in which it begins. -/
def walk (w : Sources) (top : Str) (names : List Str) : List (Str × Str) :=
  ahead (fun cwd name => dirName (w.target cwd name)) top names

@[simp] theorem walk_nil : w.walk top [] = [] := rfl

@[simp] theorem walk_cons {n : Str} :
    w.walk top (n :: names) = (top, n) :: w.walk (dirName (w.target top n)) names := rfl

theorem descend_eq {sub : SubMake} {s : LoopShell} {n : Str} :
    s.descend w sub n = (sub s.makes (w.target s.cwd n)).map fun _ =>
      { cwd := dirName (w.target s.cwd n)
        begins := s.begins ++ [s.cwd]
        makes := s.makes ++ [w.target s.cwd n] } := by
  cases hcd : w.cd s.cwd n with
  | none =>
      have hnext : s.next.cd w n = { s.next with ok := false } := LoopShell.cd_of_eq_none hcd
      rw [LoopShell.descend, hnext, LoopShell.make, Option.map_map, target, hcd]
      rfl
  | some d =>
      have hnext : s.next.cd w n = { s.next with cwd := d, ok := true } :=
        LoopShell.cd_of_eq_some hcd
      rw [LoopShell.descend, hnext, LoopShell.make, Option.map_map, target, hcd]
      rfl

theorem of_foldlM_descend {run : Str → Option Bool} {s t : LoopShell}
    (h : names.foldlM (LoopShell.descend w fun _ d => run d) s = some t) :
    (∀ x ∈ w.walk s.cwd names, ∃ ok, run (w.target x.1 x.2) = some ok) ∧
      t.begins = s.begins ++ (w.walk s.cwd names).map Prod.fst ∧
      t.makes = s.makes ++ (w.walk s.cwd names).map fun x => w.target x.1 x.2 := by
  induction names generalizing s with
  | nil =>
      obtain rfl := Option.some.inj h
      simp
  | cons n names ih =>
      rw [List.foldlM_cons, Option.bind_eq_bind, Option.bind_eq_some_iff] at h
      obtain ⟨u, hu, hrest⟩ := h
      rw [descend_eq] at hu
      obtain ⟨ok, hok, rfl⟩ := Option.map_eq_some_iff.mp hu
      obtain ⟨hruns, hbegins, hmakes⟩ := ih hrest
      refine ⟨List.forall_mem_cons.mpr ⟨⟨ok, hok⟩, hruns⟩, ?_, ?_⟩
      · simpa using hbegins
      · simpa using hmakes

theorem exists_foldlM_descend (run : Str → Option Bool) (s : LoopShell)
    (h : ∀ x ∈ w.walk s.cwd names, ∃ ok, run (w.target x.1 x.2) = some ok) :
    ∃ t, names.foldlM (LoopShell.descend w fun _ d => run d) s = some t := by
  induction names generalizing s with
  | nil => exact ⟨s, rfl⟩
  | cons n names ih =>
      obtain ⟨⟨ok, hok⟩, hrest⟩ := List.forall_mem_cons.mp h
      rw [List.foldlM_cons, descend_eq, hok]
      exact ih _ hrest

/-! ## The top-level Makefile -/

/-- The property of a recursive build, for the sub-makes that its own recipe
runs. -/
def StaysInside (w : Sources) (top : Str) (names : List Str) : Prop :=
  ∃ fuel s, w.make fuel top = some s ∧
    (∀ d ∈ w.listed top names, s.makes.count d = 1) ∧
    (∀ d ∈ s.makes, d ∈ w.listed top names) ∧
    ∀ d ∈ s.begins, d = top

/-- `cd` enters the directories of the list, each by one of the names, and the
Makefiles there come to an end. -/
structure EntersEach (w : Sources) (top : Str) (names : List Str) : Prop where
  nodup : names.Nodup
  entered : (names.map (w.cd top)).Perm (names.map fun n => some (child top n))
  ends : ∀ n ∈ names, Ends w.make (child top n)

theorem make_descend {fuel : ℕ} (hmake : w.makefile? top = some (some (.descend words)))
    (hall : ¬ w.UpToDate top) :
    w.make (fuel + 1) top = (w.forList top words).foldlM
      (LoopShell.descend w fun _ d => (w.make fuel d).map LoopShell.ok) { cwd := top } := by
  simp only [make, hmake, if_neg hall]

theorem of_make_descend {fuel : ℕ} {s : LoopShell}
    (hmake : w.makefile? top = some (some (.descend words))) (hall : ¬ w.UpToDate top)
    (h : w.make fuel top = some s) :
    (∀ x ∈ w.walk top (w.forList top words), Ends w.make (w.target x.1 x.2)) ∧
      s.begins = (w.walk top (w.forList top words)).map Prod.fst ∧
      s.makes = (w.walk top (w.forList top words)).map fun x => w.target x.1 x.2 := by
  cases fuel with
  | zero => simp [make] at h
  | succ fuel =>
      rw [make_descend hmake hall] at h
      obtain ⟨hruns, hbegins, hmakes⟩ := of_foldlM_descend h
      refine ⟨fun x hx => ?_, hbegins, hmakes⟩
      obtain ⟨ok, hok⟩ := hruns x hx
      obtain ⟨s', hs', -⟩ := Option.map_eq_some_iff.mp hok
      exact ⟨fuel, s', hs'⟩

/-- A recursive build ends when all the builds that it starts do. -/
theorem ends_descend (hmake : w.makefile? top = some (some (.descend words)))
    (hall : ¬ w.UpToDate top)
    (h : ∀ x ∈ w.walk top (w.forList top words), Ends w.make (w.target x.1 x.2)) :
    Ends w.make top := by
  have hends : ∀ d ∈ (w.walk top (w.forList top words)).map fun x => w.target x.1 x.2,
      Ends w.make d := List.forall_mem_map.mpr h
  obtain ⟨fuel, hfuel⟩ := w.stable_make.ends_all hends
  have hruns : ∀ x ∈ w.walk top (w.forList top words), ∃ ok,
      (w.make fuel (w.target x.1 x.2)).map LoopShell.ok = some ok := by
    intro x hx
    obtain ⟨s, hs⟩ := hfuel _ (List.mem_map_of_mem hx)
    exact ⟨s.ok, by rw [hs, Option.map_some]⟩
  obtain ⟨s, hs⟩ := exists_foldlM_descend (fun d => (w.make fuel d).map LoopShell.ok)
    { cwd := top } hruns
  exact ⟨fuel + 1, s, by rw [make_descend hmake hall, hs]⟩

/-- An iteration that runs `make` in the directory of the Makefile itself. -/
theorem not_ends_of_target (hmake : w.makefile? top = some (some (.descend words)))
    (hall : ¬ w.UpToDate top)
    (hloop : ∃ x ∈ w.walk top (w.forList top words), w.target x.1 x.2 = top) :
    ¬ Ends w.make top := by
  refine not_ends_of_call rfl fun fuel s h => ?_
  rw [make_descend hmake hall] at h
  obtain ⟨x, hx, hself⟩ := hloop
  obtain ⟨ok, hok⟩ := (of_foldlM_descend h).1 x hx
  rw [hself] at hok
  obtain ⟨s', hs', -⟩ := Option.map_eq_some_iff.mp hok
  exact ⟨s', hs'⟩

/-! ## Entering every directory -/

theorem target_of_cd {cwd n d : Str} (h : w.cd cwd n = some d) : w.target cwd n = d := by
  rw [target, h, Option.getD_some]

theorem cd_of_target_ne {cwd n : Str} (h : w.target cwd n ≠ cwd) :
    w.cd cwd n = some (w.target cwd n) := by
  cases hcd : w.cd cwd n with
  | none => exact absurd (by rw [target, hcd, Option.getD_none]) h
  | some d => rw [target_of_cd hcd]

theorem EntersEach.exists_child (h : w.EntersEach top names) {n : Str} (hn : n ∈ names) :
    ∃ m ∈ names, w.cd top n = some (child top m) := by
  obtain ⟨m, hm, heq⟩ := List.mem_map.mp (h.entered.mem_iff.mp (List.mem_map_of_mem hn))
  exact ⟨m, hm, heq.symm⟩

theorem EntersEach.listed_eq (h : w.EntersEach top names) :
    w.listed top names = names.map (child top) := by
  refine List.filter_eq_self.mpr fun d hd => ?_
  obtain ⟨m, hm, rfl⟩ := List.mem_map.mp hd
  have hentered : some (child top m) ∈ names.map (w.cd top) :=
    h.entered.mem_iff.mpr (List.mem_map_of_mem hm)
  obtain ⟨n, -, hcd⟩ := List.mem_map.mp hentered
  exact isDir_of_cd hcd

/-- The directories in which `make` is run are the listed ones. -/
theorem EntersEach.targets_perm (h : w.EntersEach top names) :
    (names.map (w.target top)).Perm (names.map (child top)) := by
  have htargets : names.map (w.cd top) = (names.map (w.target top)).map some := by
    rw [List.map_map]
    refine List.map_congr_left fun n hn => ?_
    obtain ⟨m, -, hcd⟩ := h.exists_child hn
    rw [Function.comp_apply, target_of_cd hcd, hcd]
  apply (List.map_perm_map_iff (Option.some_injective Str)).mp
  rw [← htargets, List.map_map]
  exact h.entered

theorem EntersEach.walk_eq (h : w.EntersEach top names) (hslash : ∀ n ∈ names, '/' ∉ n) :
    w.walk top names = names.map (top, ·) := by
  refine ahead_of_moves fun n hn => ?_
  obtain ⟨m, hm, hcd⟩ := h.exists_child hn
  rw [target_of_cd hcd, dirName_child (hslash m hm)]

theorem EntersEach.staysInside (h : w.EntersEach top (w.forList top words))
    (hmake : w.makefile? top = some (some (.descend words))) (hall : ¬ w.UpToDate top)
    (hslash : ∀ n ∈ w.forList top words, '/' ∉ n) : w.StaysInside top (w.forList top words) := by
  have hwalk := h.walk_eq hslash
  have hends : ∀ x ∈ w.walk top (w.forList top words), Ends w.make (w.target x.1 x.2) := by
    rw [hwalk]
    refine List.forall_mem_map.mpr fun n hn => ?_
    obtain ⟨m, hm, heq⟩ := List.mem_map.mp (h.targets_perm.mem_iff.mp (List.mem_map_of_mem hn))
    exact heq ▸ h.ends m hm
  obtain ⟨fuel, s, hs⟩ := ends_descend hmake hall hends
  obtain ⟨-, hbegins, hmakes⟩ := of_make_descend hmake hall hs
  rw [hwalk, List.map_map] at hbegins hmakes
  have hperm : s.makes.Perm (w.listed top (w.forList top words)) := by
    rw [hmakes, h.listed_eq]
    exact h.targets_perm
  have hnodup : (w.listed top (w.forList top words)).Nodup := by
    rw [h.listed_eq]
    exact h.nodup.map (child_injective top)
  refine ⟨fuel, s, hs, fun d hd => ?_, fun d hd => hperm.mem_iff.mp hd, ?_⟩
  · rw [hperm.count_eq, List.count_eq_one_of_mem hnodup hd]
  · rw [hbegins]
    exact List.forall_mem_map.mpr fun n _ => rfl

/-! ## Staying inside -/

/-- What is entered once each and on the list is the list. -/
theorem perm_of_targets (honce : ∀ d ∈ names.map (w.target top),
    (names.map (w.target top)).count d = 1)
    (hinside : ∀ d ∈ names.map (w.target top), d ∈ w.listed top names) :
    names.Nodup ∧ (names.map (w.target top)).Perm (names.map (child top)) := by
  have hnodup : (names.map (w.target top)).Nodup := List.nodup_iff_count_eq_one.mpr honce
  have hsub : names.map (w.target top) ⊆ names.map (child top) := fun d hd =>
    List.mem_of_mem_filter (hinside d hd)
  exact ⟨hnodup.of_map _, (hnodup.subperm hsub).perm_of_length_le (by simp)⟩

theorem StaysInside.entersEach (h : w.StaysInside top (w.forList top words))
    (hmake : w.makefile? top = some (some (.descend words))) (hall : ¬ w.UpToDate top) :
    w.EntersEach top (w.forList top words) := by
  obtain ⟨fuel, s, hs, honce, hinside, hbegin⟩ := h
  obtain ⟨hends, hbegins, hmakes⟩ := of_make_descend hmake hall hs
  have hwalk : w.walk top (w.forList top words) = (w.forList top words).map (top, ·) := by
    refine ahead_of_begins fun x hx => hbegin x.1 ?_
    rw [hbegins]
    exact List.mem_map_of_mem hx
  have hmem : ∀ n ∈ w.forList top words, (top, n) ∈ w.walk top (w.forList top words) := by
    intro n hn
    rw [hwalk]
    exact List.mem_map_of_mem hn
  have hcd : ∀ n ∈ w.forList top words, w.cd top n = some (w.target top n) := fun n hn =>
    cd_of_target_ne fun hself =>
      not_ends_of_target hmake hall ⟨(top, n), hmem n hn, hself⟩ ⟨fuel, s, hs⟩
  have htargets : s.makes = (w.forList top words).map (w.target top) := by
    rw [hmakes, hwalk, List.map_map]
    rfl
  rw [htargets] at honce hinside
  obtain ⟨hnodup, hperm⟩ := perm_of_targets (fun d hd => honce d (hinside d hd)) hinside
  refine ⟨hnodup, ?_, fun n hn => ?_⟩
  · have hsome := hperm.map some
    rw [List.map_map, List.map_map] at hsome
    rwa [List.map_congr_left hcd]
  · obtain ⟨m, hm, heq⟩ := List.mem_map.mp (hperm.mem_iff.mpr (List.mem_map_of_mem hn))
    exact heq ▸ hends (top, m) (hmem m hm)

/-- For names that `cd` takes as they are: every name is a directory, and no
name is listed twice. -/
theorem entersEach_iff_of_proper (hproper : ∀ n ∈ names, Proper n) :
    w.EntersEach top names ↔ names.Nodup ∧
      ∀ n ∈ names, w.tree.isDir (child top n) = true ∧ Ends w.make (child top n) := by
  constructor
  · intro h
    refine ⟨h.nodup, fun n hn => ⟨?_, h.ends n hn⟩⟩
    have hlisted : child top n ∈ w.listed top names := by
      rw [h.listed_eq]
      exact List.mem_map_of_mem hn
    exact (List.mem_filter.mp hlisted).2
  · rintro ⟨hnodup, hdirs⟩
    refine ⟨hnodup, .of_eq (List.map_congr_left fun n hn => ?_), fun n hn => (hdirs n hn).2⟩
    rw [cd_of_proper (hproper n hn), if_pos (hdirs n hn).1]

/-- A directory without a Makefile, or with one that runs no loop. -/
theorem ends_of_no_loop {d : Str} (h : ∀ recipe, w.makefile? d = some (some recipe) →
    recipe = .compile) : Ends w.make d := by
  refine ⟨1, ?_⟩
  rw [make]
  split
  · next recipe hmake =>
      obtain rfl := h recipe hmake
      split
      · exact ⟨_, rfl⟩
      · exact ⟨_, rfl⟩
  · exact ⟨_, rfl⟩

theorem exists_self_target (hproper : ∀ n ∈ names, Proper n)
    (hmissing : ∃ n ∈ names, w.tree.isDir (child top n) = false) :
    ∃ x ∈ w.walk top names, w.target x.1 x.2 = top := by
  induction names with
  | nil => simp at hmissing
  | cons n names ih =>
      obtain ⟨hn, hnames⟩ := List.forall_mem_cons.mp hproper
      cases hdir : w.tree.isDir (child top n) with
      | false =>
          refine ⟨(top, n), by simp, ?_⟩
          simp [target, cd_of_proper hn, hdir]
      | true =>
          have hcd : w.cd top n = some (child top n) := by rw [cd_of_proper hn, if_pos hdir]
          have hback : dirName (w.target top n) = top := by
            rw [target_of_cd hcd, dirName_child hn.no_slash]
          have hmissing' : ∃ m ∈ names, w.tree.isDir (child top m) = false := by
            obtain ⟨m, hm, hmdir⟩ := hmissing
            refine ⟨m, (List.mem_cons.mp hm).resolve_left ?_, hmdir⟩
            rintro rfl
            simp [hdir] at hmdir
          obtain ⟨x, hx, hself⟩ := ih hnames hmissing'
          refine ⟨x, ?_, hself⟩
          rw [walk_cons, hback]
          exact List.mem_cons_of_mem _ hx

/-- One missing directory, and `make` runs itself without end. -/
theorem not_ends_of_missing (hmake : w.makefile? top = some (some (.descend words)))
    (hall : ¬ w.UpToDate top) (hproper : ∀ n ∈ w.forList top words, Proper n)
    (hmissing : ∃ n ∈ w.forList top words, w.tree.isDir (child top n) = false) :
    ¬ Ends w.make top :=
  not_ends_of_target hmake hall (exists_self_target hproper hmissing)

/-- A recursive build ends and stays inside its list exactly when `cd` enters
every directory of it, or when there is nothing to do for `all` and nothing on
the list. -/
theorem staysInside_iff (hmake : w.makefile? top = some (some (.descend words)))
    (hslash : ∀ n ∈ w.forList top words, '/' ∉ n) :
    w.StaysInside top (w.forList top words) ↔
      (w.UpToDate top ∧ w.listed top (w.forList top words) = []) ∨
        (¬ w.UpToDate top ∧ w.EntersEach top (w.forList top words)) := by
  by_cases hall : w.UpToDate top
  · have hdone : ∀ fuel, w.make (fuel + 1) top = some { cwd := top } := fun fuel => by
      simp only [make, hmake, if_pos hall]
    simp only [hall, true_and, not_true_eq_false, false_and, or_false]
    constructor
    · rintro ⟨fuel, s, hs, honce, -, -⟩
      cases fuel with
      | zero => simp [make] at hs
      | succ fuel =>
          obtain rfl := Option.some.inj ((hdone fuel).symm.trans hs)
          refine List.eq_nil_iff_forall_not_mem.mpr fun d hd => ?_
          simpa using honce d hd
    · intro hlisted
      exact ⟨1, { cwd := top }, hdone 0, by simp [hlisted], by simp, by simp⟩
  · simp only [hall, false_and, not_false_eq_true, true_and, false_or]
    exact ⟨fun h => h.entersEach hmake hall, fun h => h.staysInside hmake hall hslash⟩

end Sources

/-- Two of the directories of file-rw. -/
def fileRwSources : Sources where
  tree :=
    { entries :=
        [("/file-rw".toList, .dir),
          ("/file-rw/Makefile".toList,
            .file (some (.descend [.bare "creat".toList, .quoted "dup&dup2".toList]))),
          ("/file-rw/creat".toList, .dir),
          ("/file-rw/creat/Makefile".toList, .file (some .compile)),
          ("/file-rw/dup&dup2".toList, .dir),
          ("/file-rw/dup&dup2/Makefile".toList, .file (some .compile))]
      nodup := by decide +kernel }
  compiles _ := true
  cdImproper _ _ := none

theorem staysInside_iff_fileRw :
    fileRwSources.StaysInside "/file-rw".toList ["creat".toList, "dup&dup2".toList] := by
  have hlist : fileRwSources.forList "/file-rw".toList
      [.bare "creat".toList, .quoted "dup&dup2".toList] =
        ["creat".toList, "dup&dup2".toList] := by decide +kernel
  rw [← hlist]
  refine (Sources.staysInside_iff (by decide +kernel) ?_).mpr (Or.inr ⟨by decide +kernel, ?_⟩)
  · rw [hlist]
    decide +kernel
  · rw [hlist]
    refine (Sources.entersEach_iff_of_proper (by decide +kernel)).mpr ⟨by decide +kernel, ?_⟩
    intro n hn
    have hcompile : ∀ n ∈ ["creat".toList, "dup&dup2".toList],
        fileRwSources.tree.isDir (child "/file-rw".toList n) = true ∧
          fileRwSources.makefile? (child "/file-rw".toList n) = some (some .compile) := by
      decide +kernel
    refine ⟨(hcompile n hn).1, Sources.ends_of_no_loop fun recipe hmake => ?_⟩
    rw [(hcompile n hn).2, Option.some_inj, Option.some_inj] at hmake
    exact hmake.symm

/-- The Makefile of guest_program lists directories of guest_program/socket. -/
def guestProgramSources : Sources where
  tree :=
    { entries :=
        [("/guest_program".toList, .dir),
          ("/guest_program/Makefile".toList, .file (some guestProgram)),
          ("/guest_program/socket".toList, .dir),
          ("/guest_program/socket/Makefile".toList, .file (some socket)),
          ("/guest_program/socket/accept".toList, .dir),
          ("/guest_program/socket/accept/Makefile".toList, .file (some .compile))]
      nodup := by decide +kernel }
  compiles _ := true
  cdImproper _ _ := none

theorem staysInside_fails_in_guestProgram :
    ¬ ∀ (w : Sources) (top : Str) (words : List Word),
      w.makefile? top = some (some (.descend words)) →
      (∀ n ∈ w.forList top words, '/' ∉ n) →
      w.StaysInside top (w.forList top words) := by
  intro hclaim
  have hmake : guestProgramSources.makefile? "/guest_program".toList =
      some (some (.descend guestProgram.words)) := by decide +kernel
  have hwords := (words_proper guestProgram List.mem_cons_self).2
  have hlist : guestProgramSources.forList "/guest_program".toList guestProgram.words =
      guestProgram.words.map Word.text := Sources.forList_of_proper hwords
  have hproper : ∀ n ∈ guestProgramSources.forList "/guest_program".toList guestProgram.words,
      Proper n := hlist ▸ List.forall_mem_map.mpr hwords
  have hmissing : ∃ n ∈ guestProgramSources.forList "/guest_program".toList guestProgram.words,
      guestProgramSources.tree.isDir (child "/guest_program".toList n) = false := by
    rw [hlist]
    exact ⟨"accept".toList, List.mem_cons_self, by decide +kernel⟩
  obtain ⟨fuel, s, hs, -⟩ := hclaim _ _ _ hmake fun n hn => (hproper n hn).no_slash
  exact Sources.not_ends_of_missing hmake (by decide +kernel) hproper hmissing ⟨fuel, s, hs⟩

end AutoTestKernel.GuestProgram
