import AutoTestKernel.GuestProgram.Makefiles

/-!
# cd $i && make && cd ..

A name that `cd` does not enter is skipped here, but a program that fails to
build leaves the loop in its directory.  From there no later name leads back,
so the loop ends where it started exactly when every listed directory that is
there builds.
-/

namespace AutoTestKernel.GuestProgram

open Text Pathname Shell Fs Fuel

/-- The shell after an iteration that could not enter its directory. -/
def LoopShell.skipped (s : LoopShell) : LoopShell := { s.next with ok := false }

/-- The shell after `make` in `d` has succeeded or failed. -/
def LoopShell.built (s : LoopShell) (d : Str) (ok : Bool) : LoopShell where
  cwd := if ok then dirName d else d
  ok := ok
  begins := s.begins ++ [s.cwd]
  makes := s.makes ++ [d]

namespace Sources

variable {w : Sources} {assign : List Str → Str → Bool} {top : Str} {names : List Str}
  {s t : LoopShell}

theorem chain_of_cd_eq_none {sub : SubMake} {n : Str} (h : w.cd s.cwd n = none) :
    s.chain w sub n = some s.skipped := by
  have hcd : s.next.cd w n = s.skipped := LoopShell.cd_of_eq_none h
  rw [LoopShell.chain, hcd]
  exact if_neg Bool.false_ne_true

theorem chain_of_cd_eq_some {sub : SubMake} {n d : Str} (h : w.cd s.cwd n = some d) :
    s.chain w sub n = (sub s.makes d).map (s.built d) := by
  have hcd : s.next.cd w n = { s.next with cwd := d, ok := true } := LoopShell.cd_of_eq_some h
  rw [LoopShell.chain, hcd, if_pos rfl, LoopShell.make, Option.map_map]
  refine Option.map_congr fun ok _ => ?_
  cases ok <;> rfl

/-- The loop when the programs are assigned success or failure, each after the
ones built before it. -/
def chainLoop (w : Sources) (assign : List Str → Str → Bool) (names : List Str)
    (s : LoopShell) : Option LoopShell :=
  names.foldlM (LoopShell.chain w fun ms d => some (assign ms d)) s

/-- The property of the loop. -/
def BuildsEach (w : Sources) (assign : List Str → Str → Bool) (top : Str) (names : List Str) :
    Prop :=
  ∃ s, w.chainLoop assign names { cwd := top } = some s ∧
    (∀ d ∈ w.listed top names, s.makes.count d = 1) ∧ s.cwd = top

/-- Each of the directories builds when its turn comes. -/
def BuildInTurn (assign : List Str → Str → Bool) (before ds : List Str) : Prop :=
  ∀ earlier d later, ds = earlier ++ d :: later → assign (before ++ earlier) d = true

structure AllBuild (w : Sources) (assign : List Str → Str → Bool) (top : Str)
    (names : List Str) : Prop where
  enters : ∀ n ∈ names, w.cd top n =
    if w.tree.isDir (child top n) then some (child top n) else none
  nodup : (w.listed top names).Nodup
  build : BuildInTurn assign [] (w.listed top names)

theorem buildInTurn_cons {before ds : List Str} {d : Str} :
    BuildInTurn assign before (d :: ds) ↔
      assign before d = true ∧ BuildInTurn assign (before ++ [d]) ds := by
  constructor
  · intro h
    refine ⟨by simpa using h [] d ds rfl, fun earlier d' later heq => ?_⟩
    have hd' := h (d :: earlier) d' later (by rw [heq, List.cons_append])
    rwa [List.append_cons] at hd'
  · rintro ⟨hd, hds⟩ earlier d' later heq
    rcases List.cons_eq_append_iff.mp heq with ⟨rfl, hcons⟩ | ⟨earlier', rfl, heq'⟩
    · obtain ⟨rfl, -⟩ := List.cons.inj hcons
      simpa using hd
    · rw [List.append_cons]
      exact hds earlier' d' later heq'

/-! ## Every program builds -/

theorem listed_cons {n : Str} : w.listed top (n :: names) =
    if w.tree.isDir (child top n) then child top n :: w.listed top names
    else w.listed top names := by
  cases hdir : w.tree.isDir (child top n) <;> simp [listed, hdir]

theorem chainLoop_of_build (hslash : ∀ n ∈ names, '/' ∉ n)
    (henters : ∀ n ∈ names, w.cd top n =
      if w.tree.isDir (child top n) then some (child top n) else none)
    (hcwd : s.cwd = top) (hbuild : BuildInTurn assign s.makes (w.listed top names)) :
    ∃ t, w.chainLoop assign names s = some t ∧ t.cwd = top ∧
      t.makes = s.makes ++ w.listed top names := by
  induction names generalizing s with
  | nil => exact ⟨s, rfl, hcwd, by simp [listed]⟩
  | cons n names ih =>
      subst hcwd
      obtain ⟨hn, hslash'⟩ := List.forall_mem_cons.mp hslash
      obtain ⟨hcd, henters'⟩ := List.forall_mem_cons.mp henters
      by_cases hdir : w.tree.isDir (child s.cwd n) = true
      · rw [if_pos hdir] at hcd
        rw [listed_cons, if_pos hdir] at hbuild ⊢
        obtain ⟨hd, hrest⟩ := buildInTurn_cons.mp hbuild
        obtain ⟨t, ht, htcwd, hmakes⟩ := ih (s := s.built (child s.cwd n) true) hslash' henters'
          (dirName_child hn s.cwd) hrest
        refine ⟨t, ?_, htcwd, by simp [hmakes, LoopShell.built]⟩
        rw [chainLoop, List.foldlM_cons, chain_of_cd_eq_some hcd, hd]
        exact ht
      · rw [if_neg hdir] at hcd
        rw [listed_cons, if_neg hdir] at hbuild ⊢
        obtain ⟨t, ht, htcwd, hmakes⟩ := ih (s := s.skipped) hslash' henters' rfl hbuild
        refine ⟨t, ?_, htcwd, hmakes⟩
        rw [chainLoop, List.foldlM_cons, chain_of_cd_eq_none hcd]
        exact ht

theorem AllBuild.buildsEach (h : w.AllBuild assign top names) (hslash : ∀ n ∈ names, '/' ∉ n) :
    w.BuildsEach assign top names := by
  obtain ⟨s, hs, hcwd, hmakes⟩ :=
    chainLoop_of_build (s := { cwd := top }) hslash h.enters rfl h.build
  refine ⟨s, hs, fun d hd => ?_, hcwd⟩
  rw [hmakes, List.nil_append]
  exact List.count_eq_one_of_mem h.nodup hd

/-! ## A program does not build -/

/-- Below `top`, no iteration leads back up to it. -/
theorem chain_stays_below {sub : SubMake} {n : Str} (hn : Proper n)
    (h : s.chain w sub n = some t) (hs : top ++ ['/'] <+: s.cwd) : top ++ ['/'] <+: t.cwd := by
  cases hcd : w.cd s.cwd n with
  | none =>
      rw [chain_of_cd_eq_none hcd] at h
      obtain rfl := Option.some.inj h
      exact hs
  | some d =>
      have hd : d = child s.cwd n := by
        rw [cd_of_proper hn] at hcd
        split at hcd
        · exact (Option.some.inj hcd).symm
        · simp at hcd
      rw [chain_of_cd_eq_some hcd] at h
      obtain ⟨ok, -, rfl⟩ := Option.map_eq_some_iff.mp h
      cases ok with
      | true => simpa [LoopShell.built, hd, dirName_child hn.no_slash] using hs
      | false => simpa [LoopShell.built, hd] using hs.trans (prefix_child s.cwd n)

theorem chainLoop_returns (hproper : ∀ n ∈ names, Proper n)
    (h : w.chainLoop assign names s = some t) (hs : s.cwd = top) (ht : t.cwd = top) :
    t.makes = s.makes ++ w.listed top names ∧
      BuildInTurn assign s.makes (w.listed top names) := by
  induction names generalizing s with
  | nil =>
      obtain rfl := Option.some.inj h
      exact ⟨by simp [listed], fun earlier d later heq => by simp [listed] at heq⟩
  | cons n names ih =>
      subst hs
      obtain ⟨hn, hproper'⟩ := List.forall_mem_cons.mp hproper
      have hcd := cd_of_proper (w := w) hn s.cwd
      rw [chainLoop, List.foldlM_cons, Option.bind_eq_bind, Option.bind_eq_some_iff] at h
      obtain ⟨u, hu, hrest⟩ := h
      by_cases hdir : w.tree.isDir (child s.cwd n) = true
      · rw [if_pos hdir] at hcd
        rw [chain_of_cd_eq_some hcd] at hu
        obtain ⟨ok, hok, rfl⟩ := Option.map_eq_some_iff.mp hu
        cases ok with
        | true =>
            obtain ⟨hmakes, hbuild⟩ := ih (s := s.built (child s.cwd n) true) hproper' hrest
              (dirName_child hn.no_slash s.cwd)
            rw [listed_cons, if_pos hdir]
            refine ⟨by simp [hmakes, LoopShell.built], ?_⟩
            exact buildInTurn_cons.mpr ⟨Option.some.inj hok, hbuild⟩
        | false =>
            -- The loop is left in the directory that did not build.
            exfalso
            have hbelow : s.cwd ++ ['/'] <+: t.cwd := by
              apply foldlM_preserves (I := fun u => s.cwd ++ ['/'] <+: u.cwd) ?_ hrest
              · simp [LoopShell.built, child]
              · exact fun u m v hm hu hv => chain_stays_below (hproper' m hm) hv hu
            have hlength := hbelow.length_le
            rw [ht, List.length_append, List.length_singleton] at hlength
            omega
      · rw [if_neg hdir] at hcd
        rw [chain_of_cd_eq_none hcd] at hu
        obtain rfl := Option.some.inj hu
        rw [listed_cons, if_neg hdir]
        exact ih (s := s.skipped) hproper' hrest rfl

theorem BuildsEach.allBuild (h : w.BuildsEach assign top names)
    (hproper : ∀ n ∈ names, Proper n) : w.AllBuild assign top names := by
  obtain ⟨s, hs, honce, hcwd⟩ := h
  obtain ⟨hmakes, hbuild⟩ := chainLoop_returns hproper hs rfl hcwd
  refine ⟨fun n hn => cd_of_proper (hproper n hn) top, ?_, hbuild⟩
  rw [hmakes, List.nil_append] at honce
  exact List.nodup_iff_count_eq_one.mpr honce

/-! ## Under make -/

/-- Where `make` comes to an end, its loop is the one of some assignment. -/
theorem exists_assign_of_make {fuel : ℕ} {words : List Word}
    (hmake : w.makefile? top = some (some (.chain words))) (hall : ¬ w.UpToDate top)
    (h : w.make fuel top = some s) :
    ∃ assign, w.chainLoop assign (w.forList top words) { cwd := top } = some s := by
  cases fuel with
  | zero => simp [make] at h
  | succ fuel =>
      simp only [make, hmake, if_neg hall] at h
      refine ⟨fun _ d => ((w.make fuel d).map LoopShell.ok).getD false, ?_⟩
      refine foldlM_of_body (fun _ _ _ => LoopShell.chain_of_sub fun _ d ok hok => ?_) h
      simp only [hok, Option.getD_some]

/-! ## When the loop builds everything -/

/-- Every listed directory is built once, and the loop ends where it started, if
all of them build.  For names that `cd` takes as they are, only then. -/
theorem buildsEach_iff_allBuild (hslash : ∀ n ∈ names, '/' ∉ n) :
    (w.AllBuild assign top names → w.BuildsEach assign top names) ∧
      ((∀ n ∈ names, Proper n) →
        (w.BuildsEach assign top names ↔ w.AllBuild assign top names)) :=
  ⟨fun h => h.buildsEach hslash, fun hproper =>
    ⟨fun h => h.allBuild hproper, fun h => h.buildsEach hslash⟩⟩

end Sources

/-- The first two directories of sendmsg-detail/two. -/
def twoSources : Sources where
  tree :=
    { entries :=
        [("/two".toList, .dir), ("/two/Makefile".toList, .file (some sendmsgDetailTwo)),
          ("/two/1-2".toList, .dir), ("/two/1-2/Makefile".toList, .file (some .compile)),
          ("/two/1-4".toList, .dir), ("/two/1-4/Makefile".toList, .file (some .compile))]
      nodup := by decide +kernel }
  compiles _ := true
  cdImproper _ _ := none

def twoNames : List Str := sendmsgDetailTwo.words.map Word.text

theorem twoNames_proper : ∀ n ∈ twoNames, Proper n :=
  List.forall_mem_map.mpr (words_proper sendmsgDetailTwo (by simp)).2

theorem buildsEach_iff_allBuild_two :
    twoSources.BuildsEach (fun _ _ => true) "/two".toList twoNames := by
  refine ((Sources.buildsEach_iff_allBuild fun n hn => (twoNames_proper n hn).no_slash).2
    twoNames_proper).mpr ⟨?_, by decide +kernel, fun _ _ _ _ => rfl⟩
  exact fun n hn => Sources.cd_of_proper (twoNames_proper n hn) _

/-- The first directory does not build, and the second one is not reached. -/
theorem buildsEach_fails_after_failure :
    ¬ ∀ (w : Sources) (assign : List Str → Str → Bool) (top : Str) (names : List Str),
      (∀ n ∈ names, '/' ∉ n) → w.BuildsEach assign top names := by
  intro hclaim
  have hbuilds := hclaim twoSources (fun _ d => decide (d ≠ "/two/1-2".toList)) "/two".toList
    twoNames fun n hn => (twoNames_proper n hn).no_slash
  have hlisted : twoSources.listed "/two".toList twoNames =
      [] ++ "/two/1-2".toList :: ["/two/1-4".toList] := by decide +kernel
  have hfirst := (hbuilds.allBuild twoNames_proper).build _ _ _ hlisted
  simp at hfirst

end AutoTestKernel.GuestProgram
