import AutoTestKernel.GuestProgram.Chain
import AutoTestKernel.GuestProgram.Descent
import Mathlib.Data.Finset.Lattice.Fold

/-!
# Makefiles all over the tree

Makefiles of either kind may lie in any directories of a tree.  A loop of the
one kind goes down one level and comes back; a loop of the other kind may stay
down, but goes further down only.  So the one way not to come to an end is a
Makefile that runs itself, because of a directory that is missing.
-/

namespace AutoTestKernel.GuestProgram

open Text Pathname Shell Fs Fuel Runs Relation

namespace Sources

variable {w : Sources} {sub : SubMake} {recipe : Recipe} {fuel fuel' : ℕ} {s t : LoopShell}
  {top d d' n : Str} {names : List Str}

/-! ## The calls of a Makefile -/

/-- An iteration of the loop of a Makefile. -/
def iterate (w : Sources) (sub : SubMake) : Recipe → LoopShell → Str → Option LoopShell
  | .compile, s, _ => some s
  | .descend _, s, n => s.descend w sub n
  | .chain _, s, n => s.chain w sub n

/-- Where an iteration runs `make`, if it does. -/
def called (w : Sources) (cwd n : Str) : Recipe → Option Str
  | .compile => none
  | .descend _ => some (w.target cwd n)
  | .chain _ => w.cd cwd n

def loop (w : Sources) (fuel : ℕ) (recipe : Recipe) (names : List Str) (s : LoopShell) :
    Option LoopShell :=
  names.foldlM (w.iterate (fun _ d => (w.make fuel d).map LoopShell.ok) recipe) s

/-- The Makefile in `d` comes to run `make` in `d'`: the iterations before have
come to an end. -/
inductive Starts (w : Sources) (d d' : Str) : Prop
  | intro {recipe : Recipe} {earlier later : List Str} {n : Str} {fuel : ℕ} {s : LoopShell}
      (hall : ¬ w.UpToDate d) (hmake : w.makefile? d = some (some recipe))
      (hlist : w.forList d recipe.words = earlier ++ n :: later)
      (hloop : w.loop fuel recipe earlier { cwd := d } = some s)
      (hcalled : w.called s.cwd n recipe = some d')

theorem iterate_of_called_none (h : w.called s.cwd n recipe = none) :
    ∃ t, ∀ sub, w.iterate sub recipe s n = some t := by
  cases recipe with
  | compile => exact ⟨s, fun _ => rfl⟩
  | descend words => simp [called] at h
  | chain words => exact ⟨s.skipped, fun _ => chain_of_cd_eq_none h⟩

theorem iterate_of_called (h : w.called s.cwd n recipe = some d) :
    ∃ next, ∀ sub, w.iterate sub recipe s n = (sub s.makes d).map next := by
  cases recipe with
  | compile => simp [called] at h
  | descend words =>
      obtain rfl := Option.some.inj h
      exact ⟨_, fun _ => descend_eq⟩
  | chain words => exact ⟨_, fun _ => chain_of_cd_eq_some h⟩

theorem make_eq_loop (hmake : w.makefile? d = some (some recipe)) (hall : ¬ w.UpToDate d)
    (hne : recipe ≠ .compile) :
    w.make (fuel + 1) d = w.loop fuel recipe (w.forList d recipe.words) { cwd := d } := by
  cases recipe with
  | compile => exact absurd rfl hne
  | descend words => simp only [make, hmake, if_neg hall]; rfl
  | chain words => simp only [make, hmake, if_neg hall]; rfl

theorem loop_concat : w.loop fuel recipe (names ++ [n]) s = (w.loop fuel recipe names s).bind
    fun u => w.iterate (fun _ d => (w.make fuel d).map LoopShell.ok) recipe u n := by
  rw [loop, List.foldlM_append, Option.bind_eq_bind, ← loop]
  refine congrArg _ (funext fun u => ?_)
  rw [List.foldlM_cons]
  exact bind_pure _

theorem loop_mono (hle : fuel ≤ fuel') (h : w.loop fuel recipe names s = some t) :
    w.loop fuel' recipe names s = some t := by
  have hsub : ∀ (_ : List Str) d ok, (w.make fuel d).map LoopShell.ok = some ok →
      (w.make fuel' d).map LoopShell.ok = some ok := by
    intro _ d ok hok
    obtain ⟨u, hu, rfl⟩ := Option.map_eq_some_iff.mp hok
    rw [w.stable_make.mono hle hu, Option.map_some]
  refine foldlM_of_body (fun s n t ht => ?_) h
  cases recipe with
  | compile => exact ht
  | descend words => exact LoopShell.descend_of_sub hsub ht
  | chain words => exact LoopShell.chain_of_sub hsub ht

theorem loop_unique {s' : LoopShell} (h : w.loop fuel recipe names s = some t)
    (h' : w.loop fuel' recipe names s = some s') : t = s' :=
  Option.some.inj <| (loop_mono (Nat.le_max_left fuel fuel') h).symm.trans
    (loop_mono (Nat.le_max_right fuel fuel') h')

/-- A loop up to one of its names, the iteration for it, and the rest. -/
theorem loop_split {earlier later : List Str}
    (h : w.loop fuel recipe (earlier ++ n :: later) s = some t) :
    ∃ u v, w.loop fuel recipe earlier s = some u ∧
      w.iterate (fun _ d => (w.make fuel d).map LoopShell.ok) recipe u n = some v ∧
        w.loop fuel recipe later v = some t := by
  rw [loop, List.foldlM_append, Option.bind_eq_bind, Option.bind_eq_some_iff] at h
  obtain ⟨u, hu, hrest⟩ := h
  rw [List.foldlM_cons, Option.bind_eq_bind, Option.bind_eq_some_iff] at hrest
  obtain ⟨v, hv, hlater⟩ := hrest
  exact ⟨u, v, hu, hv, hlater⟩

/-- A Makefile does not come to an end before what it starts. -/
theorem Starts.ends (h : w.Starts d d') (hend : w.make fuel d = some t) :
    ∃ m < fuel, ∃ t', w.make m d' = some t' := by
  obtain ⟨hall, hmake, hlist, hloop, hcalled⟩ := h
  rename_i recipe earlier later n fuel' s
  cases fuel with
  | zero => simp [make] at hend
  | succ fuel =>
      have hne : recipe ≠ .compile := by
        rintro rfl
        simp [called] at hcalled
      rw [make_eq_loop hmake hall hne, hlist] at hend
      obtain ⟨u, v, hu, hiterate, -⟩ := loop_split hend
      -- The iterations before come to the same state for every fuel.
      rw [loop_unique hu hloop] at hiterate
      obtain ⟨next, hnext⟩ := iterate_of_called hcalled
      rw [hnext, Option.map_eq_some_iff] at hiterate
      obtain ⟨ok, hok, -⟩ := hiterate
      obtain ⟨t', ht', -⟩ := Option.map_eq_some_iff.mp hok
      exact ⟨fuel, Nat.lt_succ_self fuel, t', ht'⟩

theorem exists_loop (hall : ¬ w.UpToDate d) (hmake : w.makefile? d = some (some recipe))
    (hends : ∀ d', w.Starts d d' → Ends w.make d') {earlier later : List Str}
    (hlist : w.forList d recipe.words = earlier ++ later) :
    ∃ fuel s, w.loop fuel recipe earlier { cwd := d } = some s := by
  induction earlier using List.reverseRecOn generalizing later with
  | nil => exact ⟨0, _, rfl⟩
  | append_singleton earlier n ih =>
      rw [List.append_assoc, List.singleton_append] at hlist
      obtain ⟨fuel, s, hs⟩ := ih hlist
      cases hcalled : w.called s.cwd n recipe with
      | none =>
          obtain ⟨t, ht⟩ := iterate_of_called_none hcalled
          exact ⟨fuel, t, by rw [loop_concat, hs, Option.bind_some, ht]⟩
      | some d' =>
          obtain ⟨fuel', t, ht⟩ := hends d' ⟨hall, hmake, hlist, hs, hcalled⟩
          obtain ⟨next, hnext⟩ := iterate_of_called hcalled
          refine ⟨max fuel fuel', next t.ok, ?_⟩
          rw [loop_concat, loop_mono (Nat.le_max_left fuel fuel') hs, Option.bind_some, hnext,
            w.stable_make.mono (Nat.le_max_right fuel fuel') ht]
          rfl

/-- A Makefile comes to an end if everything that it starts does. -/
theorem ends_of_starts (h : ∀ d', w.Starts d d' → Ends w.make d') : Ends w.make d := by
  by_cases hloop : ∃ recipe, w.makefile? d = some (some recipe) ∧ recipe ≠ .compile
  · obtain ⟨recipe, hmake, hne⟩ := hloop
    by_cases hall : w.UpToDate d
    · exact ⟨1, { cwd := d }, by simp only [make, hmake, if_pos hall]⟩
    · obtain ⟨fuel, s, hs⟩ := exists_loop hall hmake h (List.append_nil _).symm
      exact ⟨fuel + 1, s, by rw [make_eq_loop hmake hall hne, hs]⟩
  · refine ends_of_no_loop fun recipe hmake => ?_
    by_contra hne
    exact hloop ⟨recipe, hmake, hne⟩

theorem ends_iff_terminates_starts : Ends w.make d ↔ Terminates w.Starts d :=
  ends_iff_terminates (fun hend hstarts => hstarts.ends hend) ends_of_starts

/-! ## Going down -/

/-- If `cd` leads anywhere with these names, then one level down. -/
def LeadDown (w : Sources) (names : List Str) : Prop :=
  ∀ n ∈ names, ∀ cwd d, w.cd cwd n = some d → ∃ m, '/' ∉ m ∧ d = child cwd m

/-- All the lists of the tree do. -/
def LeadsDown (w : Sources) : Prop :=
  ∀ d recipe, w.makefile? d = some (some recipe) → w.LeadDown (w.forList d recipe.words)

/-- A loop that comes back by `cd ..` enters every directory of its list. -/
def EntersAll (w : Sources) (d : Str) : Prop :=
  ∀ words, w.makefile? d = some (some (.descend words)) → ¬ w.UpToDate d →
    ∀ n ∈ w.forList d words, (w.cd d n).isSome = true

/-- The recipes of the tree. -/
def recipes (w : Sources) : List Recipe :=
  w.tree.entries.filterMap fun e =>
    match e.2 with
    | .file contents => contents
    | .dir => none

theorem mem_recipes_of_makefile (h : w.makefile? d = some (some recipe)) :
    recipe ∈ w.recipes := by
  obtain ⟨n, -, hfile⟩ := List.exists_of_findSome?_eq_some h
  unfold file? at hfile
  split at hfile
  · next contents hget =>
      obtain rfl := Option.some.inj hfile
      exact List.mem_filterMap.mpr ⟨_, FileTree.get?_eq_some_iff.mp hget, rfl⟩
  · simp at hfile

theorem leadDown_of_proper (h : ∀ n ∈ names, Proper n) : w.LeadDown names := by
  intro n hn cwd d hcd
  rw [cd_of_proper (h n hn)] at hcd
  split at hcd
  · exact ⟨n, (h n hn).no_slash, (Option.some.inj hcd).symm⟩
  · simp at hcd

theorem leadsDown_of_proper (h : ∀ recipe ∈ w.recipes, ∀ word ∈ recipe.words, Proper word.text) :
    w.LeadsDown := by
  intro d recipe hmake
  have hwords := h recipe (mem_recipes_of_makefile hmake)
  rw [forList_of_proper hwords]
  exact leadDown_of_proper (List.forall_mem_map.mpr hwords)

theorem loop_descend_cwd {words : List Word} (hdown : w.LeadDown names)
    (henters : ∀ n ∈ names, (w.cd d n).isSome = true)
    (h : w.loop fuel (.descend words) names { cwd := d } = some s) : s.cwd = d := by
  refine foldlM_preserves (I := fun u => u.cwd = d) (fun u n v hn hu hv => ?_) h rfl
  obtain ⟨d', hd'⟩ := Option.isSome_iff_exists.mp (henters n hn)
  obtain ⟨m, hm, rfl⟩ := hdown n hn d d' hd'
  have hdescend : u.descend w _ n = some v := hv
  rw [descend_eq, hu, target_of_cd hd'] at hdescend
  obtain ⟨ok, -, rfl⟩ := Option.map_eq_some_iff.mp hdescend
  exact dirName_child hm d

theorem loop_chain_below {words : List Word} (hdown : w.LeadDown names)
    (h : w.loop fuel (.chain words) names { cwd := d } = some s) : d <+: s.cwd := by
  refine foldlM_preserves (I := fun u => d <+: u.cwd) (fun u n v hn hu hv => ?_) h
    (List.prefix_refl d)
  have hchain : u.chain w _ n = some v := hv
  cases hcd : w.cd u.cwd n with
  | none =>
      rw [chain_of_cd_eq_none hcd] at hchain
      obtain rfl := Option.some.inj hchain
      exact hu
  | some d' =>
      obtain ⟨m, hm, rfl⟩ := hdown n hn u.cwd d' hcd
      rw [chain_of_cd_eq_some hcd] at hchain
      obtain ⟨ok, -, rfl⟩ := Option.map_eq_some_iff.mp hchain
      cases ok with
      | true => simpa [LoopShell.built, dirName_child hm] using hu
      | false => simpa [LoopShell.built] using hu.trans (prefix_child u.cwd m)

theorem length_lt_child (d m : Str) : d.length < (child d m).length := by
  simp only [child, List.length_append, List.length_cons]
  omega

/-- What a Makefile starts is further down. -/
theorem Starts.deeper (h : w.Starts d d') (hdown : w.LeadsDown) (henters : w.EntersAll d) :
    d.length < d'.length ∧ w.tree.isDir d' = true := by
  obtain ⟨hall, hmake, hlist, hloop, hcalled⟩ := h
  rename_i recipe earlier later n fuel s
  have hlead := hdown d recipe hmake
  rw [hlist] at hlead
  have hn := hlead n (by simp)
  have hearlier : w.LeadDown earlier := fun m hm => hlead m (List.mem_append_left _ hm)
  cases recipe with
  | compile => simp [called] at hcalled
  | descend words =>
      have hcds := henters words hmake hall
      rw [show w.forList d words = earlier ++ n :: later from hlist] at hcds
      have hcwd := loop_descend_cwd hearlier (fun m hm => hcds m (List.mem_append_left _ hm)) hloop
      obtain ⟨d'', hd''⟩ := Option.isSome_iff_exists.mp (hcds n (by simp))
      obtain rfl := Option.some.inj hcalled
      obtain ⟨m, -, rfl⟩ := hn d d'' hd''
      rw [hcwd, target_of_cd hd'']
      exact ⟨length_lt_child d m, isDir_of_cd hd''⟩
  | chain words =>
      have hbelow := loop_chain_below hearlier hloop
      have hcd : w.cd s.cwd n = some d' := hcalled
      obtain ⟨m, -, rfl⟩ := hn s.cwd d' hcd
      exact ⟨hbelow.length_le.trans_lt (length_lt_child s.cwd m), isDir_of_cd hcd⟩

/-- No directory lies deeper than the deepest entry. -/
theorem exists_depth (w : Sources) : ∃ depth, ∀ d, w.tree.isDir d = true → d.length ≤ depth := by
  refine ⟨w.tree.keys.toFinset.sup List.length, fun d hd => ?_⟩
  have hmem : d ∈ w.tree.keys := FileTree.mem_keys_iff.mpr ⟨.dir, FileTree.isDir_iff.mp hd⟩
  exact Finset.le_sup (f := List.length) (List.mem_toFinset.mpr hmem)

/-! ## Coming to an end -/

theorem exists_stuck (hdown : w.LeadDown names) (hnone : ∃ n ∈ names, w.cd top n = none) :
    ∃ x ∈ w.walk top names, w.target x.1 x.2 = top := by
  induction names with
  | nil => simp at hnone
  | cons n names ih =>
      cases hcd : w.cd top n with
      | none => exact ⟨(top, n), by simp, by rw [target, hcd, Option.getD_none]⟩
      | some d =>
          obtain ⟨m, hm, rfl⟩ := hdown n List.mem_cons_self top d hcd
          have hback : dirName (w.target top n) = top := by
            rw [target_of_cd hcd, dirName_child hm]
          have hnone' : ∃ n' ∈ names, w.cd top n' = none := by
            obtain ⟨n', hn', hcd'⟩ := hnone
            refine ⟨n', (List.mem_cons.mp hn').resolve_left ?_, hcd'⟩
            rintro rfl
            simp [hcd] at hcd'
          obtain ⟨x, hx, hself⟩ := ih (fun n' hn' => hdown n' (List.mem_cons_of_mem n hn')) hnone'
          refine ⟨x, ?_, hself⟩
          rw [walk_cons, hback]
          exact List.mem_cons_of_mem _ hx

theorem ends_of_reaches (h : ReflTransGen w.Starts top d) (hend : Ends w.make top) :
    Ends w.make d := by
  induction h with
  | refl => exact hend
  | tail _ hlast ih =>
      obtain ⟨fuel, t, ht⟩ := ih
      obtain ⟨m, -, t', ht'⟩ := hlast.ends ht
      exact ⟨m, t', ht'⟩

/-- Whatever Makefiles of both kinds a tree has, `make` comes to an end exactly
if no loop that comes back by `cd ..` is started where a directory of its list
is missing. -/
theorem ends_iff_entersAll (hdown : w.LeadsDown) :
    Ends w.make top ↔ ∀ d, ReflTransGen w.Starts top d → w.EntersAll d := by
  constructor
  · intro hend d hreach words hmake hall n hn
    by_contra hcd
    have hnone : ∃ n ∈ w.forList d words, w.cd d n = none :=
      ⟨n, hn, Option.not_isSome_iff_eq_none.mp hcd⟩
    have hlead : w.LeadDown (w.forList d words) := hdown d _ hmake
    exact not_ends_of_target hmake hall (exists_stuck hlead hnone) (ends_of_reaches hreach hend)
  · intro henters
    obtain ⟨depth, hdepth⟩ := w.exists_depth
    refine ends_iff_terminates_starts.mpr ?_
    refine terminates_of_rank (fun d => depth + 1 - d.length)
      (I := fun d => ∀ d', ReflTransGen w.Starts d d' → w.EntersAll d') ?_ ?_ henters
    · exact fun hall hstart d' hd' => hall d' (.head hstart hd')
    · intro d d' hall hstart
      obtain ⟨hlonger, hdir⟩ := hstart.deeper hdown (hall d .refl)
      have hle := hdepth d' hdir
      omega

/-! ## Failures that are reported -/

/-- What `make` comes to in `d` is a success. -/
def Builds (w : Sources) (d : Str) : Prop := ∃ fuel t, w.make fuel d = some t ∧ t.ok = true

theorem not_builds_of_make (h : w.make fuel d = some t) (hfail : t.ok = false) :
    ¬ w.Builds d := by
  rintro ⟨fuel', t', ht', hok⟩
  rw [← w.stable_make.unique h ht', hfail] at hok
  exact Bool.false_ne_true hok

/-- Where no listed name leads anywhere, every iteration fails. -/
theorem loop_chain_stuck {words : List Word} (hnone : ∀ n ∈ names, w.cd s.cwd n = none)
    (hfail : s.ok = false) (h : w.loop fuel (.chain words) names s = some t) : t.ok = false := by
  have hkept : t.ok = false ∧ t.cwd = s.cwd := by
    refine foldlM_preserves (I := fun u => u.ok = false ∧ u.cwd = s.cwd) ?_ h ⟨hfail, rfl⟩
    intro u n v hn hu hv
    have hchain : u.chain w _ n = some v := hv
    rw [chain_of_cd_eq_none (hu.2 ▸ hnone n hn)] at hchain
    obtain rfl := Option.some.inj hchain
    exact ⟨rfl, hu.2⟩
  exact hkept.1

theorem loop_chain_ok_iff {words : List Word} (hdown : w.LeadDown names)
    (hflat : ∀ n ∈ names, ∀ m ∈ names, ∀ d ∈ w.cd top n, w.cd d m = none) (hcwd : s.cwd = top)
    (h : w.loop fuel (.chain words) names s = some t) :
    t.ok = true ↔ (∀ n ∈ names, ∀ d ∈ w.cd top n, w.Builds d) ∧
      (∀ n ∈ names.getLast?, (w.cd top n).isSome = true) ∧ (names = [] → s.ok = true) := by
  induction names generalizing s with
  | nil =>
      obtain rfl := Option.some.inj h
      simp
  | cons n names ih =>
      subst hcwd
      have hdown' : w.LeadDown names := fun m hm => hdown m (List.mem_cons_of_mem n hm)
      have hflat' : ∀ n ∈ names, ∀ m ∈ names, ∀ d ∈ w.cd s.cwd n, w.cd d m = none :=
        fun n hn m hm => hflat n (List.mem_cons_of_mem _ hn) m (List.mem_cons_of_mem _ hm)
      rw [loop, List.foldlM_cons, Option.bind_eq_bind, Option.bind_eq_some_iff] at h
      obtain ⟨u, hu, hrest⟩ := h
      change w.loop fuel (.chain words) names u = some t at hrest
      have hchain : s.chain w _ n = some u := hu
      cases hcd : w.cd s.cwd n with
      | none =>
          rw [chain_of_cd_eq_none hcd] at hchain
          obtain rfl := Option.some.inj hchain
          have hskipped : s.skipped.ok = false := rfl
          rw [ih (s := s.skipped) hdown' hflat' rfl hrest, List.forall_mem_cons, hskipped]
          cases names with
          | nil => simp [hcd]
          | cons m names => simp [hcd]
      | some d =>
          obtain ⟨m, hm, rfl⟩ := hdown n List.mem_cons_self s.cwd d hcd
          rw [chain_of_cd_eq_some hcd] at hchain
          obtain ⟨ok, hok, rfl⟩ := Option.map_eq_some_iff.mp hchain
          obtain ⟨t', ht', rfl⟩ := Option.map_eq_some_iff.mp hok
          cases hsub : t'.ok with
          | true =>
              rw [hsub] at hrest
              have hbuilds : w.Builds (child s.cwd m) := ⟨fuel, t', ht', hsub⟩
              rw [ih (s := s.built _ true) hdown' hflat' (dirName_child hm s.cwd) hrest,
                List.forall_mem_cons]
              cases names with
              | nil => simp [hcd, hbuilds, LoopShell.built]
              | cons m' names => simp [hcd, hbuilds]
          | false =>
              rw [hsub] at hrest
              -- The rest of the loop is run in the directory that failed.
              have hstuck := loop_chain_stuck (fun n' hn' =>
                hflat n List.mem_cons_self n' (List.mem_cons_of_mem n hn') _ hcd) rfl hrest
              refine iff_of_false (by simp [hstuck]) fun hall => ?_
              exact not_builds_of_make ht' hsub (hall.1 n List.mem_cons_self _ hcd)

/-- A loop of the kind `cd $i && make && cd ..`, none of whose directories has
one of the listed names in it, reports a failure exactly if a program does not
build or the last directory is missing. -/
theorem chain_reports_iff {words : List Word}
    (hmake : w.makefile? top = some (some (.chain words))) (hall : ¬ w.UpToDate top)
    (hdown : w.LeadDown (w.forList top words))
    (hflat : ∀ n ∈ w.forList top words, ∀ m ∈ w.forList top words, ∀ d ∈ w.cd top n,
      w.cd d m = none) (h : w.make fuel top = some s) :
    s.ok = false ↔ (∃ n ∈ w.forList top words, ∃ d ∈ w.cd top n, ¬ w.Builds d) ∨
      ∃ n ∈ (w.forList top words).getLast?, w.cd top n = none := by
  cases fuel with
  | zero => simp [make] at h
  | succ fuel =>
      rw [make_eq_loop hmake hall (by simp)] at h
      have hok := loop_chain_ok_iff hdown hflat rfl h
      rw [← Bool.not_eq_true, hok]
      simp only [implies_true, and_true, not_and_or, not_forall, exists_prop,
        Option.not_isSome_iff_eq_none]

end Sources

theorem ends_iff_entersAll_fileRw : Ends fileRwSources.make "/file-rw".toList ↔
    ∀ d, ReflTransGen fileRwSources.Starts "/file-rw".toList d → fileRwSources.EntersAll d :=
  Sources.ends_iff_entersAll (Sources.leadsDown_of_proper (by decide +kernel))

/-- The two directories there build, but the last one of the list is missing. -/
theorem chain_reports_iff_two : ((twoSources.make 2 "/two".toList).getD { cwd := [] }).ok = false ↔
    (∃ n ∈ twoSources.forList "/two".toList sendmsgDetailTwo.words,
      ∃ d ∈ twoSources.cd "/two".toList n, ¬ twoSources.Builds d) ∨
      ∃ n ∈ (twoSources.forList "/two".toList sendmsgDetailTwo.words).getLast?,
        twoSources.cd "/two".toList n = none := by
  have hlist : twoSources.forList "/two".toList sendmsgDetailTwo.words = twoNames :=
    Sources.forList_of_proper (words_proper sendmsgDetailTwo (by simp)).2
  have hlead : twoSources.LeadDown (twoSources.forList "/two".toList sendmsgDetailTwo.words) := by
    rw [hlist]
    exact Sources.leadDown_of_proper twoNames_proper
  have hends : twoSources.make 2 "/two".toList =
      some ((twoSources.make 2 "/two".toList).getD { cwd := [] }) := by decide +kernel
  exact Sources.chain_reports_iff (by decide +kernel) (by decide +kernel) hlead
    (by decide +kernel) hends

end AutoTestKernel.GuestProgram
