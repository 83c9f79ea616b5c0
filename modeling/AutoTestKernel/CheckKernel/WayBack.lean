import AutoTestKernel.CheckKernel.Parts

/-!
# The way back from a directory

checkKernel.sh comes back by `cd $Kernel`, onlyinsert.sh by `cd -`.  A directory
that is missing makes no difference to the first; the second goes to where it
was before, and from there hardly a name on the list leads where it should.
-/

namespace AutoTestKernel.CheckKernel

open Text Shell Fs

/-! ## One iteration -/

/-- The programs from elsewhere create and remove no directory. -/
def DirsKept (_ : Finset Str) (o : Outcome) (s : PartShell) (c : PartCommand) : Prop :=
  ∀ e, c = .own (.external e) → ∀ p, o.tree.isDir p = s.check.tree.isDir p

/-- `cd $toInsertDir` -/
def enter (isDir : Str → Bool) (x : Str × Option Str) (toInsertDir : String) : Str × Option Str :=
  if isDir (inside x.1 toInsertDir) then (inside x.1 toInsertDir, some x.1) else x

/-- `cd -` -/
def turnBack (isDir : Str → Bool) (x : Str × Option Str) : Str × Option Str :=
  match x.2 with
  | some p => if isDir p then (p, some x.1) else x
  | none => x

/-- The shell has moved and has applied insert in some directories. -/
structure Moved (s u : PartShell) (x : Str × Option Str) (ps : List Str) : Prop where
  kernel : u.check.kernel = s.check.kernel
  isDir : u.check.tree.isDir = s.check.tree.isDir
  place : u.place = x
  places : u.check.places = s.check.places ++ ps

namespace Moved

variable {s u v : PartShell} {x y : Str × Option Str} {ps qs : List Str} {outside : Finset Str}
  {o : Outcome}

theorem trans (h : Moved s u x ps) (h' : Moved u v y qs) : Moved s v y (ps ++ qs) where
  kernel := h'.kernel.trans h.kernel
  isDir := h'.isDir.trans h.isDir
  place := h'.place
  places := by rw [h'.places, h.places, List.append_assoc]

theorem cd (d : String) : Moved s (s.exec outside o (.own (.cd d)))
    (enter s.check.tree.isDir s.place d) [] := by
  have hentered : s.place.1 = s.check.cwd := rfl
  cases hdir : s.check.tree.isDir (inside s.check.cwd d) with
  | true =>
      refine ⟨PartShell.exec_kernel, ?_, ?_, by rw [PartShell.places_exec]; simp⟩
      · simp [PartShell.exec, Check.exec, hdir]
      · simp [PartShell.exec, Check.exec, Check.entered, PartShell.place, enter, hdir]
  | false =>
      refine ⟨PartShell.exec_kernel, ?_, ?_, by rw [PartShell.places_exec]; simp⟩
      · simp [PartShell.exec, Check.exec, hdir]
      · simp [PartShell.exec, Check.exec, Check.entered, PartShell.place, enter, hdir]

theorem external (e : External) (hkept : DirsKept outside o s (.own (.external e))) :
    Moved s (s.exec outside o (.own (.external e))) s.place
      (if e = .insert then [s.check.cwd] else []) := by
  have hdirs : o.tree.isDir = s.check.tree.isDir := funext (hkept e rfl)
  refine ⟨PartShell.exec_kernel, ?_, ?_, by rw [PartShell.places_exec]; simp⟩
  · cases e <;> exact hdirs
  · cases e <;> rfl

theorem cdBack : Moved s (s.exec outside o .cdBack) (turnBack s.check.tree.isDir s.place) [] := by
  refine ⟨PartShell.exec_kernel, ?_, ?_, by rw [PartShell.places_exec]; simp⟩
  · simp only [PartShell.exec]
    split
    · split <;> rfl
    · rfl
  · cases hold : s.oldpwd with
    | none => simp [PartShell.exec, turnBack, PartShell.place, hold]
    | some p =>
        cases hdir : s.check.tree.isDir p <;>
          simp [PartShell.exec, turnBack, PartShell.place, hold, hdir]

theorem cdKernel (hword : OneWord s.check.kernel)
    (hdir : s.check.tree.isDir s.check.kernel = true) :
    Moved s (s.exec outside o (.own .cdKernel)) (s.check.kernel, some s.check.cwd) [] := by
  have hargs : s.check.cdArgs outside = [s.check.kernel] := hword.expand_eq _
  refine ⟨PartShell.exec_kernel, ?_, ?_, by rw [PartShell.places_exec]; simp⟩
  · simp [PartShell.exec, Check.exec, hargs, hdir]
  · simp [PartShell.exec, Check.exec, Check.entered, PartShell.place, hargs, hdir]

end Moved

/-- What an iteration does before it turns back. -/
theorem Execs.work_inv {d : String} {rest : List PartCommand} {s t : PartShell}
    (h : Execs DirsKept (.own (.cd d) :: .own (.external .pintck) :: .own (.external .insert) ::
      rest) s t) :
    ∃ u, Execs DirsKept rest u t ∧ Moved s u (enter s.check.tree.isDir s.place d)
      [(enter s.check.tree.isDir s.place d).1] := by
  obtain ⟨x₁, o₁, -, h₁⟩ := h.straight_inv (by simp)
  have hcd : Moved s (s.exec x₁ o₁ (.own (.cd d))) _ [] := Moved.cd d
  generalize s.exec x₁ o₁ (.own (.cd d)) = s₁ at h₁ hcd
  obtain ⟨x₂, o₂, hkept₂, h₂⟩ := h₁.straight_inv (by simp)
  have hpintck := hcd.trans (Moved.external .pintck hkept₂)
  rw [hcd.place, if_neg (by simp)] at hpintck
  generalize s₁.exec x₂ o₂ (.own (.external .pintck)) = s₂ at h₂ hpintck
  obtain ⟨x₃, o₃, hkept₃, h₃⟩ := h₂.straight_inv (by simp)
  have hinsert := hpintck.trans (Moved.external .insert hkept₃)
  have hcwd : s₂.check.cwd = (enter s.check.tree.isDir s.place d).1 :=
    congrArg Prod.fst hpintck.place
  rw [hpintck.place, if_pos rfl, hcwd] at hinsert
  exact ⟨_, h₃, hinsert⟩

theorem Execs.there_inv {d : String} {rest : List PartCommand} {s t : PartShell}
    (h : Execs DirsKept (insertThere d ++ rest) s t) :
    ∃ u, Execs DirsKept rest u t ∧
      Moved s u (turnBack s.check.tree.isDir (enter s.check.tree.isDir s.place d))
        [(enter s.check.tree.isDir s.place d).1] := by
  obtain ⟨u, hback, hwork⟩ := Execs.work_inv h
  obtain ⟨x, o, -, hrest⟩ := hback.straight_inv (by simp)
  have hturn : Moved u (u.exec x o .cdBack) _ [] := Moved.cdBack
  rw [hwork.place, hwork.isDir] at hturn
  exact ⟨_, hrest, hwork.trans hturn⟩

theorem Execs.here_inv {d : String} {rest : List PartCommand} {s t : PartShell}
    (h : Execs DirsKept ((insertInto d).map .own ++ rest) s t) (hword : OneWord s.check.kernel)
    (hdir : s.check.tree.isDir s.check.kernel = true) :
    ∃ u oldpwd, Execs DirsKept rest u t ∧ Moved s u (s.check.kernel, oldpwd)
      [(enter s.check.tree.isDir s.place d).1] := by
  obtain ⟨u, hback, hwork⟩ := Execs.work_inv h
  obtain ⟨x, o, -, hrest⟩ := hback.straight_inv (by simp)
  have hword' : OneWord u.check.kernel := hwork.kernel ▸ hword
  have hdir' : u.check.tree.isDir u.check.kernel = true := by
    rw [hwork.isDir, hwork.kernel, hdir]
  have hreturn : Moved u (u.exec x o (.own .cdKernel)) _ [] := Moved.cdKernel hword' hdir'
  rw [hwork.kernel] at hreturn
  exact ⟨_, _, hrest, hwork.trans hreturn⟩

/-! ## The loops -/

/-- Where insert is applied with `cd -`, and where the loop ends. -/
def strayed (isDir : Str → Bool) :
    Str × Option Str → List String → List Str × (Str × Option Str)
  | x, [] => ([], x)
  | x, d :: names =>
      let r := strayed isDir (turnBack isDir (enter isDir x d)) names
      ((enter isDir x d).1 :: r.1, r.2)

/-- Where insert is applied with `cd $Kernel`. -/
def straight (isDir : Str → Bool) (kernel : Str) (names : List String) : List Str :=
  names.map fun d => (enter isDir (kernel, none) d).1

theorem Execs.loop_there {names : List String} {s t : PartShell}
    (h : Execs DirsKept (names.flatMap insertThere) s t) :
    Moved s t (strayed s.check.tree.isDir s.place names).2
      (strayed s.check.tree.isDir s.place names).1 := by
  induction names generalizing s with
  | nil =>
      cases h
      exact ⟨rfl, rfl, rfl, (List.append_nil _).symm⟩
  | cons d names ih =>
      rw [List.flatMap_cons] at h
      obtain ⟨u, hrest, hmoved⟩ := h.there_inv
      have hloop := ih hrest
      rw [hmoved.isDir, hmoved.place] at hloop
      exact hmoved.trans hloop

theorem enter_fst (isDir : Str → Bool) (cwd : Str) (oldpwd oldpwd' : Option Str) (d : String) :
    (enter isDir (cwd, oldpwd) d).1 = (enter isDir (cwd, oldpwd') d).1 := by
  simp only [enter]
  split <;> rfl

theorem Execs.loop_here {names : List String} {s t : PartShell}
    (h : Execs DirsKept ((names.flatMap insertInto).map .own) s t) (hword : OneWord s.check.kernel)
    (hdir : s.check.tree.isDir s.check.kernel = true) (hcwd : s.check.cwd = s.check.kernel) :
    t.check.cwd = s.check.kernel ∧ t.check.places =
      s.check.places ++ straight s.check.tree.isDir s.check.kernel names := by
  induction names generalizing s with
  | nil =>
      cases h
      exact ⟨hcwd, (List.append_nil _).symm⟩
  | cons d names ih =>
      rw [List.flatMap_cons, List.map_append] at h
      obtain ⟨u, oldpwd, hrest, hmoved⟩ := h.here_inv hword hdir
      have hplace : u.check.cwd = u.check.kernel := by
        rw [hmoved.kernel]
        exact congrArg Prod.fst hmoved.place
      obtain ⟨hend, hplaces⟩ := ih hrest (hmoved.kernel ▸ hword)
        (by rw [hmoved.isDir, hmoved.kernel, hdir]) hplace
      refine ⟨hend.trans hmoved.kernel, ?_⟩
      rw [hplaces, hmoved.places, hmoved.isDir, hmoved.kernel, PartShell.place, hcwd,
        enter_fst _ _ _ none, List.append_assoc]
      rfl

/-! ## Going astray -/

section Strayed

variable {isDir : Str → Bool} {kernel : Str} {names : List String}

theorem inside_inj {d d' : String} (h : inside kernel d = inside kernel d') : d = d' := by
  have hlist : d.toList = d'.toList := by simpa [inside] using h
  exact String.toList_inj.mp hlist

/-- From one of the directories no other name leads where it should. -/
theorem enter_astray {d d' : String} (hne : d ≠ d') (oldpwd : Option Str) :
    (enter isDir (inside kernel d, oldpwd) d').1 ≠ (enter isDir (kernel, none) d').1 := by
  have hlonger : (inside kernel d).length = kernel.length + (d.toList.length + 1) := by
    simp [inside]
  simp only [enter]
  split <;> split <;> intro h
  · have hlength := congrArg List.length h
    simp only [inside, List.length_append, List.length_cons] at hlength
    omega
  · have hlength := congrArg List.length h
    simp only [inside, List.length_append, List.length_cons] at hlength
    omega
  · exact hne (inside_inj h)
  · exact inside_ne_self kernel d h

/-- Back from a directory that is there. -/
theorem turnBack_of_there {d : String} (hdir : isDir kernel = true)
    (hthere : isDir (inside kernel d) = true) (oldpwd : Option Str) :
    turnBack isDir (enter isDir (kernel, oldpwd) d) = (kernel, some (inside kernel d)) := by
  simp [enter, turnBack, hthere, hdir]

/-- After a `cd` that has failed, `cd -` leads to where the shell was before. -/
theorem turnBack_of_missing {cwd p : Str} {d : String} (hp : isDir p = true)
    (hmissing : ¬ isDir (inside cwd d) = true) :
    turnBack isDir (enter isDir (cwd, some p) d) = (p, some cwd) := by
  simp [enter, turnBack, hmissing, hp]

theorem pairwise_cons_iff_forall {P : String → Prop} {d : String} (hd : P d) :
    (d :: names).Pairwise (fun a b => P a → P b) ↔ ∀ b ∈ names, P b := by
  rw [List.pairwise_cons]
  constructor
  · exact fun h b hb => h.1 b hb hd
  · exact fun h => ⟨fun b hb _ => h b hb,
      List.pairwise_of_forall_mem_list fun _ _ b hb _ => h b hb⟩

theorem strayed_iff_of_entered {d : String} (hdir : isDir kernel = true)
    (hd : isDir (inside kernel d) = true) (hnew : d ∉ names) (hnodup : names.Nodup) :
    ((strayed isDir (kernel, some (inside kernel d)) names).1 = straight isDir kernel names ∧
        (strayed isDir (kernel, some (inside kernel d)) names).2.1 = kernel) ↔
      ∀ d' ∈ names, isDir (inside kernel d') = true := by
  induction names generalizing d with
  | nil => simp [strayed, straight]
  | cons d' names ih =>
      obtain ⟨hd', hnodup'⟩ := List.nodup_cons.mp hnodup
      by_cases hthere : isDir (inside kernel d') = true
      · rw [List.forall_mem_cons, ← ih hthere hd' hnodup', strayed, turnBack_of_there hdir hthere,
          straight, List.map_cons, List.cons.injEq, enter_fst _ _ _ none]
        simp [hthere, straight]
      · refine iff_of_false ?_ fun h => hthere (h d' List.mem_cons_self)
        rintro ⟨hplaces, hend⟩
        rw [strayed, turnBack_of_missing hd hthere] at hplaces hend
        cases names with
        | nil => exact inside_ne_self kernel d hend
        | cons d'' names =>
            have hrest := (List.cons.inj hplaces).2
            have hne : d ≠ d'' := fun heq => hnew (by simp [heq])
            exact enter_astray hne (some kernel) (List.cons.inj hrest).1

/-- While `cd -` stays in the kernel, missing directories do no harm. -/
theorem strayed_iff_of_stays {oldpwd : Option Str} (hdir : isDir kernel = true)
    (hold : ∀ p ∈ oldpwd, isDir p = true → p = kernel) (hnodup : names.Nodup) :
    ((strayed isDir (kernel, oldpwd) names).1 = straight isDir kernel names ∧
        (strayed isDir (kernel, oldpwd) names).2.1 = kernel) ↔
      names.Pairwise fun d d' =>
        isDir (inside kernel d) = true → isDir (inside kernel d') = true := by
  induction names generalizing oldpwd with
  | nil => simp [strayed, straight]
  | cons d names ih =>
      obtain ⟨hd, hnodup'⟩ := List.nodup_cons.mp hnodup
      rw [strayed, straight, List.map_cons, List.cons.injEq, enter_fst _ _ oldpwd none, ← straight]
      simp only [true_and]
      by_cases hthere : isDir (inside kernel d) = true
      · rw [turnBack_of_there hdir hthere, strayed_iff_of_entered hdir hthere hd hnodup',
          pairwise_cons_iff_forall hthere]
      · obtain ⟨oldpwd', hback, hold'⟩ : ∃ oldpwd',
            turnBack isDir (enter isDir (kernel, oldpwd) d) = (kernel, oldpwd') ∧
              ∀ p ∈ oldpwd', isDir p = true → p = kernel := by
          cases oldpwd with
          | none => exact ⟨none, by simp [enter, turnBack, hthere], by simp⟩
          | some p =>
              by_cases hp : isDir p = true
              · obtain rfl := hold p rfl hp
                exact ⟨some p, turnBack_of_missing hp hthere, by simp⟩
              · exact ⟨some p, by simp [enter, turnBack, hthere, hp], hold⟩
        rw [hback, ih hold' hnodup', List.pairwise_cons]
        simp [hthere]

/-- From elsewhere the loop comes back only if it is in the directory that is
next, and `cd` does not find that name there. -/
theorem strayed_iff_of_elsewhere {p : Str} (hdir : isDir kernel = true) (hp : isDir p = true)
    (hne : p ≠ kernel) (hnodup : names.Nodup) :
    ((strayed isDir (p, some kernel) names).1 = straight isDir kernel names ∧
        (strayed isDir (p, some kernel) names).2.1 = kernel) ↔
      ∃ d rest, names = d :: rest ∧ p = inside kernel d ∧ isDir (inside p d) = false ∧
        ∀ d' ∈ rest, isDir (inside kernel d') = true := by
  induction names with
  | nil => simp [strayed, hne]
  | cons d names ih =>
      obtain ⟨hd, hnodup'⟩ := List.nodup_cons.mp hnodup
      rw [strayed, straight, List.map_cons, List.cons.injEq, ← straight]
      by_cases hbelow : isDir (inside p d) = true
      · -- The loop would go on from the kernel, and be back in `p` after that.
        refine iff_of_false ?_ ?_
        · have henter : enter isDir (p, some kernel) d = (inside p d, some p) := if_pos hbelow
          rw [henter]
          rintro ⟨⟨hplace, hplaces⟩, hend⟩
          have hkernel : inside p d = kernel := by
            by_cases hthere : isDir (inside kernel d) = true
            · rw [enter, if_pos hthere] at hplace
              exact absurd (List.append_cancel_right hplace) hne
            · rwa [enter, if_neg hthere] at hplace
          have hback : turnBack isDir (inside p d, some p) = (p, some kernel) := by
            simp only [turnBack, hp, if_true, hkernel]
          rw [hback] at hplaces hend
          obtain ⟨d', rest, -, hp', -, -⟩ := (ih hnodup').mp ⟨hplaces, hend⟩
          have hlength := congrArg List.length hkernel
          rw [hp'] at hlength
          simp only [inside, List.length_append, List.length_cons] at hlength
          omega
        · rintro ⟨d', rest, heq, -, hno, -⟩
          obtain ⟨rfl, -⟩ := List.cons.inj heq
          simp [hbelow] at hno
      · have hplace : (enter isDir (p, some kernel) d).1 = (enter isDir (kernel, none) d).1 ↔
            p = inside kernel d := by
          simp only [enter, hbelow]
          by_cases hthere : isDir (inside kernel d) = true
          · simp [hthere]
          · have hother : p ≠ inside kernel d := fun heq => hthere (heq ▸ hp)
            simp [hthere, hne, hother]
        rw [turnBack_of_missing hdir hbelow, hplace]
        constructor
        · rintro ⟨⟨rfl, hplaces⟩, hend⟩
          exact ⟨d, names, rfl, rfl, by simpa using hbelow,
            (strayed_iff_of_entered hdir hp hd hnodup').mp ⟨hplaces, hend⟩⟩
        · rintro ⟨d', rest, heq, rfl, -, hall⟩
          obtain ⟨rfl, rfl⟩ := List.cons.inj heq
          obtain ⟨hplaces, hend⟩ := (strayed_iff_of_entered hdir hp hd hnodup').mpr hall
          exact ⟨⟨rfl, hplaces⟩, hend⟩

/-- Where `cd -` may lead before the first `cd` that succeeds. -/
def Returns (isDir : Str → Bool) (kernel : Str) (oldpwd : Option Str) (names : List String) :
    Prop :=
  ∀ p ∈ oldpwd, isDir p = true → p = kernel ∨ ∃ d d' rest, names = d :: d' :: rest ∧
    p = inside kernel d' ∧ isDir (inside p d') = false

theorem strayed_iff (oldpwd : Option Str) (hdir : isDir kernel = true) (hnodup : names.Nodup) :
    ((strayed isDir (kernel, oldpwd) names).1 = straight isDir kernel names ∧
        (strayed isDir (kernel, oldpwd) names).2.1 = kernel) ↔
      names.Pairwise (fun d d' =>
        isDir (inside kernel d) = true → isDir (inside kernel d') = true) ∧
      ((∃ d ∈ names, isDir (inside kernel d) = false) → Returns isDir kernel oldpwd names) := by
  by_cases hold : ∀ p ∈ oldpwd, isDir p = true → p = kernel
  · rw [strayed_iff_of_stays hdir hold hnodup]
    exact (and_iff_left fun _ p hp hthere => Or.inl (hold p hp hthere)).symm
  · push Not at hold
    obtain ⟨p, hpwd, hp, hne⟩ := hold
    obtain rfl : oldpwd = some p := hpwd
    cases names with
    | nil => simp [strayed, straight]
    | cons d names =>
        obtain ⟨hd, hnodup'⟩ := List.nodup_cons.mp hnodup
        rw [strayed, straight, List.map_cons, List.cons.injEq, enter_fst _ _ (some p) none,
          ← straight]
        simp only [true_and]
        by_cases hthere : isDir (inside kernel d) = true
        · rw [turnBack_of_there hdir hthere, strayed_iff_of_entered hdir hthere hd hnodup',
            pairwise_cons_iff_forall hthere, iff_self_and]
          rintro hall ⟨d', hd', hno⟩
          rcases List.mem_cons.mp hd' with rfl | hd'
          · simp [hthere] at hno
          · simp [hall d' hd'] at hno
        · have hmissing : ∃ d' ∈ d :: names, isDir (inside kernel d') = false :=
            ⟨d, List.mem_cons_self, by simpa using hthere⟩
          rw [turnBack_of_missing hp hthere, strayed_iff_of_elsewhere hdir hp hne hnodup',
            List.pairwise_cons]
          constructor
          · rintro ⟨d', rest, rfl, rfl, hno, hall⟩
            refine ⟨⟨fun _ _ h => absurd h hthere, (pairwise_cons_iff_forall hp).mpr hall⟩,
              fun _ q hq _ => ?_⟩
            obtain rfl : inside kernel d' = q := Option.some.inj hq
            exact Or.inr ⟨d, d', rest, rfl, rfl, hno⟩
          · rintro ⟨⟨-, hpairs⟩, hreturns⟩
            obtain ⟨e, d', rest, heq, rfl, hno⟩ :=
              (hreturns hmissing p rfl hp).resolve_left hne
            obtain ⟨rfl, rfl⟩ := List.cons.inj heq
            exact ⟨d', rest, rfl, rfl, hno, (pairwise_cons_iff_forall hp).mp hpairs⟩

end Strayed

/-- The loop of onlyinsert.sh does as the loop of checkKernel.sh does, in the same
directories and back in the kernel, exactly when no directory is missing that
comes after one that is there, and where one is missing `cd -` goes nowhere
before the first that is there: OLDPWD is no directory, or the kernel, or else
the second of the list is there and the shell comes from it. -/
theorem comes_back_iff {names : List String} {s t t' : PartShell} (hnodup : names.Nodup)
    (hword : OneWord s.check.kernel) (hdir : s.check.tree.isDir s.check.kernel = true)
    (hcwd : s.check.cwd = s.check.kernel)
    (h : Execs DirsKept (names.flatMap insertThere) s t)
    (h' : Execs DirsKept ((names.flatMap insertInto).map .own) s t') :
    (t.check.places = t'.check.places ∧ t.check.cwd = t'.check.cwd) ↔
      names.Pairwise (fun d d' => s.check.tree.isDir (inside s.check.kernel d) = true →
        s.check.tree.isDir (inside s.check.kernel d') = true) ∧
      ((∃ d ∈ names, s.check.tree.isDir (inside s.check.kernel d) = false) →
        Returns s.check.tree.isDir s.check.kernel s.oldpwd names) := by
  have hthere := h.loop_there
  obtain ⟨hend, hplaces⟩ := h'.loop_here hword hdir hcwd
  have hplace : s.place = (s.check.kernel, s.oldpwd) := by rw [PartShell.place, hcwd]
  have hstop : t.check.cwd = _ := congrArg Prod.fst hthere.place
  rw [← strayed_iff s.oldpwd hdir hnodup, hthere.places, hplaces, hend, hstop, hplace,
    List.append_cancel_left_eq]

theorem Execs.of_untouched {l : List PartCommand}
    (hl : ∀ c ∈ l, c ∉ [.own .testReadme, .own .testRelease, .own .testInserted]) (s : PartShell) :
    Execs DirsKept l s (PartShell.runs l.length l s) := by
  induction l generalizing s with
  | nil => exact .nil s
  | cons c l ih =>
      obtain ⟨hc, hl⟩ := List.forall_mem_cons.mp hl
      have hrest := ih hl (s.exec ∅ s.untouched c)
      change Execs DirsKept (c :: l) s
        (PartShell.runs l.length (s.leaves l c) (s.exec ∅ s.untouched c))
      rw [PartShell.leaves_of_straight hc]
      exact .cons ∅ s.untouched (fun _ _ _ => rfl) (by rwa [PartShell.leaves_of_straight hc])

/-- Without net/core, kernel/events is looked for in net/ipv4. -/
def ipv4Kernel : FileTree Contents where
  entries := [("/k".toList, .dir), ("/k/net".toList, .dir), ("/k/net/ipv4".toList, .dir),
    ("/k/kernel".toList, .dir), ("/k/kernel/events".toList, .dir)]
  nodup := by decide +kernel

theorem comes_back_iff_ipv4Kernel :
    let s := ({ kernel := "/k".toList, tree := ipv4Kernel, cwd := "/k".toList } : Check).begin
      (some "/k/net".toList)
    ((PartShell.runs 12 (toInsert.flatMap insertThere) s).check.places =
          (PartShell.runs 12 ((toInsert.flatMap insertInto).map .own) s).check.places ∧
        (PartShell.runs 12 (toInsert.flatMap insertThere) s).check.cwd =
          (PartShell.runs 12 ((toInsert.flatMap insertInto).map .own) s).check.cwd) ↔
      toInsert.Pairwise (fun d d' => ipv4Kernel.isDir (inside "/k".toList d) = true →
        ipv4Kernel.isDir (inside "/k".toList d') = true) ∧
      ((∃ d ∈ toInsert, ipv4Kernel.isDir (inside "/k".toList d) = false) →
        Returns ipv4Kernel.isDir "/k".toList (some "/k/net".toList) toInsert) := by
  intro s
  exact comes_back_iff (s := s) (by decide) oneWord_smallKernel (by decide +kernel) rfl
    (Execs.of_untouched (by decide) s) (Execs.of_untouched (by decide) s)

end AutoTestKernel.CheckKernel
