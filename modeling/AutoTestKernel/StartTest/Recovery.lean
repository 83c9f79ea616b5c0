import AutoTestKernel.StartTest.Tidy

/-!
# Recovery from killed sessions

The names of the files are all that a killed session leaves behind.  Over any
sequence of killed sessions the tree stays the first one up to its marks, every
test either has been launched or is still to be found, and a mark is in the way
of a launch until the second loop undoes it.
-/

namespace AutoTestKernel.StartTest

open Text Fs Runs

variable {α : Type*}

/-- A tree to which sessions can come back: one entry, a file, for the test of
a directory, and pathnames without surprises. -/
structure Recoverable (T : FileTree α) : Prop where
  apart : ∀ d, testPath d ∈ T.keys → donePath d ∉ T.keys
  files : ∀ e ∈ T.entries,
    hasName testName e.1 = true ∨ hasName doneName e.1 = true → e.2.isFile = true
  quiet : ∀ p ∈ T.keys, Quiet p

theorem Recoverable.tidy {T : FileTree α} (h : Recoverable T) : Tidy T := by
  apply Tidy.of_apart
  · intro d hd
    exact hd.elim (fun htest => (h.quiet _ htest).of_join.safeDirectory)
      fun hdone => (h.quiet _ hdone).of_join.safeDirectory
  · exact fun d n hn => h.files (donePath d, n) hn (Or.inr (hasName_doneName_donePath d))
  · exact h.apart

def Unmarked (p : Str) (log : List (Event α)) : Prop :=
  ∀ newer older, log = newer ++ .marked [p, p ++ done] :: older →
    .reset [p ++ done, p] ∈ newer

def LaunchUnmarked : Event α → List (Event α) → Prop
  | .launched p _, older => Unmarked p older
  | _, _ => True

theorem unmarked_cons {p : Str} {e : Event α} {log : List (Event α)}
    (hmark : e ≠ .marked [p, p ++ done]) (h : e = .reset [p ++ done, p] ∨ Unmarked p log) :
    Unmarked p (e :: log) := by
  intro newer older heq
  rcases List.cons_eq_append_iff.mp heq with ⟨rfl, hhead⟩ | ⟨newer', rfl, hlog⟩
  · exact absurd (List.cons.inj hhead).1.symm hmark
  · rcases h with rfl | h
    · exact List.mem_cons_self
    · exact List.mem_cons_of_mem _ (h newer' older hlog)

structure Recovering (T : FileTree α) (s : Session α) : Prop where
  coherent : s.Coherent
  same : s.tree.entries.map (fun e => (unmark e.1, e.2)) =
    T.entries.map fun e => (unmark e.1, e.2)
  launched : ∀ p ∈ T.find testName, (∃ c, .launched p c ∈ s.log) ∨
    (s.pc.firstLoop = true ∧ p ∈ s.tree.find testName)
  unmarked : ∀ p ∈ s.tree.find testName, Unmarked p s.log
  lawful : Lawful LaunchUnmarked s.log

namespace Recovering

variable {T : FileTree α} {more : Str → Option (TextFile → TextFile)} {s t : Session α}

theorem start (hT : Tidy T) (config : TextFile) : Recovering T { tree := T, config } where
  coherent := Session.coherent_start hT config
  same := rfl
  launched _ hp := Or.inr ⟨rfl, hp⟩
  unmarked _ _ newer older heq := by simp at heq
  lawful := trivial

theorem restart (h : Recovering T s) : Recovering T s.restart where
  coherent := h.coherent.restart
  same := h.same
  launched p hp := (h.launched p hp).imp_right fun hfind => ⟨rfl, hfind.2⟩
  unmarked := h.unmarked
  lawful := h.lawful

theorem same_next (h : Recovering T s) (hnext : s.Next more t) :
    t.tree.entries.map (fun e => (unmark e.1, e.2)) =
      T.entries.map fun e => (unmark e.1, e.2) := by
  have htidy := h.coherent.tidy
  cases h.coherent.move hnext with
  | idle _ htree _ => exact htree ▸ h.same
  | launch _ _ htree _ => exact htree ▸ h.same
  | mark _ d c _ hmem htree _ =>
      rw [htree, htidy.unmarked_moveFile .mark (FileTree.mem_keys_iff.mpr ⟨_, hmem⟩), h.same]
  | reset _ d c _ hmem htree _ =>
      rw [htree, htidy.unmarked_moveFile .reset (FileTree.mem_keys_iff.mpr ⟨_, hmem⟩), h.same]

theorem launched_next (h : Recovering T s) (hnext : s.Next more t) (p : Str)
    (hp : p ∈ T.find testName) : (∃ c, .launched p c ∈ t.log) ∨
      (t.pc.firstLoop = true ∧ p ∈ t.tree.find testName) := by
  have hmono : (∃ c, .launched p c ∈ s.log) → ∃ c, .launched p c ∈ t.log :=
    fun ⟨c, hc⟩ => ⟨c, (h.coherent.move hnext).mem_log hc⟩
  have hloop : s.pc.firstLoop = true → p ∈ s.tree.find testName → t.pc.firstLoop = true :=
    fun hs hfind => (h.coherent.firstLoop_next hnext hs).resolve_right
      (List.ne_nil_of_mem hfind)
  have hold := h.launched p hp
  cases h.coherent.move hnext with
  | idle _ htree hlog =>
      refine hold.imp hmono fun hfind => ?_
      exact ⟨hloop hfind.1 hfind.2, htree ▸ hfind.2⟩
  | launch _ _ htree hlog =>
      refine hold.imp hmono fun hfind => ?_
      exact ⟨hloop hfind.1 hfind.2, htree ▸ hfind.2⟩
  | mark hpc d c hnow hmem htree hlog =>
      rcases hold with hold | ⟨hs, hfind⟩
      · exact Or.inl (hmono hold)
      · rcases List.mem_cons.mp ((h.coherent.tidy.find_mark hmem).1.mem_iff.mp hfind) with
          rfl | hrest
        · obtain ⟨config, older, hlaunched⟩ := h.coherent.launched (by rw [hpc]; rfl)
          exact Or.inl (hmono ⟨config, by simp [hlaunched, hnow]⟩)
        · exact Or.inr ⟨hloop hs hfind, htree ▸ hrest⟩
  | reset hpc d c hnow hmem htree hlog =>
      refine Or.inl (hmono (hold.resolve_right fun hfind => ?_))
      simp [hpc, Pc.firstLoop] at hfind

theorem unmarked_next (h : Recovering T s) (hnext : s.Next more t) (p : Str)
    (hp : p ∈ t.tree.find testName) : Unmarked p t.log := by
  cases h.coherent.move hnext with
  | idle _ htree hlog => exact hlog ▸ h.unmarked p (htree ▸ hp)
  | launch _ _ htree hlog =>
      rw [hlog]
      exact unmarked_cons (by simp) (Or.inr (h.unmarked p (htree ▸ hp)))
  | mark _ d c _ hmem htree hlog =>
      have hperm := (h.coherent.tidy.find_mark hmem).1
      have hnodup := hperm.nodup_iff.mp (s.tree.find_nodup testName)
      rw [htree] at hp
      have hne : p ≠ testPath d := fun heq => (List.nodup_cons.mp hnodup).1 (heq ▸ hp)
      have hold : p ∈ s.tree.find testName := hperm.mem_iff.mpr (List.mem_cons_of_mem _ hp)
      rw [hlog]
      exact unmarked_cons (by simp [hne.symm]) (Or.inr (h.unmarked p hold))
  | reset _ d c _ hmem htree hlog =>
      rw [htree, (h.coherent.tidy.find_reset hmem).2.mem_iff, List.mem_cons] at hp
      rw [hlog]
      refine unmarked_cons (by simp) (hp.imp (fun heq => ?_) (h.unmarked p))
      rw [heq, testPath_done]

theorem lawful_next (h : Recovering T s) (hnext : s.Next more t) :
    Lawful LaunchUnmarked t.log := by
  cases h.coherent.move hnext with
  | idle _ _ hlog => exact hlog ▸ h.lawful
  | launch _ hnow _ hlog => exact hlog ▸ ⟨h.unmarked _ hnow, h.lawful⟩
  | mark _ _ _ _ _ _ hlog => exact hlog ▸ ⟨trivial, h.lawful⟩
  | reset _ _ _ _ _ _ hlog => exact hlog ▸ ⟨trivial, h.lawful⟩

theorem next (h : Recovering T s) (hnext : s.Next more t) : Recovering T t :=
  ⟨h.coherent.next hnext, h.same_next hnext, h.launched_next hnext, h.unmarked_next hnext,
    h.lawful_next hnext⟩

theorem nextOrKill (h : Recovering T s) (hstep : s.NextOrKill more t) : Recovering T t := by
  rcases hstep with hnext | ⟨-, rfl⟩
  · exact h.next hnext
  · exact h.restart

end Recovering

def smallTree : FileTree ℕ where
  entries :=
    [("/k/../tests".toList, .dir), ("/k/../tests/a".toList, .dir),
      ("/k/../tests/a/test".toList, .file 1), ("/k/../tests/b".toList, .dir),
      ("/k/../tests/b/testdone".toList, .file 2)]
  nodup := by decide +kernel

end AutoTestKernel.StartTest
