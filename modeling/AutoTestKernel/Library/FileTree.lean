import AutoTestKernel.Library.Text
import Mathlib.Data.List.DropRight
import Mathlib.Data.List.Nodup
import Mathlib.Tactic.Tauto

/-!
# A tree of files

A tree is the list of its entries, the full pathname of every file and
directory with what is found there; no pathname occurs twice.  The contents of
a regular file are of an arbitrary type.  The operations are the ones `find`,
`mv` and a writer of files perform.
-/

namespace AutoTestKernel.Fs

inductive Node (α : Type*)
  | dir
  | file (contents : α)
  deriving DecidableEq

def Node.isFile {α : Type*} : Node α → Bool
  | .dir => false
  | .file _ => true

@[ext] structure FileTree (α : Type*) where
  entries : List (Str × Node α)
  nodup : (entries.map Prod.fst).Nodup

def hasName (n p : Str) : Bool := decide ('/' :: n <:+ p)

theorem hasName_iff {n p : Str} : hasName n p = true ↔ ∃ d, p = d ++ '/' :: n := by
  simp [hasName, List.suffix_iff_exists_eq_append]

theorem hasName_append {n d rest : Str} (hn : '/' ∉ n) :
    hasName n (d ++ '/' :: rest) = hasName n ('/' :: rest) := by
  have hiff : '/' :: n <:+ d ++ '/' :: rest ↔ '/' :: n <:+ '/' :: rest := by
    constructor
    · intro h
      rcases List.suffix_or_suffix_of_suffix h (List.suffix_append d ('/' :: rest)) with h | h
      · exact h
      · rcases List.suffix_cons_iff.mp h with heq | h
        · rw [heq]
        · exact absurd (h.subset List.mem_cons_self) hn
    · exact fun h => h.trans (List.suffix_append d ('/' :: rest))
  simp [hasName, hiff]

def dirName (p : Str) : Str := (p.rdropWhile (· ≠ '/')).dropLast

def baseName (p : Str) : Str := p.rtakeWhile (· ≠ '/')

theorem dirName_join {d n : Str} (h : '/' ∉ n) : dirName (d ++ '/' :: n) = d := by
  rw [dirName, Text.rdropWhile_append_cons h, List.dropLast_concat]

theorem baseName_join {d n : Str} (h : '/' ∉ n) : baseName (d ++ '/' :: n) = n :=
  Text.rtakeWhile_append_cons h d

namespace FileTree

variable {α : Type*}

def keys (t : FileTree α) : List Str := t.entries.map Prod.fst

def get? (t : FileTree α) (p : Str) : Option (Node α) := t.entries.lookup p

def isDir (t : FileTree α) (p : Str) : Bool :=
  match t.get? p with
  | some .dir => true
  | _ => false

/-- `find -type f -name n`, in the order of the entries. -/
def find (t : FileTree α) (n : Str) : List Str :=
  (t.entries.filter fun e => e.2.isFile && hasName n e.1).map Prod.fst

/-! ## Renaming -/

def relabel (src dst k : Str) : Str := if k = src then dst else k

/-- The pathname `k` after its ancestor or itself `src` has become `dst`. -/
def relocate (src dst k : Str) : Str :=
  if k = src then dst
  else if src ++ ['/'] <+: k then dst ++ k.drop src.length
  else k

theorem relabel_inj_of_ne {src dst : Str} {k k' : Str} (hk : k ≠ dst) (hk' : k' ≠ dst)
    (h : relabel src dst k = relabel src dst k') : k = k' := by
  unfold relabel at h
  split at h <;> split at h
  · next h₁ h₂ => exact h₁.trans h₂.symm
  · exact absurd h.symm hk'
  · exact absurd h hk
  · exact h

def moveFile (t : FileTree α) (src dst : Str) : FileTree α where
  entries := (t.entries.filter fun e => e.1 ≠ dst).map fun e => (relabel src dst e.1, e.2)
  nodup := by
    have hkeys : ((t.entries.filter fun e => e.1 ≠ dst).map Prod.fst).Nodup :=
      t.nodup.sublist (List.filter_sublist.map _)
    have hne : ∀ k ∈ (t.entries.filter fun e => e.1 ≠ dst).map Prod.fst, k ≠ dst := by
      intro k hk
      obtain ⟨e, he, rfl⟩ := List.mem_map.mp hk
      simpa using (List.mem_filter.mp he).2
    have hmap : (((t.entries.filter fun e => e.1 ≠ dst).map Prod.fst).map
        (relabel src dst)).Nodup :=
      hkeys.map_on fun k hk k' hk' h => relabel_inj_of_ne (hne k hk) (hne k' hk') h
    simpa only [List.map_map, Function.comp_def] using hmap

/-- A new name needs a directory to be in, one of the tree or the one that the
old name is in. -/
def hasPlace (t : FileTree α) (src dst : Str) : Bool :=
  dirName dst = dirName src || t.isDir (dirName dst)

/-- `rename(2)`: a file replaces a file, a directory replaces nothing or an
empty directory, and takes what is below it along.  Anything else fails. -/
def rename (t : FileTree α) (src dst : Str) : FileTree α :=
  match t.get? src with
  | none => t
  | some (.file _) =>
      if src = dst ∨ t.isDir dst = true ∨ t.hasPlace src dst = false then t
      else t.moveFile src dst
  | some .dir =>
      let es := (t.entries.filter fun e => e.1 ≠ dst).map fun e =>
        (relocate src dst e.1, e.2)
      if h : (src ≠ dst ∧ ¬ src ++ ['/'] <+: dst ∧ t.hasPlace src dst = true) ∧
          (t.get? dst = none ∨ t.isDir dst = true) ∧
          (∀ k ∈ t.keys, ¬ dst ++ ['/'] <+: k) ∧ (es.map Prod.fst).Nodup then
        ⟨es, h.2.2.2⟩
      else t

/-- `mv` into a directory, one source after the other.  A file does not take the
name that an earlier source has got. -/
def moveInto (dst : Str) : List Str → FileTree α → List Str → FileTree α
  | _, t, [] => t
  | made, t, src :: srcs =>
      let new := dst ++ '/' :: baseName src
      if new ∈ made ∧ (t.get? src).any Node.isFile = true then moveInto dst made t srcs
      else
        let moved := t.rename src new
        let made := if src ∈ t.keys ∧ src ∉ moved.keys then new :: made else made
        moveInto dst made moved srcs

/-- `mv`: into the last argument when that is a directory, onto it when there
is one source; several sources need a directory. -/
def mv (t : FileTree α) (args : List Str) : FileTree α :=
  match args.reverse with
  | dst :: srcs =>
      if t.isDir dst then moveInto dst [] t srcs.reverse
      else
        match srcs with
        | [src] => t.rename src dst
        | _ => t
  | [] => t

def write (t : FileTree α) (p : Str) (contents : α) : FileTree α where
  entries := (t.entries.filter fun e => e.1 ≠ p) ++ [(p, .file contents)]
  nodup := by
    have hkeys : ((t.entries.filter fun e => e.1 ≠ p).map Prod.fst).Nodup :=
      t.nodup.sublist (List.filter_sublist.map _)
    rw [List.map_append, List.nodup_append]
    refine ⟨hkeys, by simp, ?_⟩
    intro k hk k' hk'
    obtain ⟨e, he, rfl⟩ := List.mem_map.mp hk
    have hne : e.1 ≠ p := by simpa using (List.mem_filter.mp he).2
    simpa [List.mem_singleton.mp hk'] using hne

/-- `command > p`: the directory has to be there, and `p` must not be one. -/
def put (t : FileTree α) (p : Str) (contents : α) : FileTree α :=
  if t.isDir (dirName p) = true ∧ t.isDir p = false then t.write p contents else t

def mkdir (t : FileTree α) (p : Str) : FileTree α :=
  if h : p ∉ t.keys ∧ t.isDir (dirName p) = true then
    { entries := t.entries ++ [(p, .dir)]
      nodup := by
        have hfresh : p ∉ t.entries.map Prod.fst := h.1
        simpa using List.Nodup.concat hfresh t.nodup }
  else t

/-- `find d -name n`, of any type. -/
def below (t : FileTree α) (d n : Str) : List Str :=
  t.keys.filter fun k => decide (d ++ ['/'] <+: k) && hasName n k

/-! ## Looking up -/

variable {t : FileTree α} {p src dst : Str} {n n' : Node α}

theorem get?_eq_some_iff : t.get? p = some n ↔ (p, n) ∈ t.entries := by
  rw [get?, List.lookup_eq_some_iff]
  constructor
  · rintro ⟨pre, post, h, -⟩
    simp [h]
  · intro h
    obtain ⟨pre, post, heq⟩ := List.append_of_mem h
    refine ⟨pre, post, heq, fun e he => ?_⟩
    have hnodup := t.nodup
    rw [heq, List.map_append, List.map_cons, List.nodup_append] at hnodup
    simpa using (hnodup.2.2 e.1 (List.mem_map_of_mem he) p List.mem_cons_self).symm

theorem mem_keys_iff : p ∈ t.keys ↔ ∃ n, (p, n) ∈ t.entries := by
  simp [keys]

theorem entry_unique (h : (p, n) ∈ t.entries) (h' : (p, n') ∈ t.entries) : n = n' :=
  Option.some.inj ((get?_eq_some_iff.mpr h).symm.trans (get?_eq_some_iff.mpr h'))

theorem isDir_iff : t.isDir p = true ↔ (p, .dir) ∈ t.entries := by
  rw [← get?_eq_some_iff, isDir]
  cases t.get? p with
  | none => simp
  | some n => cases n <;> simp

theorem mem_find {name : Str} :
    p ∈ t.find name ↔ (∃ c, (p, .file c) ∈ t.entries) ∧ hasName name p = true := by
  constructor
  · intro h
    obtain ⟨⟨k, n⟩, he, rfl⟩ := List.mem_map.mp h
    obtain ⟨hmem, hsel⟩ := List.mem_filter.mp he
    cases n with
    | dir => simp [Node.isFile] at hsel
    | file c => exact ⟨⟨c, hmem⟩, by simpa [Node.isFile] using hsel⟩
  · rintro ⟨⟨c, hmem⟩, hname⟩
    exact List.mem_map.mpr
      ⟨(p, .file c), List.mem_filter.mpr ⟨hmem, by simp [Node.isFile, hname]⟩, rfl⟩

theorem find_nodup (t : FileTree α) (name : Str) : (t.find name).Nodup :=
  t.nodup.sublist (List.filter_sublist.map _)

theorem mem_keys_of_mem_find {name : Str} (h : p ∈ t.find name) : p ∈ t.keys :=
  mem_keys_iff.mpr ((mem_find.mp h).1.elim fun _ hc => ⟨_, hc⟩)

/-! ## Effects -/

theorem mem_moveFile (hne : src ≠ dst) :
    (p, n) ∈ (t.moveFile src dst).entries ↔
      (p = dst ∧ (src, n) ∈ t.entries) ∨ (p ≠ dst ∧ p ≠ src ∧ (p, n) ∈ t.entries) := by
  simp only [moveFile, List.mem_map, List.mem_filter]
  constructor
  · rintro ⟨⟨k, m⟩, ⟨hmem, hk⟩, heq⟩
    have hk' : k ≠ dst := by simpa using hk
    obtain ⟨hp, rfl⟩ := Prod.mk.inj heq
    rw [relabel] at hp
    split at hp
    · next h => exact Or.inl ⟨hp.symm, h ▸ hmem⟩
    · next h => exact Or.inr ⟨hp ▸ hk', hp ▸ h, hp ▸ hmem⟩
  · rintro (⟨rfl, hmem⟩ | ⟨hdst, hsrc, hmem⟩)
    · exact ⟨(src, n), ⟨hmem, by simpa using hne⟩, by simp [relabel]⟩
    · exact ⟨(p, n), ⟨hmem, by simpa using hdst⟩, by simp [relabel, hsrc]⟩

theorem mem_keys_moveFile (hne : src ≠ dst) (hsrc : src ∈ t.keys) :
    p ∈ (t.moveFile src dst).keys ↔ p = dst ∨ (p ≠ src ∧ p ∈ t.keys) := by
  obtain ⟨n, hn⟩ := mem_keys_iff.mp hsrc
  simp only [mem_keys_iff, mem_moveFile hne]
  constructor
  · rintro ⟨m, ⟨rfl, -⟩ | ⟨-, hpsrc, hm⟩⟩
    · exact Or.inl rfl
    · exact Or.inr ⟨hpsrc, m, hm⟩
  · rintro (rfl | ⟨hpsrc, m, hm⟩)
    · exact ⟨n, Or.inl ⟨rfl, hn⟩⟩
    · by_cases hpdst : p = dst
      · exact ⟨n, Or.inl ⟨hpdst, hn⟩⟩
      · exact ⟨m, Or.inr ⟨hpdst, hpsrc, hm⟩⟩

theorem moveFile_entries (h : dst ∉ t.keys) :
    (t.moveFile src dst).entries = t.entries.map fun e => (relabel src dst e.1, e.2) := by
  have hfilter : t.entries.filter (fun e => e.1 ≠ dst) = t.entries :=
    List.filter_eq_self.mpr fun e he => by
      have hne : e.1 ≠ dst := fun heq => h (heq ▸ List.mem_map_of_mem he)
      simpa using hne
  exact congrArg (List.map fun e => (relabel src dst e.1, e.2)) hfilter

theorem mem_find_moveFile {name : Str} (hne : src ≠ dst) :
    p ∈ (t.moveFile src dst).find name ↔
      hasName name p = true ∧ ((p = dst ∧ ∃ c, (src, .file c) ∈ t.entries) ∨
        (p ≠ dst ∧ p ≠ src ∧ ∃ c, (p, .file c) ∈ t.entries)) := by
  simp only [mem_find, mem_moveFile hne, exists_or, exists_and_left]
  tauto

theorem find_perm_of_moveFile_src {name : Str} (hsrc : src ∈ t.find name)
    (hdst : dst ∉ t.keys) (hname : hasName name dst = false) :
    (t.find name).Perm (src :: (t.moveFile src dst).find name) := by
  have hne : src ≠ dst := fun heq => hdst (heq ▸ mem_keys_of_mem_find hsrc)
  have hgone : src ∉ (t.moveFile src dst).find name := by
    simp [mem_find_moveFile hne, hne]
  rw [List.perm_ext_iff_of_nodup (t.find_nodup name) (List.nodup_cons.mpr ⟨hgone, find_nodup _ _⟩)]
  intro p
  rw [List.mem_cons, mem_find_moveFile hne]
  constructor
  · intro hp
    by_cases hps : p = src
    · exact Or.inl hps
    · have hpd : p ≠ dst := fun heq => hdst (heq ▸ mem_keys_of_mem_find hp)
      exact Or.inr ⟨(mem_find.mp hp).2, Or.inr ⟨hpd, hps, (mem_find.mp hp).1⟩⟩
  · rintro (rfl | ⟨hp, ⟨rfl, -⟩ | ⟨-, -, hmem⟩⟩)
    · exact hsrc
    · exact absurd (hname.symm.trans hp) (by decide)
    · exact mem_find.mpr ⟨hmem, hp⟩

theorem find_perm_of_moveFile_dst {name : Str} {c : α} (hsrc : (src, .file c) ∈ t.entries)
    (hdst : dst ∉ t.keys) (hname : hasName name src = false)
    (hname' : hasName name dst = true) :
    ((t.moveFile src dst).find name).Perm (dst :: t.find name) := by
  have hne : src ≠ dst := fun heq => hdst (heq ▸ mem_keys_iff.mpr ⟨_, hsrc⟩)
  have hnew : dst ∉ t.find name := fun h => hdst (mem_keys_of_mem_find h)
  rw [List.perm_ext_iff_of_nodup (find_nodup _ _) (List.nodup_cons.mpr ⟨hnew, t.find_nodup name⟩)]
  intro p
  rw [List.mem_cons, mem_find_moveFile hne]
  constructor
  · rintro ⟨hp, ⟨rfl, -⟩ | ⟨-, -, hmem⟩⟩
    · exact Or.inl rfl
    · exact Or.inr (mem_find.mpr ⟨hmem, hp⟩)
  · rintro (rfl | hp)
    · exact ⟨hname', Or.inl ⟨rfl, c, hsrc⟩⟩
    · obtain ⟨hmem, hpname⟩ := mem_find.mp hp
      have hpd : p ≠ dst := fun heq => hnew (heq ▸ hp)
      have hps : p ≠ src := fun heq => absurd (hname.symm.trans (heq ▸ hpname)) (by decide)
      exact ⟨hpname, Or.inr ⟨hpd, hps, hmem⟩⟩

theorem mv_file {c : α} (hsrc : (src, .file c) ∈ t.entries) (hne : src ≠ dst)
    (hdir : dirName dst = dirName src) (hdst : t.isDir dst = false) :
    t.mv [src, dst] = t.moveFile src dst := by
  have hget : t.get? src = some (.file c) := get?_eq_some_iff.mpr hsrc
  have hplace : t.hasPlace src dst = true := by simp [hasPlace, hdir]
  simp [mv, rename, hdst, hget, hne, hplace]

theorem moveInto_singleton (t : FileTree α) (src dst : Str) :
    moveInto dst [] t [src] = t.rename src (dst ++ '/' :: baseName src) := by
  simp [moveInto]

theorem mv_singleton (t : FileTree α) (dst : Str) : t.mv [dst] = t := by
  simp [mv, moveInto]

/-- `mv` fails when its source is not there, into a directory as well. -/
theorem mv_of_notMem (h : src ∉ t.keys) : t.mv [src, dst] = t := by
  have hget : t.get? src = none := by
    refine Option.eq_none_iff_forall_not_mem.mpr fun n hn => h ?_
    exact mem_keys_iff.mpr ⟨n, get?_eq_some_iff.mp hn⟩
  simp [mv, moveInto, rename, hget]

theorem mem_keys_mv_file {c : α} (hsrc : (src, .file c) ∈ t.entries)
    (h : p ∈ (t.mv [src, dst]).keys) :
    p ∈ t.keys ∨ p = dst ∨ p = dst ++ '/' :: baseName src := by
  have hrename : ∀ dst', p ∈ (t.rename src dst').keys → p ∈ t.keys ∨ p = dst' := by
    intro dst' hp
    rw [rename, get?_eq_some_iff.mpr hsrc] at hp
    dsimp only at hp
    split at hp
    · exact Or.inl hp
    · next hmove =>
        obtain ⟨n, hn⟩ := mem_keys_iff.mp hp
        have hne : src ≠ dst' := fun heq => hmove (Or.inl heq)
        rcases (mem_moveFile hne).mp hn with ⟨heq, -⟩ | ⟨-, -, hold⟩
        · exact Or.inr heq
        · exact Or.inl (mem_keys_iff.mpr ⟨n, hold⟩)
  by_cases hdir : t.isDir dst = true
  · simp only [mv, List.reverse_cons, List.reverse_nil, List.nil_append, List.singleton_append,
      hdir, if_true, moveInto_singleton] at h
    exact (hrename _ h).imp_right Or.inr
  · simp only [mv, List.reverse_cons, List.reverse_nil, List.nil_append, List.singleton_append,
      if_neg hdir] at h
    exact (hrename _ h).imp_right Or.inl

theorem mem_write {c : α} {q : Str} :
    (q, n) ∈ (t.write p c).entries ↔
      (q = p ∧ n = .file c) ∨ (q ≠ p ∧ (q, n) ∈ t.entries) := by
  simp only [write, List.mem_append, List.mem_filter, List.mem_singleton, Prod.mk.injEq]
  simp only [ne_eq, decide_not, Bool.not_eq_eq_eq_not, Bool.not_true, decide_eq_false_iff_not]
  tauto

theorem mem_keys_write {c : α} {q : Str} :
    q ∈ (t.write p c).keys ↔ q = p ∨ q ∈ t.keys := by
  simp only [mem_keys_iff, mem_write]
  constructor
  · rintro ⟨n, ⟨rfl, -⟩ | ⟨-, hn⟩⟩
    · exact Or.inl rfl
    · exact Or.inr ⟨n, hn⟩
  · rintro (rfl | ⟨n, hn⟩)
    · exact ⟨_, Or.inl ⟨rfl, rfl⟩⟩
    · by_cases hqp : q = p
      · exact ⟨_, Or.inl ⟨hqp, rfl⟩⟩
      · exact ⟨n, Or.inr ⟨hqp, hn⟩⟩

theorem mem_find_write {c : α} {name q : Str} (h : q ∈ t.find name) :
    q ∈ (t.write p c).find name := by
  obtain ⟨⟨c', hmem⟩, hname⟩ := mem_find.mp h
  refine mem_find.mpr ⟨?_, hname⟩
  by_cases hqp : q = p
  · exact ⟨c, mem_write.mpr (Or.inl ⟨hqp, rfl⟩)⟩
  · exact ⟨c', mem_write.mpr (Or.inr ⟨hqp, hmem⟩)⟩

theorem find_write_of_name {c : α} {name : Str} (h : hasName name p = false) :
    (t.write p c).find name = t.find name := by
  have hold : (t.entries.filter fun e => e.1 ≠ p).filter
      (fun e => e.2.isFile && hasName name e.1) =
        t.entries.filter fun e => e.2.isFile && hasName name e.1 := by
    rw [List.filter_filter]
    refine List.filter_congr fun e _ => ?_
    by_cases hep : e.1 = p
    · simp [hep, h]
    · simp [hep]
  have hnew : [(p, Node.file c)].filter (fun e => e.2.isFile && hasName name e.1) = [] := by
    simp [h]
  rw [find, write, List.filter_append, hold, hnew, List.append_nil, find]

theorem mem_below {d name : Str} :
    p ∈ t.below d name ↔ p ∈ t.keys ∧ d ++ ['/'] <+: p ∧ hasName name p = true := by
  simp [below]

theorem mem_keys_put {c : α} {q : Str} (h : q ∈ (t.put p c).keys) : q = p ∨ q ∈ t.keys := by
  unfold put at h
  split at h
  · exact mem_keys_write.mp h
  · exact Or.inr h

/-- The same contents written to several places. -/
def putAll (t : FileTree α) (ps : List Str) (contents : α) : FileTree α :=
  ps.foldl (fun t p => t.put p contents) t

theorem mem_keys_put_self {c : α} (h : t.isDir (dirName p) = true) : p ∈ (t.put p c).keys := by
  by_cases hdir : t.isDir p = true
  · rw [put, if_neg fun hp => by simp [hp.2] at hdir]
    exact mem_keys_iff.mpr ⟨_, isDir_iff.mp hdir⟩
  · rw [put, if_pos ⟨h, by simpa using hdir⟩]
    exact mem_keys_write.mpr (Or.inl rfl)

theorem mem_keys_mkdir {q : Str} (h : q ∈ (t.mkdir p).keys) : q = p ∨ q ∈ t.keys := by
  unfold mkdir at h
  split at h
  · simpa [keys, or_comm] using h
  · exact Or.inr h

/-- The entries of a name do not change, they only move along with `src`. -/
theorem of_mem_keys_rename {name k : Str} (h : k ∈ (t.rename src dst).keys)
    (hslash : '/' ∉ name) (hk : hasName name k = true) (hdst : hasName name dst = false) :
    ∃ k' ∈ t.keys, hasName name k' = true ∧ (k' = k ∨ src ++ ['/'] <+: k') := by
  have hne : k ≠ dst := fun heq => absurd (hdst.symm.trans (heq ▸ hk)) (by decide)
  have hself : k ∈ t.keys →
      ∃ k' ∈ t.keys, hasName name k' = true ∧ (k' = k ∨ src ++ ['/'] <+: k') := fun hmem =>
    ⟨k, hmem, hk, Or.inl rfl⟩
  unfold rename at h
  split at h
  · exact hself h
  · split at h
    · exact hself h
    · next c hsrc hmove =>
        rcases mem_keys_moveFile (fun heq => hmove (Or.inl heq)) (mem_keys_iff.mpr
          ⟨_, get?_eq_some_iff.mp hsrc⟩) |>.mp h with heq | ⟨-, hmem⟩
        · exact absurd heq hne
        · exact hself hmem
  · dsimp only at h
    split at h
    · obtain ⟨e, he, heq⟩ := List.mem_map.mp h
      obtain ⟨e', he', rfl⟩ := List.mem_map.mp he
      have hkey : e'.1 ∈ t.keys := List.mem_map_of_mem (List.mem_of_mem_filter he')
      simp only [relocate] at heq
      split at heq
      · exact absurd heq.symm hne
      · split at heq
        · next hprefix =>
            refine ⟨e'.1, hkey, ?_, Or.inr hprefix⟩
            obtain ⟨rest, hrest⟩ := hprefix
            rw [← heq, ← hrest, List.append_assoc, List.drop_left, List.singleton_append,
              hasName_append hslash] at hk
            rw [← hrest, List.append_assoc, List.singleton_append, hasName_append hslash]
            exact hk
        · exact hself (heq ▸ hkey)
    · exact hself h

theorem of_mem_keys_mv {name k : Str} (h : k ∈ (t.mv [src, dst]).keys)
    (hslash : '/' ∉ name) (hk : hasName name k = true) (hdst : hasName name dst = false)
    (hinto : hasName name (dst ++ '/' :: baseName src) = false) :
    ∃ k' ∈ t.keys, hasName name k' = true ∧ (k' = k ∨ src ++ ['/'] <+: k') := by
  by_cases hdir : t.isDir dst = true
  · simp only [mv, List.reverse_cons, List.reverse_nil, List.nil_append, List.singleton_append,
      hdir, if_true, moveInto_singleton] at h
    exact of_mem_keys_rename h hslash hk hinto
  · simp only [mv, List.reverse_cons, List.reverse_nil, List.nil_append, List.singleton_append,
      if_neg hdir] at h
    exact of_mem_keys_rename h hslash hk hdst

/-! ## What stays -/

theorem mem_put_of_ne {c : α} {q : Str} (h : (q, n) ∈ t.entries) (hne : q ≠ p) :
    (q, n) ∈ (t.put p c).entries := by
  unfold put
  split
  · exact mem_write.mpr (Or.inr ⟨hne, h⟩)
  · exact h

theorem mem_mkdir_of_mem {q : Str} (h : (q, n) ∈ t.entries) : (q, n) ∈ (t.mkdir p).entries := by
  unfold mkdir
  split
  · exact List.mem_append_left _ h
  · exact h

theorem mem_rename_of_mem {q : Str} (h : (q, n) ∈ t.entries) (hsrc : ¬ src <+: q)
    (hdst : ¬ dst <+: q) : (q, n) ∈ (t.rename src dst).entries := by
  have hne : q ≠ src := fun heq => hsrc (heq ▸ List.prefix_refl q)
  have hne' : q ≠ dst := fun heq => hdst (heq ▸ List.prefix_refl q)
  have hbelow : ¬ src ++ ['/'] <+: q := fun hq => hsrc ((List.prefix_append src ['/']).trans hq)
  unfold rename
  split
  · exact h
  · split
    · exact h
    · next hmove =>
        exact (mem_moveFile fun heq => hmove (Or.inl heq)).mpr (Or.inr ⟨hne', hne, h⟩)
  · dsimp only
    split
    · refine List.mem_map.mpr ⟨(q, n), List.mem_filter.mpr ⟨h, by simpa using hne'⟩, ?_⟩
      simp [relocate, hne, hbelow]
    · exact h

theorem mem_mv_of_mem {q : Str} (h : (q, n) ∈ t.entries) (hsrc : ¬ src <+: q)
    (hdst : ¬ dst <+: q) : (q, n) ∈ (t.mv [src, dst]).entries := by
  simp only [mv, List.reverse_cons, List.reverse_nil, List.nil_append, List.singleton_append]
  split
  · apply mem_rename_of_mem h hsrc
    exact fun hq => hdst ((List.prefix_append dst _).trans hq)
  · exact mem_rename_of_mem h hsrc hdst

/-! ## Parts of the tree -/

/-- The trees have the same entries where `part` says so. -/
def SameOn (part : Str → Prop) (t t' : FileTree α) : Prop :=
  ∀ q n, part q → ((q, n) ∈ t.entries ↔ (q, n) ∈ t'.entries)

section SameOn

variable {part : Str → Prop} {t' t'' : FileTree α}

theorem SameOn.refl (t : FileTree α) : SameOn part t t := fun _ _ _ => Iff.rfl

theorem SameOn.trans (h : SameOn part t t') (h' : SameOn part t' t'') : SameOn part t t'' :=
  fun q n hq => (h q n hq).trans (h' q n hq)

theorem SameOn.mono {part' : Str → Prop} (h : SameOn part t t') (hpart : ∀ q, part' q → part q) :
    SameOn part' t t' := fun q n hq => h q n (hpart q hq)

theorem SameOn.get? (h : SameOn part t t') {q : Str} (hq : part q) : t.get? q = t'.get? q := by
  ext n
  rw [get?_eq_some_iff, get?_eq_some_iff, h q n hq]

theorem SameOn.mem_keys (h : SameOn part t t') {q : Str} (hq : part q) :
    q ∈ t.keys ↔ q ∈ t'.keys := by
  rw [mem_keys_iff, mem_keys_iff]
  exact exists_congr fun n => h q n hq

theorem sameOn_write {c : α} (hp : ¬ part p) : SameOn part t (t.write p c) := by
  intro q m hq
  have hne : q ≠ p := fun heq => hp (heq ▸ hq)
  simp [mem_write, hne]

theorem sameOn_put {c : α} (hp : ¬ part p) : SameOn part t (t.put p c) := by
  unfold put
  split
  · exact sameOn_write hp
  · exact SameOn.refl t

theorem sameOn_mkdir (hp : ¬ part p) : SameOn part t (t.mkdir p) := by
  unfold mkdir
  split
  · intro q m hq
    have hne : q ≠ p := fun heq => hp (heq ▸ hq)
    simp [hne]
  · exact SameOn.refl t

theorem of_mem_rename {q : Str} (h : (q, n) ∈ (t.rename src dst).entries) (hdst : ¬ dst <+: q) :
    (q, n) ∈ t.entries := by
  have hne : q ≠ dst := fun heq => hdst (heq ▸ List.prefix_refl q)
  unfold rename at h
  split at h
  · exact h
  · split at h
    · exact h
    · next hmove =>
        rcases (mem_moveFile fun heq => hmove (Or.inl heq)).mp h with ⟨heq, -⟩ | ⟨-, -, hold⟩
        · exact absurd heq hne
        · exact hold
  · dsimp only at h
    split at h
    · obtain ⟨e, he, heq⟩ := List.mem_map.mp h
      obtain ⟨hq, rfl⟩ := Prod.mk.inj heq
      have hold := List.mem_of_mem_filter he
      simp only [relocate] at hq
      split at hq
      · exact absurd hq.symm hne
      · split at hq
        · exact absurd (hq ▸ List.prefix_append dst _) hdst
        · exact hq ▸ hold
    · exact h

theorem sameOn_rename (hsrc : ∀ q, part q → ¬ src <+: q) (hdst : ∀ q, part q → ¬ dst <+: q) :
    SameOn part t (t.rename src dst) := fun q _ hq =>
  ⟨fun h => mem_rename_of_mem h (hsrc q hq) (hdst q hq), fun h => of_mem_rename h (hdst q hq)⟩

theorem sameOn_mv (hsrc : ∀ q, part q → ¬ src <+: q) (hdst : ∀ q, part q → ¬ dst <+: q) :
    SameOn part t (t.mv [src, dst]) := by
  simp only [mv, List.reverse_cons, List.reverse_nil, List.nil_append, List.singleton_append]
  split
  · apply sameOn_rename hsrc
    exact fun q hq h => hdst q hq ((List.prefix_append dst _).trans h)
  · exact sameOn_rename hsrc hdst

end SameOn

/-- `src` and what is below it, spelled as if it were `dst`. -/
def spelled (t : FileTree α) (src dst : Str) : FileTree α where
  entries := (t.entries.filter fun e => decide (e.1 = src ∨ src ++ ['/'] <+: e.1)).map fun e =>
    (dst ++ e.1.drop src.length, e.2)
  nodup := by
    have hkeys : ((t.entries.filter fun e =>
        decide (e.1 = src ∨ src ++ ['/'] <+: e.1)).map Prod.fst).Nodup :=
      t.nodup.sublist (List.filter_sublist.map _)
    have hsrc : ∀ k ∈ (t.entries.filter fun e =>
        decide (e.1 = src ∨ src ++ ['/'] <+: e.1)).map Prod.fst, src <+: k := by
      intro k hk
      obtain ⟨e, he, rfl⟩ := List.mem_map.mp hk
      rcases of_decide_eq_true (List.mem_filter.mp he).2 with heq | hbelow
      · rw [heq]
      · exact (List.prefix_append src ['/']).trans hbelow
    have hmap := hkeys.map_on (f := fun k => dst ++ k.drop src.length) fun k hk k' hk' h => by
      rw [← List.prefix_iff_eq_append.mp (hsrc k hk), List.append_cancel_left h,
        List.prefix_iff_eq_append.mp (hsrc k' hk')]
    simpa only [List.map_map, Function.comp_def] using hmap

theorem mem_spelled {q : Str} : (q, n) ∈ (t.spelled src dst).entries ↔
    ∃ rest, (rest = [] ∨ ['/'] <+: rest) ∧ q = dst ++ rest ∧ (src ++ rest, n) ∈ t.entries := by
  have hbelow : ∀ rest, src ++ rest = src ∨ src ++ ['/'] <+: src ++ rest ↔
      rest = [] ∨ ['/'] <+: rest := by simp
  constructor
  · intro h
    obtain ⟨e, he, heq⟩ := List.mem_map.mp h
    obtain ⟨rfl, rfl⟩ := Prod.mk.inj heq
    obtain ⟨hmem, hat⟩ := List.mem_filter.mp he
    have hat := of_decide_eq_true hat
    obtain ⟨rest, hrest⟩ : src <+: e.1 := by
      rcases hat with hself | hbelow
      · rw [hself]
      · exact (List.prefix_append src ['/']).trans hbelow
    rw [← hrest, hbelow] at hat
    refine ⟨rest, hat, ?_, hrest ▸ hmem⟩
    rw [← hrest, List.drop_left]
  · rintro ⟨rest, hrest, rfl, hmem⟩
    refine List.mem_map.mpr ⟨(src ++ rest, n), List.mem_filter.mpr ⟨hmem, ?_⟩, ?_⟩
    · exact decide_eq_true ((hbelow rest).mpr hrest)
    · rw [List.drop_left]

end FileTree

end AutoTestKernel.Fs
