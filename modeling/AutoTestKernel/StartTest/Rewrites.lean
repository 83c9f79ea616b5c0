import AutoTestKernel.StartTest.Config
import Mathlib.Tactic.Push

/-!
# Histories of configuration rewrites

Each rewrite works on the output of the one before.  A rewrite is harmless when
each line it replaces is the one that mentions baseDirs, and is replaced by a
single line of text.  After harmless rewrites the next test finds the
configuration it would have found first.  What other rewrites leave behind stays:
a line that is added shows in a weight that no rewrite decreases.
-/

namespace AutoTestKernel.StartTest

open Text Sed

section Definitions

variable (L : TextLocale) (more : Str → Option (TextFile → TextFile))

def rewriteAll (Ds : List Str) (f : TextFile) : TextFile :=
  Ds.foldl (fun f D => rewriteConfig L more D f) f

/-- A rewrite for an ordinary directory does not depend on the rewrites before. -/
def LastWriteWins (f : TextFile) (Ds : List Str) : Prop :=
  ∀ D, Ordinary '#' D → rewriteConfig L more D (rewriteAll L more Ds f) = rewriteConfig L more D f

/-- What a rewrite for an ordinary directory keeps of a line: its end behind a
byte that is no character, or all of it. -/
def kept (l : Str) : Bool × Str :=
  if mentions (L.readable l) then (true, L.unread l) else (false, l)

def Spares (f g : TextFile) : Prop := g.lines.map (kept L) = f.lines.map (kept L)

instance (f g : TextFile) : Decidable (Spares L f g) := inferInstanceAs (Decidable (_ = _))

/-- The script changes lines that mention baseDirs alone, and each into one line
of text: nothing in the replacement breaks the line, nothing is printed twice, no
other line is reached by ignoring case, and the bytes that are written make up
characters.  Further commands have to spare the file as a whole. -/
def HarmlessFor (edit : Option (TextFile → TextFile)) (f : TextFile) : Compiled → Prop
  | .rejected => True
  | .substitute repl flags => ∀ l ∈ f.lines, flags.Applies L (hit L) l →
      mentions (L.readable l) = true ∧ (∀ p ∈ repl, ¬ p.Breaks) ∧ flags.print = false ∧
        L.Reads (L.join (render L (L.readable l) {} repl))
  | .beyond =>
      match edit with
      | none => True
      | some edit => Spares L f (edit f)

instance (edit : Option (TextFile → TextFile)) (f : TextFile) :
    (c : Compiled) → Decidable (HarmlessFor L edit f c)
  | .rejected => isTrue trivial
  | .substitute _ _ => List.decidableBAll _ _
  | .beyond =>
      match edit with
      | none => isTrue trivial
      | some _ => inferInstanceAs (Decidable (Spares _ _ _))

def Harmless (f : TextFile) (D : Str) : Prop :=
  HarmlessFor L (more D) f (compile L '#' (configScript D))

instance (f : TextFile) (D : Str) : Decidable (Harmless L more f D) :=
  inferInstanceAs (Decidable (HarmlessFor _ _ _ _))

/-- Each rewrite is harmless for the file it finds. -/
def HarmlessRun (f : TextFile) : List Str → Prop
  | [] => True
  | D :: Ds => Harmless L more f D ∧ HarmlessRun (rewriteConfig L more D f) Ds

instance decidableHarmlessRun :
    (Ds : List Str) → (f : TextFile) → Decidable (HarmlessRun L more f Ds)
  | [], _ => isTrue trivial
  | D :: Ds, f =>
      have := decidableHarmlessRun Ds (rewriteConfig L more D f)
      inferInstanceAs (Decidable (_ ∧ _))

/-- The directory starts no further commands, and what it makes `sed` write is
text of the locale. -/
def Textual (D : Str) : Prop :=
  match compile L '#' (configScript D) with
  | .rejected => True
  | .substitute repl _ => ∀ s, .text s ∈ repl → L.Reads (L.join s)
  | .beyond => False

end Definitions

section Lines

variable {L : TextLocale} {l m : Str}

theorem kept_of_mentions (h : mentions (L.readable l) = true) :
    kept L l = (true, L.unread l) := if_pos h

theorem kept_of_not_mentions (h : mentions (L.readable l) = false) : kept L l = (false, l) :=
  if_neg (by simp [h])

theorem kept_opening (s : Str) : kept L (opening ++ s) = (true, L.unread s) := by
  have hread : mentions (L.readable (opening ++ s)) = true := by
    rw [TextLocale.readable_append reads_opening]
    exact mentions_opening _
  rw [kept_of_mentions hread, TextLocale.unread_append reads_opening]

/-! ## Files that differ in the baseDirs line -/

theorem Spares.mem {f g : TextFile} (h : Spares L f g) (hl : l ∈ f.lines) :
    ∃ m ∈ g.lines, kept L m = kept L l := by
  have hmem : kept L l ∈ g.lines.map (kept L) := h ▸ List.mem_map_of_mem hl
  exact List.mem_map.mp hmem

/-- Replacing the baseDirs lines again depends on what is kept alone. -/
theorem repointed_of_kept (new : Str) {ls ms : List Str}
    (h : ls.map (kept L) = ms.map (kept L)) : repointed L new ls = repointed L new ms := by
  let fill : Bool × Str → Str := fun k => if k.1 then L.join (new ++ k.2) else k.2
  have hfill : ∀ ks : List Str, repointed L new ks = (ks.map (kept L)).map fill := fun ks => by
    rw [List.map_map]
    refine List.map_congr_left fun l _ => ?_
    cases hl : mentions (L.readable l) with
    | true => simp [fill, kept_of_mentions hl]
    | false => simp [fill, kept_of_not_mentions hl]
  rw [hfill, hfill, h]

theorem map_kept_repointed {D : Str} (hD : L.Reads D) (ls : List Str) :
    (repointed L (pointedLine D) ls).map (kept L) = ls.map (kept L) := by
  have hrest : L.Reads (D ++ closing) := hD.append (TextLocale.reads_of_ascii (by decide))
  rw [repointed, List.map_map]
  refine List.map_congr_left fun l _ => ?_
  cases hl : mentions (L.readable l) with
  | true =>
      have hline : kept L (L.join (pointedLine D ++ L.unread l)) = (true, L.unread l) := by
        rw [pointedLine, List.append_assoc, TextLocale.join_append reads_opening, kept_opening,
          TextLocale.unread_join, TextLocale.unread_append hrest, TextLocale.unread_unread]
      simp [hl, hline, kept_of_mentions hl]
  | false => simp [hl]

/-- Later rewrites find what they would have found without the history exactly
when it spares the file. -/
theorem lastWriteWins_iff_spares {more : Str → Option (TextFile → TextFile)} {f : TextFile}
    {Ds : List Str} : LastWriteWins L more f Ds ↔ Spares L f (rewriteAll L more Ds f) := by
  constructor
  · intro h
    have hempty : Ordinary '#' ([] : Str) := by decide
    have hreads : L.Reads ([] : Str) := by simp [TextLocale.Reads]
    have hlines := congrArg TextFile.lines (h [] hempty)
    rw [rewriteConfig_ordinary more hempty, rewriteConfig_ordinary more hempty] at hlines
    have hkept := congrArg (List.map (kept L)) hlines
    rwa [map_kept_repointed hreads, map_kept_repointed hreads] at hkept
  · intro h D hD
    apply TextFile.ext
    rw [rewriteConfig_ordinary more hD, rewriteConfig_ordinary more hD, repointed_of_kept _ h]

/-! ## One line -/

theorem hit_of_mentions (h : mentions l = true) (icase : Bool) : hit L icase l = true := by
  cases icase with
  | false => exact h
  | true => exact decide_eq_true ((of_decide_eq_true h).map L.fold)

section Substitution

variable {repl : List Piece} {flags : Flags} {ps : List Piece}

theorem replaced_opening (hrepl : repl = prepend opening ps) (l : Str) :
    ∃ s, replaced L repl l = opening ++ s := by
  refine ⟨L.join (render L (L.readable l) {} ps ++ L.unread l), ?_⟩
  rw [replaced, hrepl, render_prepend reads_opening, List.append_assoc,
    TextLocale.join_append reads_opening]

theorem newline_mem_replaced_iff (hl : newline ∉ l) :
    newline ∈ replaced L repl l ↔ ∃ p ∈ repl, p.Breaks := by
  rw [replaced, TextLocale.newline_mem_join, List.mem_append,
    newline_mem_render_iff (TextLocale.newline_notMem_readable hl)]
  exact or_iff_left (TextLocale.newline_notMem_unread hl)

theorem editLine_ne_nil : editLine L (hit L) repl flags l ≠ [] := by
  unfold editLine
  split
  · split
    · simp [splitLines_ne_nil]
    · exact splitLines_ne_nil _
  · simp

theorem unread_replaced : L.unread (replaced L repl l) = L.unread l ↔
    L.Reads (L.join (render L (L.readable l) {} repl)) := by
  rw [replaced, TextLocale.unread_join]
  constructor
  · exact TextLocale.reads_join_of_unread
  · intro h
    rw [← TextLocale.unread_join, ← TextLocale.join_join_append, TextLocale.unread_join,
      TextLocale.unread_append h, TextLocale.unread_unread]

/-- What is kept of a line that is replaced. -/
theorem map_kept_editLine_iff (hrepl : repl = prepend opening ps) (hl : newline ∉ l)
    (happlies : flags.Applies L (hit L) l) :
    (editLine L (hit L) repl flags l).map (kept L) = [kept L l] ↔
      mentions (L.readable l) = true ∧ (∀ p ∈ repl, ¬ p.Breaks) ∧ flags.print = false ∧
        L.Reads (L.join (render L (L.readable l) {} repl)) := by
  obtain ⟨s, hs⟩ := replaced_opening (L := L) hrepl l
  have hreplaced : kept L (replaced L repl l) = (true, L.unread (replaced L repl l)) := by
    rw [hs, kept_opening, TextLocale.unread_append reads_opening]
  rw [editLine, if_pos happlies]
  constructor
  · intro h
    have hsome : 0 < (splitLines (replaced L repl l)).length :=
      List.length_pos_iff.mpr (splitLines_ne_nil _)
    have hlength := congrArg List.length h
    have hprint : flags.print = false := by
      cases hp : flags.print with
      | false => rfl
      | true =>
          simp [hp] at hlength
          omega
    simp only [hprint, List.length_map, List.length_singleton] at hlength
    have hnewline : newline ∉ replaced L repl l := by
      rw [← List.count_eq_zero]
      have hcount := length_splitLines (replaced L repl l)
      simp at hlength
      omega
    simp only [hprint, splitLines_of_notMem hnewline] at h
    have hbreaks := (newline_mem_replaced_iff hl).not.mp hnewline
    have hone : (true, L.unread (replaced L repl l)) = kept L l :=
      hreplaced.symm.trans (by simpa using h)
    cases hment : mentions (L.readable l) with
    | false => simp [kept_of_not_mentions hment] at hone
    | true =>
        rw [kept_of_mentions hment] at hone
        refine ⟨rfl, fun p hp hb => hbreaks ⟨p, hp, hb⟩, hprint, ?_⟩
        exact unread_replaced.mp (Prod.mk.inj hone).2
  · rintro ⟨hment, hbreaks, hprint, hreads⟩
    have hnewline : newline ∉ replaced L repl l := by
      rw [newline_mem_replaced_iff hl]
      simpa using hbreaks
    simp [hprint, splitLines_of_notMem hnewline, hreplaced, kept_of_mentions hment,
      unread_replaced.mpr hreads]

end Substitution

end Lines

/-! ## One rewrite -/

section OneRewrite

variable {L : TextLocale} {more : Str → Option (TextFile → TextFile)} {f g : TextFile} {D : Str}

/-- A rewrite is harmless exactly when it spares the file. -/
theorem harmless_iff_spares : Harmless L more f D ↔ Spares L f (rewriteConfig L more D f) := by
  unfold Harmless rewriteConfig
  cases hc : compile L '#' (configScript D) with
  | rejected => exact iff_of_true trivial rfl
  | beyond =>
      cases hmore : more D with
      | none => exact iff_of_true trivial rfl
      | some edit => exact Iff.rfl
  | substitute repl flags =>
      obtain ⟨ps, hrepl⟩ := compile_configScript hc
      have hkept : ∀ l ∈ f.lines, ((editLine L (hit L) repl flags l).map (kept L) = [kept L l] ↔
          (flags.Applies L (hit L) l → mentions (L.readable l) = true ∧
            (∀ p ∈ repl, ¬ p.Breaks) ∧ flags.print = false ∧
              L.Reads (L.join (render L (L.readable l) {} repl)))) := by
        intro l hl
        by_cases happlies : flags.Applies L (hit L) l
        · rw [map_kept_editLine_iff hrepl (f.newline_notMem l hl) happlies]
          exact ⟨fun h _ => h, fun h => h happlies⟩
        · have hsame : editLine L (hit L) repl flags l = [l] := if_neg happlies
          exact iff_of_true (by rw [hsame]; rfl) fun h => absurd h happlies
      simp only [Spares, Compiled.run, inPlace, List.map_flatMap]
      constructor
      · intro h
        rw [List.map_eq_flatMap]
        exact List.flatMap_congr fun l hl => (hkept l hl).mpr (h l hl)
      · intro h l hl
        refine (hkept l hl).mp (eq_singleton_of_flatMap_eq_map ?_ h l hl)
        exact fun m _ => mt List.map_eq_nil_iff.mp editLine_ne_nil

theorem HarmlessRun.spares {Ds : List Str} (h : HarmlessRun L more f Ds) :
    Spares L f (rewriteAll L more Ds f) := by
  induction Ds generalizing f with
  | nil => rfl
  | cons D Ds ih =>
      have hD := harmless_iff_spares.mp h.1
      exact (ih h.2).trans hD

/-- What is harmless for a file is harmless for another that keeps the same lines. -/
theorem Harmless.of_spares (htext : Textual L D) (hsame : Spares L f g)
    (h : Harmless L more g D) : Harmless L more f D := by
  unfold Harmless Textual at *
  cases hc : compile L '#' (configScript D) with
  | rejected => trivial
  | beyond => rw [hc] at htext; exact htext.elim
  | substitute repl flags =>
      rw [hc] at h htext
      intro l hl happlies
      have hreads := TextLocale.join_of_reads (L := L)
        (reads_render (TextLocale.reads_readable l) htext {})
      obtain ⟨m, hm, hkept⟩ := hsame.mem hl
      cases hment : mentions (L.readable l) with
      | true =>
          have hment' : mentions (L.readable m) = true := by
            by_contra hno
            rw [Bool.not_eq_true] at hno
            rw [kept_of_mentions hment, kept_of_not_mentions hno] at hkept
            simp at hkept
          obtain ⟨-, hbreaks, hprint, -⟩ := h m hm ⟨hit_of_mentions hment' _, happlies.2⟩
          refine ⟨rfl, hbreaks, hprint, ?_⟩
          rw [hreads]
          exact reads_render (TextLocale.reads_readable l) htext {}
      | false =>
          have hno : mentions (L.readable m) = false := by
            by_contra hyes
            rw [Bool.not_eq_false] at hyes
            rw [kept_of_not_mentions hment, kept_of_mentions hyes] at hkept
            simp at hkept
          rw [kept_of_not_mentions hment, kept_of_not_mentions hno] at hkept
          obtain rfl := (Prod.mk.inj hkept).2
          exact absurd (h m hm happlies).1 (by simp [hno])

end OneRewrite

/-! ## What a rewrite cannot undo -/

section Weight

variable {L : TextLocale} {more : Str → Option (TextFile → TextFile)} {f : TextFile} {D : Str}

/-- The lines of a file, those that mention baseDirs counted twice. -/
def weight (L : TextLocale) (ls : List Str) : ℕ :=
  ls.length + (ls.map (kept L)).countP Prod.fst

theorem weight_eq_of_spares {f g : TextFile} (h : Spares L f g) :
    weight L g.lines = weight L f.lines := by
  have hlength := congrArg List.length h
  rw [List.length_map, List.length_map] at hlength
  rw [weight, weight, hlength, h]

theorem weight_append (ls ms : List Str) : weight L (ls ++ ms) = weight L ls + weight L ms := by
  simp only [weight, List.length_append, List.map_append, List.countP_append]
  omega

theorem weight_cons (l : Str) (ls : List Str) : weight L (l :: ls) = weight L [l] + weight L ls :=
  weight_append [l] ls

theorem weight_singleton_le (l : Str) : weight L [l] ≤ 2 := by
  cases hl : mentions (L.readable l) with
  | true => simp [weight, kept_of_mentions hl]
  | false => simp [weight, kept_of_not_mentions hl]

theorem weight_le_flatMap {edit : Str → List Str} {ls : List Str}
    (h : ∀ l ∈ ls, weight L [l] ≤ weight L (edit l)) :
    weight L ls ≤ weight L (ls.flatMap edit) := by
  induction ls with
  | nil => simp
  | cons l ls ih =>
      have hl := h l (by simp)
      have hls := ih fun m hm => h m (List.mem_cons_of_mem l hm)
      rw [weight_cons, List.flatMap_cons, weight_append]
      omega

theorem weight_lt_flatMap {edit : Str → List Str} {ls : List Str}
    (h : ∀ l ∈ ls, weight L [l] ≤ weight L (edit l)) {l : Str} (hl : l ∈ ls)
    (hlt : weight L [l] < weight L (edit l)) : weight L ls < weight L (ls.flatMap edit) := by
  obtain ⟨pre, post, rfl⟩ := List.append_of_mem hl
  have hpre := weight_le_flatMap fun m hm => h m (List.mem_append_left _ hm)
  have hpost := weight_le_flatMap fun m hm =>
    h m (List.mem_append_right pre (List.mem_cons_of_mem l hm))
  rw [List.flatMap_append, List.flatMap_cons, weight_append, weight_append, weight_append,
    weight_cons]
  omega

section Substitution

variable {repl : List Piece} {flags : Flags} {ps : List Piece} {l : Str}

theorem weight_editLine_of_applies (hrepl : repl = prepend opening ps)
    (happlies : flags.Applies L (hit L) l) :
    ∃ first rest, splitLines (replaced L repl l) = (opening ++ first) :: rest ∧
      weight L (editLine L (hit L) repl flags l) =
        (if flags.print then 2 else 1) * (2 + weight L rest) := by
  obtain ⟨s, hs⟩ := replaced_opening (L := L) hrepl l
  obtain ⟨first, rest, hsplit⟩ := List.exists_cons_of_ne_nil (splitLines_ne_nil s)
  have hopening : splitLines (replaced L repl l) = (opening ++ first) :: rest := by
    rw [hs, splitLines_append _ _ (by decide), hsplit]
    rfl
  refine ⟨first, rest, hopening, ?_⟩
  have hfirst : weight L [opening ++ first] = 2 := by
    simp [weight, kept_opening]
  rw [editLine, if_pos happlies, hopening]
  cases flags.print with
  | false => simp only [Bool.false_eq_true, if_false]; rw [weight_cons, hfirst]; omega
  | true =>
      simp only [if_true]
      rw [weight_append, weight_cons, hfirst]
      omega

theorem weight_le_editLine (hrepl : repl = prepend opening ps) :
    weight L [l] ≤ weight L (editLine L (hit L) repl flags l) := by
  by_cases happlies : flags.Applies L (hit L) l
  · obtain ⟨first, rest, -, hweight⟩ := weight_editLine_of_applies hrepl happlies
    have hle := weight_singleton_le (L := L) l
    rw [hweight]
    split <;> omega
  · have hedit : editLine L (hit L) repl flags l = [l] := if_neg happlies
    exact Nat.le_of_eq (congrArg (weight L) hedit).symm

/-- A broken line, a line printed twice and a line without baseDirs that is
replaced all weigh more afterwards. -/
theorem weight_lt_editLine (hrepl : repl = prepend opening ps) (hl : newline ∉ l)
    (happlies : flags.Applies L (hit L) l)
    (hharm : (∃ p ∈ repl, p.Breaks) ∨ flags.print = true ∨ mentions (L.readable l) = false) :
    weight L [l] < weight L (editLine L (hit L) repl flags l) := by
  obtain ⟨first, rest, hsplit, hweight⟩ := weight_editLine_of_applies hrepl happlies
  have hle := weight_singleton_le (L := L) l
  rw [hweight]
  rcases hharm with hnewline | hprint | hment
  · have hcount := List.count_pos_iff.mpr ((newline_mem_replaced_iff (L := L) hl).mpr hnewline)
    have hlength := length_splitLines (replaced L repl l)
    have hpos : rest.length ≤ weight L rest := Nat.le_add_right _ _
    rw [hsplit, List.length_cons] at hlength
    split <;> omega
  · simp only [hprint, if_true]
    omega
  · have hone : weight L [l] = 1 := by simp [weight, kept_of_not_mentions hment]
    split <;> omega

end Substitution

theorem weight_le_rewriteConfig (hD : Textual L D) (f : TextFile) :
    weight L f.lines ≤ weight L (rewriteConfig L more D f).lines := by
  unfold rewriteConfig
  unfold Textual at hD
  cases hc : compile L '#' (configScript D) with
  | rejected => exact Nat.le_refl _
  | beyond => rw [hc] at hD; exact hD.elim
  | substitute repl flags =>
      obtain ⟨ps, hrepl⟩ := compile_configScript hc
      exact weight_le_flatMap fun l _ => weight_le_editLine hrepl

theorem weight_lt_rewriteConfig (hD : Textual L D) (h : ¬ Harmless L more f D) :
    weight L f.lines < weight L (rewriteConfig L more D f).lines := by
  unfold rewriteConfig
  unfold Harmless at h
  unfold Textual at hD
  cases hc : compile L '#' (configScript D) with
  | rejected => rw [hc] at h; exact absurd trivial h
  | beyond => rw [hc] at hD; exact hD.elim
  | substitute repl flags =>
      rw [hc] at h hD
      obtain ⟨ps, hrepl⟩ := compile_configScript hc
      simp only [HarmlessFor] at h
      push Not at h
      obtain ⟨l, hl, happlies, hharm⟩ := h
      refine weight_lt_flatMap (fun m _ => weight_le_editLine hrepl) hl
        (weight_lt_editLine hrepl (f.newline_notMem l hl) happlies ?_)
      by_contra hnone
      push Not at hnone
      obtain ⟨hbreaks, hprint, hment⟩ := hnone
      refine hharm (by simpa using hment) hbreaks (by simpa using hprint) ?_
      have hreads := reads_render (TextLocale.reads_readable l) hD {}
      rwa [TextLocale.join_of_reads hreads]

end Weight

/-! ## Histories -/

section Histories

variable {L : TextLocale} {more : Str → Option (TextFile → TextFile)} {f : TextFile}

theorem weight_le_rewriteAll {Ds : List Str} (h : ∀ D ∈ Ds, Textual L D) (f : TextFile) :
    weight L f.lines ≤ weight L (rewriteAll L more Ds f).lines := by
  induction Ds generalizing f with
  | nil => exact Nat.le_refl _
  | cons D Ds ih =>
      exact Nat.le_trans (weight_le_rewriteConfig (h D (by simp)) f)
        (ih (fun E hE => h E (List.mem_cons_of_mem D hE)) _)

/-- Rewrites that only write text cannot make up for each other. -/
theorem harmless_of_weight_eq {Ds : List Str} (htext : ∀ D ∈ Ds, Textual L D)
    (h : weight L (rewriteAll L more Ds f).lines = weight L f.lines) :
    ∀ D ∈ Ds, Harmless L more f D := by
  induction Ds generalizing f with
  | nil => simp
  | cons D Ds ih =>
      obtain ⟨hD, hDs⟩ := List.forall_mem_cons.mp htext
      have hstep : weight L f.lines ≤ weight L (rewriteConfig L more D f).lines :=
        weight_le_rewriteConfig hD f
      have htail : weight L (rewriteConfig L more D f).lines ≤
          weight L (rewriteAll L more Ds (rewriteConfig L more D f)).lines :=
        weight_le_rewriteAll hDs _
      have hall : weight L (rewriteAll L more Ds (rewriteConfig L more D f)).lines =
          weight L f.lines := h
      have hharmless : Harmless L more f D := by
        by_contra hnot
        have hgrow := weight_lt_rewriteConfig hD hnot
        omega
      have hlater := ih (f := rewriteConfig L more D f) hDs (by omega)
      have hsame := harmless_iff_spares.mp hharmless
      refine List.forall_mem_cons.mpr ⟨hharmless, fun E hE => ?_⟩
      exact (hlater E hE).of_spares (hDs E hE) hsame

theorem harmlessRun_of_textual {Ds : List Str} (htext : ∀ D ∈ Ds, Textual L D)
    (h : ∀ D ∈ Ds, Harmless L more f D) : HarmlessRun L more f Ds := by
  induction Ds generalizing f with
  | nil => trivial
  | cons D Ds ih =>
      obtain ⟨-, hDs⟩ := List.forall_mem_cons.mp htext
      obtain ⟨hD, hrest⟩ := List.forall_mem_cons.mp h
      have hsame := harmless_iff_spares.mp hD
      exact ⟨hD, ih hDs fun E hE => (hrest E hE).of_spares (hDs E hE) hsame.symm⟩

end Histories

/-- Rewrites that are harmless for the file they find leave no trace in the
configuration of a later test.  A single rewrite leaves none exactly when it is
harmless, and so does a history in which only text is written. -/
theorem lastWriteWins_iff_harmless (L : TextLocale) (more : Str → Option (TextFile → TextFile))
    (f : TextFile) :
    (∀ Ds, HarmlessRun L more f Ds → LastWriteWins L more f Ds) ∧
      (∀ D, LastWriteWins L more f [D] ↔ Harmless L more f D) ∧
      (∀ Ds, (∀ D ∈ Ds, Textual L D) →
        (LastWriteWins L more f Ds ↔ ∀ D ∈ Ds, Harmless L more f D)) := by
  refine ⟨fun Ds h => ?_, fun D => ?_, fun Ds htext => ?_⟩
  · exact lastWriteWins_iff_spares.mpr h.spares
  · rw [harmless_iff_spares]
    exact lastWriteWins_iff_spares
  · constructor
    · intro h
      exact harmless_of_weight_eq htext (weight_eq_of_spares (lastWriteWins_iff_spares.mp h))
    · intro h
      exact lastWriteWins_iff_spares.mpr (harmlessRun_of_textual htext h).spares

theorem lastWriteWins_hostFiles :
    LastWriteWins .posix (fun _ => none) hostFiles
      ["/linux/../tests/dup&dup2/".toList, "/linux/../tests/a#b/".toList] :=
  (lastWriteWins_iff_harmless .posix (fun _ => none) hostFiles).1 _ (by decide +kernel)

/-- A directory named `a\nb` breaks the line, and its second half stays. -/
theorem lastWriteWins_fails_at_escape :
    ¬ LastWriteWins .posix (fun _ => none) hostFiles ["/linux/../tests/a\\nb/".toList] := by
  intro h
  have hordinary : Ordinary '#' "/linux/../tests/c/".toList := by decide +kernel
  have hwins := h "/linux/../tests/c/".toList hordinary
  revert hwins
  decide +kernel

/-- Behind the byte of `\xff` nothing is replaced, where it is no character. -/
example : Harmless .posix (fun _ => none) hostFiles "/tests/a\\xff/".toList ∧
    ¬ Harmless .utf8 (fun _ => none) hostFiles "/tests/a\\xff/".toList := by decide +kernel

end AutoTestKernel.StartTest
