import AutoTestKernel.Library.StreamEditor

/-!
# Rewriting config/test.lua

Before every launch startTest.sh points S2E at the directory of the test:
`sed -i "s#^.*baseDirs.*#\tbaseDirs = ...#"` replaces every line that mentions
baseDirs.  The directory goes into the script unquoted, so it is read by `sed`
as part of a replacement.
-/

namespace AutoTestKernel.StartTest

open Text Sed

def baseDirs : Str := "baseDirs".toList

def mentions (l : Str) : Bool := decide (baseDirs <:+: l)

/-- `^.*baseDirs.*` matches all of a text or no part of it. -/
def hit (L : TextLocale) (icase : Bool) (l : Str) : Bool :=
  if icase then decide (baseDirs.map L.fold <:+: l.map L.fold) else mentions l

def assignment : Str := "baseDirs = \x7b\"".toList

def opening : Str := '\t' :: assignment

def closing : Str := "\"\x7d,".toList

def pointedLine (D : Str) : Str := opening ++ (D ++ closing)

/-- The script behind the regular expression, with `${nowTestPath}` expanded. -/
def configScript (D : Str) : Str :=
  '\\' :: 't' :: (assignment ++ (D ++ (closing ++ ['#'])))

/-- `sed -i "s#^.*baseDirs.*#\tbaseDirs = {\"${nowTestPath}\"},#" $s2eConfig`.
What `sed` makes of options or commands that the directory starts behind the
substitution is `more`. -/
def rewriteConfig (L : TextLocale) (more : Str → Option (TextFile → TextFile)) (D : Str)
    (f : TextFile) : TextFile :=
  (compile L '#' (configScript D)).run L (hit L) (more D) f

def setBaseDirs (new : Str) (ls : List Str) : List Str :=
  ls.map fun l => if mentions l then new else l

/-- The same as far as the locale reads the lines: behind a byte that is no
character a line keeps its end. -/
def repointed (L : TextLocale) (new : Str) (ls : List Str) : List Str :=
  ls.map fun l => if mentions (L.readable l) then L.join (new ++ L.unread l) else l

/-- The last lines of config/test.lua. -/
def hostFiles : TextFile where
  lines := ["pluginsConfig.HostFiles = \x7b".toList,
    pointedLine "/home/xyj/research/s2eTestKernel/linux-3.5.4/../tests/syscalls/setfsgid/".toList,
    "\x7d".toList]
  newline_notMem := by decide +kernel

/-! ## One rewrite -/

section Rewrite

variable {L : TextLocale} {D : Str}

theorem mentions_opening (s : Str) : mentions (opening ++ s) = true := by
  have h : baseDirs <:+: opening := by decide
  have hs : baseDirs <:+: opening ++ s := List.infix_append_of_infix_left h
  simpa [mentions] using hs

theorem setBaseDirs_pointedLine (new D : Str) (ls : List Str) :
    setBaseDirs new (setBaseDirs (pointedLine D) ls) = setBaseDirs new ls := by
  have hline : mentions (pointedLine D) = true := mentions_opening _
  simp only [setBaseDirs, List.map_map]
  refine List.map_congr_left fun l _ => ?_
  by_cases hl : mentions l = true <;> simp [hl, hline]

theorem ordinary_assignment : Ordinary '#' assignment := by decide

theorem ordinary_pointedLine (h : Ordinary '#' D) : Ordinary '#' (pointedLine D) := by
  have hopening : Ordinary '#' opening := by decide
  have hclosing : Ordinary '#' closing := by decide
  exact hopening.append (h.append hclosing)

theorem reads_opening : L.Reads opening := TextLocale.reads_of_ascii (by decide)

theorem unescape_opening (s : Str) :
    unescape L .plain ('\\' :: 't' :: (assignment ++ s)) =
      (unescape L .plain s).map (opening ++ ·) := by
  have htab : ∀ u, unescape L .plain ('\\' :: 't' :: u) =
      (unescape L .plain u).map ('\t' :: ·) := fun u => by
    simp [unescape, Reading.next, plainOutput, escapeOutput, newline, Function.comp_def]
  rw [htab, unescape_ordinary ordinary_assignment, Option.map_map]
  rfl

theorem splitReplacement_configScript (D : Str) :
    splitReplacement '#' (configScript D) =
      (splitReplacement '#' (D ++ (closing ++ ['#']))).map
        fun r => ('\\' :: 't' :: (assignment ++ r.1), r.2) := by
  rw [configScript, splitReplacement_escape (by decide),
    splitReplacement_ordinary ordinary_assignment, Option.map_map]
  rfl

theorem compile_configScript {repl : List Piece} {flags : Flags}
    (h : compile L '#' (configScript D) = .substitute repl flags) :
    ∃ ps, repl = prepend opening ps := by
  have hopening : Ordinary '#' opening := by decide
  rw [compile, splitReplacement_configScript] at h
  cases hraw : splitReplacement '#' (D ++ (closing ++ ['#'])) with
  | none => simp [hraw] at h
  | some r =>
      simp only [hraw, Option.map_some, unescape_opening] at h
      cases htext : unescape L .plain r.1 with
      | none => simp [htext] at h
      | some text =>
          simp only [htext, Option.map_some, pieces_ordinary hopening] at h
          split at h
          · cases h
          · cases h
          · split at h
            · cases h
            · exact ⟨pieces L text, (Compiled.substitute.inj h).1.symm⟩

theorem compile_ordinary (h : Ordinary '#' D) :
    compile L '#' (configScript D) = .substitute [.text (pointedLine D)] {} := by
  have hclosing : Ordinary '#' closing := by decide
  have hend : splitReplacement '#' (D ++ (closing ++ ['#'])) = some (D ++ closing, []) := by
    rw [← List.append_assoc, splitReplacement_ordinary (h.append hclosing)]
    simp [splitReplacement]
  have htext : unescape L .plain (D ++ closing) = some (D ++ closing) := by
    have happ := unescape_ordinary (L := L) (h.append hclosing) []
    simpa [unescape, Reading.flush] using happ
  have hpieces : pieces L (opening ++ (D ++ closing)) = [.text (pointedLine D)] := by
    have happ := pieces_ordinary (L := L) (ordinary_pointedLine h) []
    rwa [List.append_nil] at happ
  have hvalid : [Piece.text (pointedLine D)].any invalidReference = false := rfl
  rw [compile, splitReplacement_configScript, hend]
  simp only [Option.map_some, unescape_opening, htext, hpieces, parseFlags, hvalid]
  rfl

theorem editLine_ordinary (h : Ordinary '#' D) {l : Str} (hl : newline ∉ l) :
    editLine L (hit L) [.text (pointedLine D)] {} l =
      [if mentions (L.readable l) then L.join (pointedLine D ++ L.unread l) else l] := by
  have hrender : render L (L.readable l) {} [.text (pointedLine D)] = L.join (pointedLine D) := by
    simp [render]
  have hnewline : newline ∉ L.join (pointedLine D ++ L.unread l) := by
    rw [TextLocale.newline_mem_join, List.mem_append, not_or]
    exact ⟨(ordinary_pointedLine h).newline_notMem, TextLocale.newline_notMem_unread hl⟩
  rw [editLine, replaced, hrender, TextLocale.join_join_append, splitLines_of_notMem hnewline]
  by_cases hm : mentions (L.readable l) = true <;> simp [Flags.Applies, hit, hm]

theorem rewriteConfig_ordinary (more : Str → Option (TextFile → TextFile))
    (h : Ordinary '#' D) (f : TextFile) :
    (rewriteConfig L more D f).lines = repointed L (pointedLine D) f.lines := by
  have hlines : repointed L (pointedLine D) f.lines =
      f.lines.flatMap (editLine L (hit L) [.text (pointedLine D)] {}) := by
    rw [repointed, List.map_eq_flatMap]
    exact List.flatMap_congr fun l hl => (editLine_ordinary h (f.newline_notMem l hl)).symm
  rw [rewriteConfig, compile_ordinary h, hlines]
  rfl

theorem repointed_eq {new : Str} {ls : List Str} (hnew : L.Reads new)
    (hls : ∀ l ∈ ls, L.Reads l) : repointed L new ls = setBaseDirs new ls := by
  refine List.map_congr_left fun l hl => ?_
  rw [TextLocale.readable_of_reads (hls l hl), TextLocale.unread_of_reads (hls l hl),
    List.append_nil, TextLocale.join_of_reads hnew]

/-- Where everything is text, the locale makes no difference. -/
theorem rewriteConfig_of_reads (more : Str → Option (TextFile → TextFile))
    (h : Ordinary '#' D) (hD : L.Reads D) {f : TextFile} (hf : ∀ l ∈ f.lines, L.Reads l) :
    (rewriteConfig L more D f).lines = setBaseDirs (pointedLine D) f.lines := by
  have hnew : L.Reads (pointedLine D) :=
    reads_opening.append (hD.append (TextLocale.reads_of_ascii (by decide)))
  rw [rewriteConfig_ordinary more h, repointed_eq hnew hf]

theorem rewriteConfig_posix (more : Str → Option (TextFile → TextFile))
    (h : Ordinary '#' D) (f : TextFile) :
    (rewriteConfig .posix more D f).lines = setBaseDirs (pointedLine D) f.lines :=
  rewriteConfig_of_reads more h (TextLocale.reads_posix D) fun l _ => TextLocale.reads_posix l

end Rewrite

end AutoTestKernel.StartTest
