import AutoTestKernel.Library.Locale

/-!
# The substitute command of GNU sed

How `sed` reads what stands behind the regular expression of an `s` command:
the replacement up to the next unescaped delimiter, the escapes in it, the
references to the match, and the options.  A script that does not parse is
rejected as a whole.  What the options `w` and `e` and further commands make
`sed` do beyond substituting is left open.

The regular expressions here match all of a line that is text of the locale, or
nothing: a line has at most one match, bytes that are no character and what
stands behind them stay as they are, and the only reference with a meaning is the
one to all of the match.
-/

namespace AutoTestKernel.Sed

open Text

/-! ## Reading the replacement -/

/-- The text before the first unescaped delimiter, and the text behind it.  An
escaped delimiter loses its backslash. -/
def splitReplacement (delim : Char) : Str → Option (Str × Str)
  | [] => none
  | '\\' :: c :: rest =>
      let kept := if c = newline ∨ (c = delim ∧ c ≠ '&') then [c] else ['\\', c]
      (splitReplacement delim rest).map fun r => (kept ++ r.1, r.2)
  | c :: rest =>
      if c = delim then some ([], rest)
      else if c = newline then none
      else (splitReplacement delim rest).map fun r => (c :: r.1, r.2)

inductive Reading
  | plain
  | escape
  | control
  | controlEscape
  | number (letter : Char) (base room : ℕ) (value : Option ℕ)
  deriving DecidableEq

def digitValue (base : ℕ) (c : Char) : Option ℕ :=
  let v :=
    if '0' ≤ c ∧ c ≤ '9' then c.toNat - '0'.toNat
    else if 'a' ≤ c ∧ c ≤ 'f' then c.toNat - 'a'.toNat + 10
    else if 'A' ≤ c ∧ c ≤ 'F' then c.toNat - 'A'.toNat + 10
    else base
  if v < base then some v else none

/-- The byte of a numeric escape.  One that would mean something in a
replacement stays escaped; an escape without digits is its letter. -/
def numberOutput (L : TextLocale) (letter : Char) : Option ℕ → Str
  | none => [letter]
  | some v =>
      let b := v % 256
      if b = '&'.toNat ∨ b = '\\'.toNat then '\\' :: L.decode [b] else L.decode [b]

def escapeOutput (c : Char) : Str × Reading :=
  if c = 'a' then (['\x07'], .plain)
  else if c = 'f' then (['\x0c'], .plain)
  else if c = 'n' ∨ c = newline then ([newline], .plain)
  else if c = 'r' then (['\r'], .plain)
  else if c = 't' then (['\t'], .plain)
  else if c = 'v' then (['\x0b'], .plain)
  else if c = 'c' then ([], .control)
  else if c = 'd' then ([], .number c 10 3 none)
  else if c = 'o' then ([], .number c 8 3 none)
  else if c = 'x' then ([], .number c 16 2 none)
  else (['\\', c], .plain)

/-- The bytes of a control character; of a longer character only the first byte
is changed. -/
def controlOutput (L : TextLocale) (c : Char) : Str :=
  match L.encode c with
  | [] => []
  | b :: bs => (((Char.ofNat b).toUpper.toNat ^^^ 64) :: bs).flatMap fun b => L.decode [b]

def plainOutput (c : Char) : Str × Reading :=
  if c = '\\' then ([], .escape) else ([c], .plain)

/-- One character of the replacement; `none` is an escape `sed` rejects. -/
def Reading.next (L : TextLocale) : Reading → Char → Option (Str × Reading)
  | .plain, c => some (plainOutput c)
  | .escape, c => some (escapeOutput c)
  | .control, c =>
      if c = '\\' then some ([], .controlEscape) else some (controlOutput L c, .plain)
  | .controlEscape, c => if c = '\\' then some (controlOutput L c, .plain) else none
  | .number letter base room value, c =>
      match digitValue base c with
      | some v =>
          let value' := value.getD 0 * base + v
          if room ≤ 1 then some (numberOutput L letter (some value'), .plain)
          else some ([], .number letter base (room - 1) (some value'))
      | none =>
          let rest := plainOutput c
          some (numberOutput L letter value ++ rest.1, rest.2)

/-- What is left over when the replacement ends inside an escape. -/
def Reading.flush (L : TextLocale) : Reading → Str
  | .plain => []
  | .number letter _ _ value => numberOutput L letter value
  | _ => ['\\']

def unescape (L : TextLocale) : Reading → Str → Option Str
  | r, [] => some (r.flush L)
  | r, c :: rest =>
      match r.next L c with
      | none => none
      | some (out, r') => (unescape L r' rest).map (out ++ ·)

/-! ## Substituting -/

inductive CaseOp
  | lower | upper | plain | lowerNext | upperNext
  deriving DecidableEq

inductive Piece
  | text (s : Str)
  | group (n : ℕ)
  | case (op : CaseOp)
  deriving DecidableEq

def prepend (s : Str) : List Piece → List Piece
  | .text t :: ps => .text (s ++ t) :: ps
  | ps => if s = [] then ps else .text s :: ps

/-- What stands behind a backslash.  A character with no meaning there ends the
text before it with its first byte. -/
def escapedPieces (L : TextLocale) (c : Char) (ps : List Piece) : List Piece :=
  if '0' ≤ c ∧ c ≤ '9' then .group (c.toNat - '0'.toNat) :: ps
  else if c = 'L' then .case .lower :: ps
  else if c = 'U' then .case .upper :: ps
  else if c = 'E' then .case .plain :: ps
  else if c = 'l' then .case .lowerNext :: ps
  else if c = 'u' then .case .upperNext :: ps
  else .text (L.decode ((L.encode c).take 1)) :: prepend (L.decode ((L.encode c).drop 1)) ps

def pieces (L : TextLocale) : Str → List Piece
  | [] => []
  | '\\' :: c :: rest => escapedPieces L c (pieces L rest)
  | c :: rest => if c = '&' then .group 0 :: pieces L rest else prepend [c] (pieces L rest)

/-- The case conversion in force, and the one for the next character alone. -/
structure CaseState where
  mode : CaseOp := .plain
  once : Option CaseOp := none

/-- Bytes that are no character have no case. -/
def CaseOp.convert (L : TextLocale) (c : Char) (op : CaseOp) : Char :=
  if L.isChar c then
    match op with
    | .lower | .lowerNext => L.lower c
    | .upper | .upperNext => L.upper c
    | .plain => c
  else c

def CaseState.switch (st : CaseState) : CaseOp → CaseState
  | .lowerNext => { st with once := some .lowerNext }
  | .upperNext => { st with once := some .upperNext }
  | op => { mode := op }

def CaseState.emit (L : TextLocale) (st : CaseState) : Str → Str
  | [] => []
  | c :: cs => (st.once.getD st.mode).convert L c :: cs.map fun c => st.mode.convert L c

def CaseState.after (st : CaseState) (s : Str) : CaseState :=
  if s = [] then st else { st with once := none }

def render (L : TextLocale) (m : Str) : CaseState → List Piece → Str
  | _, [] => []
  | st, .text s :: ps => st.emit L (L.join s) ++ render L m (st.after s) ps
  | st, .group _ :: ps => st.emit L m ++ render L m (st.after m) ps
  | st, .case op :: ps => render L m (st.switch op) ps

/-! ## Options -/

structure Flags where
  global : Bool := false
  print : Bool := false
  icase : Bool := false
  multi : Bool := false
  number : Option ℕ := none
  reading : Bool := false
  deriving DecidableEq

inductive FlagsResult
  | rejected
  | ready (f : Flags)
  | more
  deriving DecidableEq

/-- Is there a command behind the substitution, or an end that closes nothing?
Blanks, semicolons and comments are none. -/
def goesOn : Bool → Str → Bool
  | _, [] => false
  | true, c :: rest => goesOn (c ≠ newline) rest
  | false, c :: rest =>
      if c = '#' then goesOn true rest
      else if c = ';' ∨ c = ' ' ∨ ('\t' ≤ c ∧ c ≤ '\r') then goesOn false rest
      else true

/-- The number of values of an unsigned long. -/
def ulongs : ℕ := 18446744073709551616

/-- The options behind the replacement, and whether the script ends behind them. -/
def parseFlags : Flags → Str → FlagsResult
  | f, [] => if f.reading ∧ f.number = some 0 then .rejected else .ready f
  | f, c :: rest =>
      if '0' ≤ c ∧ c ≤ '9' then
        if f.number.isSome ∧ ¬ f.reading then .rejected
        else
          let number := (f.number.getD 0 * 10 + (c.toNat - '0'.toNat)) % ulongs
          parseFlags { f with number := some number, reading := true } rest
      else if f.reading ∧ f.number = some 0 then .rejected
      else
        let f := { f with reading := false }
        if c = 'g' then
          if f.global then .rejected else parseFlags { f with global := true } rest
        else if c = 'p' then
          if f.print then .rejected else parseFlags { f with print := true } rest
        else if c = 'i' ∨ c = 'I' then parseFlags { f with icase := true } rest
        else if c = 'm' ∨ c = 'M' then parseFlags { f with multi := true } rest
        else if c = ' ' ∨ c = '\t' then parseFlags f rest
        else if c = 'w' ∨ c = 'e' then .more
        else if c = '#' ∨ c = ';' ∨ c = newline ∨ (c = '\r' ∧ rest.head? = some newline) then
          if goesOn (c = '#') rest then .more else .ready f
        else .rejected

inductive Compiled
  | rejected
  | substitute (repl : List Piece) (flags : Flags)
  | beyond
  deriving DecidableEq

def invalidReference : Piece → Bool
  | .group n => n ≠ 0
  | _ => false

def compile (L : TextLocale) (delim : Char) (script : Str) : Compiled :=
  match splitReplacement delim script with
  | none => .rejected
  | some (raw, options) =>
      match unescape L .plain raw with
      | none => .rejected
      | some text =>
          match parseFlags {} options with
          | .rejected => .rejected
          | .more => .beyond
          | .ready flags =>
              if (pieces L text).any invalidReference then .rejected
              else .substitute (pieces L text) flags

/-! ## Editing in place -/

section InPlace

variable (L : TextLocale) (hit : Bool → Str → Bool)

def Flags.Applies (flags : Flags) (l : Str) : Prop :=
  hit flags.icase (L.readable l) = true ∧ flags.number.getD 1 ≤ 1

instance (flags : Flags) (l : Str) : Decidable (flags.Applies L hit l) :=
  inferInstanceAs (Decidable (_ ∧ _))

/-- The line with its readable part replaced. -/
def replaced (repl : List Piece) (l : Str) : Str :=
  L.join (render L (L.readable l) {} repl ++ L.unread l)

/-- A line with a match is replaced, unless the command asks for a later match
than the only one; `p` prints the result a second time. -/
def editLine (repl : List Piece) (flags : Flags) (l : Str) : List Str :=
  if flags.Applies L hit l then
    let out := splitLines (replaced L repl l)
    if flags.print then out ++ out else out
  else [l]

theorem newline_notMem_editLine {repl : List Piece} {flags : Flags} {l m : Str}
    (hl : newline ∉ l) (h : m ∈ editLine L hit repl flags l) : newline ∉ m := by
  simp only [editLine] at h
  split at h
  · split at h
    · rcases List.mem_append.mp h with h | h <;> exact newline_notMem_of_mem_splitLines h
    · exact newline_notMem_of_mem_splitLines h
  · rwa [List.mem_singleton.mp h]

/-- `sed -i` with one `s` command. -/
def inPlace (repl : List Piece) (flags : Flags) (f : TextFile) : TextFile where
  lines := f.lines.flatMap (editLine L hit repl flags)
  newline_notMem := by
    intro m hm
    obtain ⟨l, hl, hm⟩ := List.mem_flatMap.mp hm
    exact newline_notMem_editLine L hit (f.newline_notMem l hl) hm

/-- `sed -i` with a script that starts with an `s` command.  `more` is what the
options and commands behind it make of the file; `none` is a script `sed`
rejects, which leaves the file alone. -/
def Compiled.run (more : Option (TextFile → TextFile)) (f : TextFile) : Compiled → TextFile
  | .rejected => f
  | .substitute repl flags => inPlace L hit repl flags f
  | .beyond =>
      match more with
      | none => f
      | some edit => edit f

end InPlace

/-! ## Ordinary text

Text without a delimiter, backslash or ampersand stands for itself.
-/

def Ordinary (delim : Char) (u : Str) : Prop :=
  ∀ c ∈ u, c ≠ '\\' ∧ c ≠ '&' ∧ c ≠ delim ∧ c ≠ newline

instance (delim : Char) (u : Str) : Decidable (Ordinary delim u) :=
  List.decidableBAll _ u

theorem Ordinary.append {delim : Char} {u v : Str} (hu : Ordinary delim u)
    (hv : Ordinary delim v) : Ordinary delim (u ++ v) := fun c hc =>
  (List.mem_append.mp hc).elim (hu c) (hv c)

theorem Ordinary.newline_notMem {delim : Char} {u : Str} (h : Ordinary delim u) :
    newline ∉ u := fun hmem => (h newline hmem).2.2.2 rfl

theorem splitReplacement_escape {delim c : Char} (hc : c ≠ newline ∧ c ≠ delim)
    (rest : Str) :
    splitReplacement delim ('\\' :: c :: rest) =
      (splitReplacement delim rest).map fun r => ('\\' :: c :: r.1, r.2) := by
  simp [splitReplacement, hc]

theorem splitReplacement_ordinary {delim : Char} {u : Str} (h : Ordinary delim u)
    (rest : Str) :
    splitReplacement delim (u ++ rest) =
      (splitReplacement delim rest).map fun r => (u ++ r.1, r.2) := by
  induction u with
  | nil => simp
  | cons c u ih =>
      obtain ⟨hesc, -, hdelim, hnewline⟩ := h c (by simp)
      have htail : Ordinary delim u := fun d hd => h d (List.mem_cons_of_mem c hd)
      rw [List.cons_append, splitReplacement.eq_3 _ _ _ (fun _ _ hc => absurd hc hesc),
        if_neg hdelim, if_neg hnewline, ih htail, Option.map_map]
      rfl

theorem unescape_ordinary {L : TextLocale} {delim : Char} {u : Str} (h : Ordinary delim u)
    (rest : Str) : unescape L .plain (u ++ rest) = (unescape L .plain rest).map (u ++ ·) := by
  induction u with
  | nil => simp
  | cons c u ih =>
      have hesc : c ≠ '\\' := (h c (by simp)).1
      have htail : Ordinary delim u := fun d hd => h d (List.mem_cons_of_mem c hd)
      simp [unescape, Reading.next, plainOutput, hesc, ih htail, Function.comp_def]

@[simp] theorem prepend_nil (ps : List Piece) : prepend [] ps = ps := by
  cases ps with
  | nil => rfl
  | cons p ps => cases p <;> rfl

theorem prepend_prepend (s t : Str) (ps : List Piece) :
    prepend s (prepend t ps) = prepend (s ++ t) ps := by
  cases t with
  | nil => simp
  | cons c t =>
      cases ps with
      | nil => simp [prepend]
      | cons p ps => cases p <;> simp [prepend]

theorem pieces_ordinary {L : TextLocale} {delim : Char} {u : Str} (h : Ordinary delim u)
    (rest : Str) : pieces L (u ++ rest) = prepend u (pieces L rest) := by
  induction u with
  | nil => simp
  | cons c u ih =>
      obtain ⟨hesc, hamp, -, -⟩ := h c (by simp)
      have htail : Ordinary delim u := fun d hd => h d (List.mem_cons_of_mem c hd)
      rw [List.cons_append, pieces.eq_3 _ _ _ (fun _ _ hc => absurd hc hesc), if_neg hamp,
        ih htail, prepend_prepend]
      rfl

@[simp] theorem emit_plain (L : TextLocale) (s : Str) : ({} : CaseState).emit L s = s := by
  have hplain : ∀ c, CaseOp.plain.convert L c = c := fun c => ite_self c
  cases s with
  | nil => rfl
  | cons c s => simp [CaseState.emit, hplain]

@[simp] theorem after_plain (s : Str) : ({} : CaseState).after s = {} := ite_self _

/-- Text at the start of a replacement is written as it is. -/
theorem render_prepend {L : TextLocale} {u : Str} (hu : L.Reads u) (m : Str) (ps : List Piece) :
    render L m {} (prepend u ps) = u ++ render L m {} ps := by
  have hjoin : L.join u = u := TextLocale.join_of_reads hu
  cases u with
  | nil => simp
  | cons c u =>
      cases ps with
      | nil => simp [prepend, render, hjoin]
      | cons p ps =>
          cases p with
          | text t =>
              have hsplit : L.join (c :: u ++ t) = c :: u ++ L.join t := TextLocale.join_append hu t
              simp only [prepend, render, emit_plain, after_plain, hsplit, List.append_assoc]
          | group n => simp [prepend, render, hjoin]
          | case op => simp [prepend, render, hjoin]

/-! ## Newlines in a replacement -/

def Piece.Breaks : Piece → Prop
  | .text s => newline ∈ s
  | _ => False

instance : (p : Piece) → Decidable p.Breaks
  | .text _ => inferInstanceAs (Decidable (_ ∈ _))
  | .group _ | .case _ => isFalse id

section Render

variable {L : TextLocale} {m : Str}

theorem convert_eq_newline_iff (op : CaseOp) (c : Char) :
    op.convert L c = newline ↔ c = newline := by
  unfold CaseOp.convert
  split
  · cases op with
    | lower | lowerNext => exact L.lower_newline c
    | upper | upperNext => exact L.upper_newline c
    | plain => rfl
  · rfl

theorem newline_mem_emit_iff (st : CaseState) (s : Str) :
    newline ∈ st.emit L s ↔ newline ∈ s := by
  cases s with
  | nil => rfl
  | cons c s =>
      simp only [CaseState.emit, List.mem_cons, List.mem_map]
      constructor
      · rintro (h | ⟨d, hd, h⟩)
        · exact Or.inl ((convert_eq_newline_iff _ c).mp h.symm).symm
        · exact Or.inr ((convert_eq_newline_iff _ d).mp h ▸ hd)
      · rintro (h | h)
        · exact Or.inl ((convert_eq_newline_iff _ c).mpr h.symm).symm
        · exact Or.inr ⟨newline, h, (convert_eq_newline_iff _ _).mpr rfl⟩

theorem newline_mem_render_iff (hm : newline ∉ m) (st : CaseState) (ps : List Piece) :
    newline ∈ render L m st ps ↔ ∃ p ∈ ps, p.Breaks := by
  induction ps generalizing st with
  | nil => simp [render]
  | cons p ps ih =>
      cases p with
      | text s => simp [render, newline_mem_emit_iff, TextLocale.newline_mem_join, ih, Piece.Breaks]
      | group n => simp [render, newline_mem_emit_iff, ih, hm, Piece.Breaks]
      | case op => simp [render, ih, Piece.Breaks]

/-! ## Text of the locale -/

theorem isChar_convert (op : CaseOp) {c : Char} (hc : L.isChar c = true) :
    L.isChar (op.convert L c) = true := by
  unfold CaseOp.convert
  rw [if_pos hc]
  cases op with
  | lower | lowerNext => exact L.isChar_lower c hc
  | upper | upperNext => exact L.isChar_upper c hc
  | plain => exact hc

theorem reads_emit (st : CaseState) {s : Str} (hs : L.Reads s) : L.Reads (st.emit L s) := by
  cases s with
  | nil => exact hs
  | cons c s =>
      obtain ⟨hc, hs⟩ := List.forall_mem_cons.mp hs
      refine List.forall_mem_cons.mpr ⟨isChar_convert _ hc, fun d hd => ?_⟩
      obtain ⟨e, he, rfl⟩ := List.mem_map.mp hd
      exact isChar_convert _ (hs e he)

theorem reads_render (hm : L.Reads m) {ps : List Piece}
    (hps : ∀ s, .text s ∈ ps → L.Reads (L.join s)) (st : CaseState) :
    L.Reads (render L m st ps) := by
  induction ps generalizing st with
  | nil => simp [render, TextLocale.Reads]
  | cons p ps ih =>
      have hrest := ih fun s hs => hps s (List.mem_cons_of_mem p hs)
      cases p with
      | text s => exact (reads_emit st (hps s List.mem_cons_self)).append (hrest _)
      | group n => exact (reads_emit st hm).append (hrest _)
      | case op => exact hrest _

end Render

end AutoTestKernel.Sed
