import AutoTestKernel.Library.Text
import Mathlib.Data.List.DropRight

/-!
# Shell patterns on pathnames

Pathname expansion as bash does it without its extended patterns: `*`, `?`,
bracket expressions and backslash escapes.  Where bash cannot tell at once what
a text is, it goes by what it finds: a word with nothing that could be a pattern
is not expanded at all, escapes included, and a bracket that is never closed
stands for itself.  No wildcard reaches over a slash, and a leading dot has to be
matched explicitly.  Character classes and ranges are those of the C locale.
-/

namespace AutoTestKernel.Pathname

/-! ## Bracket expressions -/

/-- The named classes `[:name:]` on ASCII characters. -/
def inNamedClass (name : Str) (c : Char) : Bool :=
  let graph := '!' ≤ c && c ≤ '~'
  if name = "alpha".toList then c.isAlpha
  else if name = "digit".toList then c.isDigit
  else if name = "alnum".toList then c.isAlphanum
  else if name = "word".toList then c.isAlphanum || c = '_'
  else if name = "upper".toList then c.isUpper
  else if name = "lower".toList then c.isLower
  else if name = "blank".toList then c = ' ' || c = '\t'
  else if name = "space".toList then c = ' ' || ('\t' ≤ c && c ≤ '\r')
  else if name = "graph".toList then graph
  else if name = "print".toList then c = ' ' || graph
  else if name = "punct".toList then graph && !c.isAlphanum
  else if name = "cntrl".toList then c.toNat < 32 || c.toNat = 127
  else if name = "xdigit".toList then
    c.isDigit || ('a' ≤ c && c ≤ 'f') || ('A' ≤ c && c ≤ 'F')
  else if name = "ascii".toList then c.toNat < 128
  else false

/-- The names of collating symbols `[.name.]`, with their codes. -/
def collatingNames : List (String × ℕ) :=
  [("NUL", 0), ("SOH", 1), ("STX", 2), ("ETX", 3), ("EOT", 4), ("ENQ", 5), ("ACK", 6),
    ("alert", 7), ("BS", 8), ("backspace", 8), ("HT", 9), ("tab", 9), ("LF", 10),
    ("newline", 10), ("VT", 11), ("vertical-tab", 11), ("FF", 12), ("form-feed", 12),
    ("CR", 13), ("carriage-return", 13), ("SO", 14), ("SI", 15), ("DLE", 16), ("DC1", 17),
    ("DC2", 18), ("DC3", 19), ("DC4", 20), ("NAK", 21), ("SYN", 22), ("ETB", 23), ("CAN", 24),
    ("EM", 25), ("SUB", 26), ("ESC", 27), ("IS4", 28), ("FS", 28), ("IS3", 29), ("GS", 29),
    ("IS2", 30), ("RS", 30), ("IS1", 31), ("US", 31), ("space", 32), ("exclamation-mark", 33),
    ("quotation-mark", 34), ("number-sign", 35), ("dollar-sign", 36), ("percent-sign", 37),
    ("ampersand", 38), ("apostrophe", 39), ("left-parenthesis", 40), ("right-parenthesis", 41),
    ("asterisk", 42), ("plus-sign", 43), ("comma", 44), ("hyphen", 45), ("hyphen-minus", 45),
    ("minus", 45), ("dash", 45), ("period", 46), ("full-stop", 46), ("slash", 47),
    ("solidus", 47), ("zero", 48), ("one", 49), ("two", 50), ("three", 51), ("four", 52),
    ("five", 53), ("six", 54), ("seven", 55), ("eight", 56), ("nine", 57), ("colon", 58),
    ("semicolon", 59), ("less-than-sign", 60), ("equals-sign", 61), ("greater-than-sign", 62),
    ("question-mark", 63), ("commercial-at", 64), ("left-square-bracket", 91),
    ("backslash", 92), ("reverse-solidus", 92), ("right-square-bracket", 93),
    ("circumflex", 94), ("circumflex-accent", 94), ("underscore", 95), ("grave-accent", 96),
    ("left-brace", 123), ("left-curly-bracket", 123), ("vertical-line", 124),
    ("right-brace", 125), ("right-curly-bracket", 125), ("tilde", 126), ("DEL", 127)]

def collatingCode (name : Str) : Option ℕ :=
  match collatingNames.find? fun x => x.1.toList = name, name with
  | some x, _ => some x.2
  | none, [c] => some c.toNat
  | none, _ => none

/-- Without the backslashes that escape a character. -/
def dequote : Str → Str
  | [] => []
  | ['\\'] => []
  | '\\' :: c :: s => c :: dequote s
  | c :: s => c :: dequote s

/-- The text before the two characters `mark` and `]`, and the text behind them. -/
def untilClose (mark : Char) : Str → Option (Str × Str)
  | [] => none
  | c :: rest =>
      if c = mark ∧ rest.head? = some ']' then some ([], rest.tail)
      else (untilClose mark rest).map fun r => (c :: r.1, r.2)

/-- What reading a bracket expression for one character comes to, with the text
that is still to be read. -/
inductive Scan
  | unclosed
  | failed
  | matched (rest : Str)
  | closed (rest : Str)

/-- A collating symbol behind `[.`: its code, and the text behind it. -/
def collatingSymbol (invalid : ℕ) (p : Str) : ℕ × Str :=
  match untilClose '.' p with
  | some (name, rest) => ((collatingCode name).getD invalid, rest)
  | none => (invalid, [])

/-- The end of a range, behind its `-`. -/
def rangeEnd (x : Char) (p : Str) : Option (ℕ × Str) :=
  let last : Char → Str → ℕ × Str := fun c rest =>
    match c, rest with
    | '[', '.' :: rest => collatingSymbol (x.toNat - 1) rest
    | c, rest => (c.toNat, rest)
  match p with
  | [] => none
  | ['\\'] => none
  | '\\' :: c :: rest => some (last c rest)
  | c :: rest => some (last c rest)

/-- Does `x` fall under one of the elements up to the closing bracket?  A bracket
closes the expression only behind an element that can be compared; a class
that does not hold is not the start of a range. -/
def scanElements (x : Char) : ℕ → Str → Scan
  | n + 1, '[' :: '=' :: c :: '=' :: ']' :: p =>
      if c = x then .matched p else scanElements x n p
  | n + 1, '[' :: ':' :: p =>
      match untilClose ':' p with
      | some (name, rest) =>
          if inNamedClass (dequote name) x then .matched rest
          else if rest.head? = some ']' then .closed rest.tail
          else scanElements x n rest
      | none => scanElements x n (':' :: p)
  | n + 1, c :: p =>
      let first : Option (ℕ × Str) :=
        match c, p with
        | '[', '.' :: p => some (collatingSymbol (x.toNat + 1) p)
        | '\\', [] => none
        | '\\', c :: p => some (c.toNat, p)
        | c, p => some (c.toNat, p)
      match first with
      | none => .failed
      | some (_, []) => .unclosed
      | some (_, '/' :: _) => .failed
      | some (lo, '-' :: p) =>
          if p.head? = some ']' then
            if lo = x.toNat then .matched ('-' :: p) else scanElements x n ('-' :: p)
          else
            match rangeEnd x p with
            | none => .failed
            | some (hi, rest) =>
                if lo ≤ x.toNat ∧ x.toNat ≤ hi then .matched rest
                else if rest.head? = some ']' then .closed rest.tail
                else scanElements x n rest
      | some (lo, rest) =>
          if lo = x.toNat then .matched rest
          else if rest.head? = some ']' then .closed rest.tail
          else scanElements x n rest
  | _, _ => .unclosed

/-- The rest of an expression of which an element has matched: how deep the
brackets are, the mark behind the last one, and the character before. -/
def skipElements : ℕ → ℕ → Option Char → Option Char → Str → Scan
  | n + 1, depth, mark, _, '[' :: m :: p =>
      if m = '=' ∨ m = ':' ∨ m = '.' then
        if p = [] then .unclosed else skipElements n (depth + 1) (some m) p.head? p
      else skipElements n depth mark (some '[') (m :: p)
  | n + 1, depth, mark, before, ']' :: p =>
      if 1 < depth ∧ mark.isSome = true ∧ before = mark then
        skipElements n (depth - 1) none (some ']') p
      else if mark ≠ some '.' then .closed p
      else skipElements n depth mark (some ']') p
  | _ + 1, _, _, _, ['\\'] => .failed
  | n + 1, depth, mark, _, '\\' :: _ :: p => skipElements n depth mark (some '\\') p
  | n + 1, depth, mark, _, c :: p => skipElements n depth mark (some c) p
  | _, _, _, _, _ => .unclosed

/-- The pattern behind a bracket expression that accepts `x`, or behind a
bracket that is not the start of one and is `x` itself. -/
def bracket (x : Char) (p : Str) : Option Str :=
  let negated := p.head? = some '!' ∨ p.head? = some '^'
  let itself := if x = '[' then some p else none
  match scanElements x (p.length + 1) (if negated then p.tail else p) with
  | .unclosed => itself
  | .failed => none
  | .closed rest => if negated then some rest else none
  | .matched rest =>
      match skipElements (p.length + 1) 1 none rest.head? rest with
      | .unclosed => itself
      | .closed rest => if negated then none else some rest
      | _ => none

/-! ## Patterns and names -/

/-- The pattern behind its next token, which has accepted `x`; `last` says that
`x` is the end of the text. -/
def token (x : Char) (last : Bool) : Str → Option Str
  | [] => none
  | '?' :: p => some p
  | '[' :: p => bracket x p
  | ['\\'] => if x = '\\' ∧ last = true then some [] else none
  | '\\' :: c :: p => if c = x then some p else none
  | c :: p => if c = x then some p else none

/-- Up to the next star, or to the end of the pattern. -/
def stretch : Str → Str → Option (Str × Str)
  | [], s => some ([], s)
  | '*' :: p, s => some ('*' :: p, s)
  | _ :: _, [] => none
  | c :: p, x :: s =>
      match token x s.isEmpty (c :: p) with
      | some p' => stretch p' s
      | none => none

/-- The stars and question marks behind a star. -/
def collapse : Str → Str → Option (Str × Str)
  | '*' :: p, s => collapse p s
  | '?' :: p, _ :: s => collapse p s
  | '?' :: _, [] => none
  | p, s => some (p, s)

/-- What stands behind a star, tried from left to right.  The number bounds the
stars there are. -/
def behindStar : ℕ → Str → Str → Bool
  | 0, _, _ => false
  | n + 1, p, s =>
      match collapse p s with
      | none => false
      | some ([], _) => true
      | some (['\\'], _) => false
      | some (p, s) =>
          let ending := s.tails.findSome? fun s' =>
            if s' = [] then none
            else (stretch p s').filter fun r => !r.1.isEmpty || r.2.isEmpty
          match ending with
          | none => false
          | some ([], _) => true
          | some (_ :: p, s) => behindStar n p s

def accepts (p s : Str) : Bool :=
  match stretch p s with
  | none => false
  | some ([], rest) => rest.isEmpty
  | some (_ :: p', rest) => behindStar p.length p' rest

/-- What a character says about a text that could be a pattern: that it is one,
or else whether a bracket is open behind it.  In a word a slash closes the
brackets, and counts like the operators of extended patterns. -/
def seen (word opened : Bool) (c : Char) (next : Option Char) : Option Bool :=
  if c = '*' ∨ c = '?' ∨ (c = ']' ∧ opened = true) then none
  else if next = some '(' ∧ (c = '+' ∨ c = '@' ∨ c = '!' ∨ (c = '/' ∧ word = true)) then none
  else if c = '[' then some true
  else if c = '/' ∧ word = true then some false
  else some opened

/-- Is there anything in the text that could be a pattern?  A backslash at its
end gives up the search. -/
def hasGlob (word : Bool) : Bool → Str → Bool
  | _, [] => false
  | _, ['\\'] => false
  | opened, '\\' :: _ :: p => hasGlob word opened p
  | opened, c :: p =>
      match seen word opened c p.head? with
      | none => true
      | some opened => hasGlob word opened p

/-- A component of a pathname against the name of an entry. -/
def nameMatches (p name : Str) : Bool :=
  if hasGlob false false p then
    name ≠ [] && name ≠ ['.'] && name ≠ ['.', '.'] &&
      (name.head? ≠ some '.' || p.head? = some '.' || ['\\', '.'] <+: p) && accepts p name
  else name = dequote p

/-- The components of a directory, the last one first, with the slashes behind them. -/
def directory : List Str → Str
  | [] => []
  | c :: cs => directory cs ++ (c ++ ['/'])

/-- Does the directory of a pattern expand to the directory `x`?  An empty
component behind a wildcard is dropped. -/
def directoryMatches : List Str → Str → Bool
  | [], x => x = []
  | c :: cs, x =>
      if hasGlob false false (directory (c :: cs)) then
        (nameMatches c [] && directoryMatches cs x) ||
          (x.getLast? = some '/' && x.dropLast.rtakeWhile (· ≠ '/') ≠ [] &&
            nameMatches c (x.dropLast.rtakeWhile (· ≠ '/')) &&
              directoryMatches cs (x.dropLast.rdropWhile (· ≠ '/')))
      else x = dequote (directory (c :: cs))

/-- The components of a pathname, the last one first. -/
def components (p : Str) : List Str := (p.splitOn '/').reverse

def pathMatches (p path : Str) : Bool :=
  match components p with
  | [] => false
  | c :: cs =>
      directoryMatches cs (path.rdropWhile (· ≠ '/')) &&
        nameMatches c (path.rtakeWhile (· ≠ '/'))

def isPattern (w : Str) : Bool := hasGlob true false w

/-- A directory that no expansion can replace: it holds nothing that could be a
pattern, or it is a pattern for itself alone. -/
def Literal (d : Str) : Prop :=
  isPattern d = true →
    ∀ x, directoryMatches (components d) x = true → x = d ++ ['/']

/-! ## What could be a pattern -/

theorem ne_backslash_of_dequote {c : Char} {s : Str} (hend : c = '\\' → s = [] → False)
    (hesc : ∀ d s', c = '\\' → s = d :: s' → False) : c ≠ '\\' := by
  intro hc
  cases s with
  | nil => exact hend hc rfl
  | cons d s => exact hesc d s hc rfl

theorem hasGlob_cons {word opened : Bool} {c : Char} (hc : c ≠ '\\') (p : Str) :
    hasGlob word opened (c :: p) =
      match seen word opened c p.head? with
      | none => true
      | some opened => hasGlob word opened p :=
  hasGlob.eq_4 word opened c p (fun h _ => hc h) (fun _ _ h _ => hc h)

/-- What was a pattern stays one when more text follows. -/
theorem hasGlob_append {word opened : Bool} {s : Str} (h : hasGlob word opened s = true)
    (t : Str) : hasGlob word opened (s ++ t) = true := by
  induction s using dequote.induct generalizing opened with
  | case1 => simp [hasGlob] at h
  | case2 => simp [hasGlob] at h
  | case3 c s ih => exact ih h
  | case4 c s hend hesc ih =>
      have hc := ne_backslash_of_dequote hend hesc
      rw [hasGlob_cons hc] at h
      rw [List.cons_append, hasGlob_cons hc]
      cases s with
      | nil =>
          have hseen : seen word opened c none = none := by
            cases hnext : seen word opened c none with
            | none => rfl
            | some o => simp [hnext, hasGlob] at h
          have hmore : seen word opened c t.head? = none := by
            unfold seen at hseen ⊢
            grind
          simp [hmore]
      | cons d s =>
          cases hnext : seen word opened c (some d) with
          | none => simp [hnext]
          | some o =>
              simp only [List.head?_cons, hnext] at h
              simpa [hnext] using ih h

/-- Without any character that means something in a pattern. -/
def Flat (n : Str) : Prop := ∀ c ∈ n, c ∉ ['*', '?', '[', ']', '(', '\\']

instance (n : Str) : Decidable (Flat n) := List.decidableBAll _ n

theorem Flat.head_ne {n : Str} (h : Flat n) : n.head? ≠ some '(' := by
  intro hhead
  have hparen := h _ (List.mem_of_head? hhead)
  simp at hparen

theorem hasGlob_flat {word opened : Bool} {n : Str} (h : Flat n) :
    hasGlob word opened n = false := by
  induction n generalizing opened with
  | nil => simp [hasGlob]
  | cons c n ih =>
      obtain ⟨hc, hn⟩ := List.forall_mem_cons.mp h
      have hhead := Flat.head_ne hn
      obtain ⟨o, hseen⟩ : ∃ o, seen word opened c n.head? = some o := by
        simp at hc
        by_cases hslash : c = '/' ∧ word = true
        · exact ⟨false, by simp [seen, hhead, hslash]⟩
        · exact ⟨opened, by simp [seen, hc, hhead, hslash]⟩
      have hesc : c ≠ '\\' := fun he => hc (by simp [he])
      rw [hasGlob_cons hesc, hseen]
      exact ih hn

/-- A flat text below a directory adds nothing that could be a pattern. -/
theorem hasGlob_join {opened : Bool} (d : Str) {n : Str} (hn : Flat n) :
    hasGlob true opened (d ++ '/' :: n) = hasGlob true opened d := by
  induction d using dequote.induct generalizing opened with
  | case1 =>
      have hslash : seen true opened '/' n.head? = some false := by
        simp [seen, hn.head_ne]
      rw [List.nil_append, hasGlob_cons (by decide), hslash]
      simp [hasGlob_flat hn, hasGlob]
  | case2 =>
      change hasGlob true opened n = false
      exact hasGlob_flat hn
  | case3 c d ih => exact ih
  | case4 c d hend hesc ih =>
      have hc := ne_backslash_of_dequote hend hesc
      have hseen : seen true opened c (d ++ '/' :: n).head? = seen true opened c d.head? := by
        cases d <;> simp [seen]
      rw [List.cons_append, hasGlob_cons hc, hasGlob_cons hc, hseen]
      cases seen true opened c d.head? with
      | none => rfl
      | some o => exact ih

/-- Flat, and the name of one component. -/
def Simple (n : Str) : Prop := Flat n ∧ '/' ∉ n

instance (n : Str) : Decidable (Simple n) := inferInstanceAs (Decidable (_ ∧ _))

theorem isPattern_join (d : Str) {n : Str} (hn : Flat n) :
    isPattern (d ++ '/' :: n) = isPattern d :=
  hasGlob_join d hn

/-! ## Patterns for themselves -/

def Plain (n : Str) : Prop := ∀ c ∈ n, c ≠ '*' ∧ c ≠ '?' ∧ c ≠ '[' ∧ c ≠ '\\'

instance (n : Str) : Decidable (Plain n) := List.decidableBAll _ n

theorem Flat.plain {n : Str} (h : Flat n) : Plain n := fun c hc => by
  have hc := h c hc
  simp at hc
  simp [hc]

theorem Plain.append {s t : Str} (hs : Plain s) (ht : Plain t) : Plain (s ++ t) := fun c hc =>
  (List.mem_append.mp hc).elim (hs c) (ht c)

theorem Plain.of_append_left {s t : Str} (h : Plain (s ++ t)) : Plain s :=
  fun c hc => h c (List.mem_append_left t hc)

theorem Plain.of_append_right {s t : Str} (h : Plain (s ++ t)) : Plain t :=
  fun c hc => h c (List.mem_append_right s hc)

theorem dequote_cons {c : Char} (hc : c ≠ '\\') (s : Str) : dequote (c :: s) = c :: dequote s :=
  dequote.eq_4 c s (fun h _ => hc h) (fun _ _ h _ => hc h)

theorem dequote_plain {n : Str} (h : Plain n) : dequote n = n := by
  induction n with
  | nil => rfl
  | cons c n ih =>
      obtain ⟨hc, hn⟩ := List.forall_mem_cons.mp h
      rw [dequote_cons hc.2.2.2, ih hn]

theorem stretch_plain {n : Str} (h : Plain n) {s : Str} {r : Str × Str} :
    stretch n s = some r ↔ ∃ rest, s = n ++ rest ∧ r = ([], rest) := by
  induction n generalizing s with
  | nil => simp [stretch, eq_comm]
  | cons c n ih =>
      obtain ⟨⟨hstar, hany, hset, hesc⟩, hn⟩ := List.forall_mem_cons.mp h
      cases s with
      | nil => simp [stretch]
      | cons x s =>
          have htoken : token x s.isEmpty (c :: n) = if c = x then some n else none := by
            rw [token]
            · exact hany
            · exact hset
            · exact fun he _ => hesc he
            · exact fun _ _ he _ => hesc he
          have hstep : stretch (c :: n) (x :: s) = if c = x then stretch n s else none := by
            rw [stretch, htoken]
            · split <;> simp_all
            · exact hstar
          rw [hstep]
          by_cases hcx : c = x
          · rw [if_pos hcx, ih hn]
            simp [hcx]
          · simp [hcx, Ne.symm hcx]

theorem accepts_plain {n : Str} (h : Plain n) (s : Str) : accepts n s = true ↔ s = n := by
  rw [accepts]
  cases hs : stretch n s with
  | none =>
      have hno : s ≠ n := by
        rintro rfl
        have hself := (stretch_plain h (s := s) (r := ([], []))).mpr ⟨[], by simp, rfl⟩
        simp [hs] at hself
      simp [hno]
  | some r =>
      obtain ⟨rest, rfl, rfl⟩ := (stretch_plain h).mp hs
      simp

theorem nameMatches_plain {n : Str} (h : Plain n) (s : Str) :
    nameMatches n s = true ↔ s = n := by
  unfold nameMatches
  split
  · next hglob =>
      simp only [Bool.and_eq_true, accepts_plain h]
      refine ⟨fun hs => hs.2, ?_⟩
      rintro rfl
      refine ⟨⟨⟨⟨?_, ?_⟩, ?_⟩, ?_⟩, rfl⟩
      · refine decide_eq_true ?_
        rintro rfl
        simp [hasGlob] at hglob
      · refine decide_eq_true ?_
        rintro rfl
        revert hglob
        decide
      · refine decide_eq_true ?_
        rintro rfl
        revert hglob
        decide
      · by_cases hdot : s.head? = some '.' <;> simp [hdot]
  · rw [decide_eq_true_eq, dequote_plain h]

theorem eq_of_dequote_eq_nil {c : Str} (h : dequote c = []) : c = [] ∨ c = ['\\'] := by
  induction c using dequote.induct with
  | case1 => exact Or.inl rfl
  | case2 => exact Or.inr rfl
  | case3 c s _ => simp [dequote] at h
  | case4 c s hend hesc _ =>
      rw [dequote_cons (ne_backslash_of_dequote hend hesc)] at h
      simp at h

theorem dequote_eq_nil_of_nameMatches {c : Str} (h : nameMatches c [] = true) :
    dequote c = [] := by
  unfold nameMatches at h
  split at h
  · simp at h
  · exact (of_decide_eq_true h).symm

theorem exists_dequote_slash (s : Str) : ∃ y, dequote (s ++ ['/']) = y ++ ['/'] := by
  induction s using dequote.induct with
  | case1 => exact ⟨[], rfl⟩
  | case2 => exact ⟨[], rfl⟩
  | case3 c s ih =>
      obtain ⟨y, hy⟩ := ih
      exact ⟨c :: y, congrArg (c :: ·) hy⟩
  | case4 c s hend hesc ih =>
      obtain ⟨y, hy⟩ := ih
      refine ⟨c :: y, ?_⟩
      rw [List.cons_append, dequote_cons (ne_backslash_of_dequote hend hesc), hy]
      rfl

/-- What a directory expands to ends in a slash. -/
theorem getLast_of_directoryMatches {cs : List Str} (hne : cs ≠ []) {x : Str}
    (h : directoryMatches cs x = true) : x.getLast? = some '/' := by
  induction cs generalizing x with
  | nil => exact absurd rfl hne
  | cons c cs ih =>
      rw [directoryMatches] at h
      split at h
      · next hglob =>
          rcases Bool.or_eq_true_iff.mp h with h | h
          · obtain ⟨hname, hdir⟩ := Bool.and_eq_true_iff.mp h
            refine ih ?_ hdir
            rintro rfl
            -- then nothing could be a pattern
            rcases eq_of_dequote_eq_nil (dequote_eq_nil_of_nameMatches hname) with rfl | rfl <;>
              revert hglob <;> decide
          · simp only [Bool.and_eq_true, decide_eq_true_eq] at h
            exact h.1.1.1
      · obtain ⟨y, hy⟩ := exists_dequote_slash (directory cs ++ c)
        obtain rfl := of_decide_eq_true h
        rw [directory, ← List.append_assoc, hy]
        simp

theorem components_ne_nil (d : Str) : components d ≠ [] := by
  simp [components, List.splitOn_ne_nil]

theorem components_join {n : Str} (hn : '/' ∉ n) (d : Str) :
    components (d ++ '/' :: n) = n :: components d := by
  rw [components, List.splitOn_append_cons_self, List.splitOn_eq_singleton hn]
  simp [components]

/-- A plain name in a directory is matched by itself alone, in what the
directory expands to. -/
theorem pathMatches_join {d n : Str} (hn : Plain n) (hslash : '/' ∉ n) (q : Str) :
    pathMatches (d ++ '/' :: n) q = true ↔
      ∃ x, q = x ++ n ∧ directoryMatches (components d) x = true := by
  rw [pathMatches, components_join hslash]
  simp only [Bool.and_eq_true, nameMatches_plain hn]
  constructor
  · rintro ⟨hdir, hname⟩
    refine ⟨_, ?_, hdir⟩
    rw [← hname, List.rdropWhile_append_rtakeWhile]
  · rintro ⟨x, rfl, hx⟩
    have hlast := getLast_of_directoryMatches (components_ne_nil d) hx
    obtain ⟨y, rfl⟩ : ∃ y, x = y ++ ['/'] := by
      rw [List.getLast?_eq_some_iff] at hlast
      exact hlast
    have happ : y ++ ['/'] ++ n = y ++ '/' :: n := by simp
    rw [happ, Text.rdropWhile_append_cons hslash, Text.rtakeWhile_append_cons hslash]
    exact ⟨hx, rfl⟩

theorem exists_last_slash {d : Str} (h : '/' ∈ d) : ∃ d' n, '/' ∉ n ∧ d = d' ++ '/' :: n := by
  obtain ⟨n, d', hd, hn⟩ := List.eq_append_cons_of_mem (List.mem_reverse.mpr h)
  refine ⟨d'.reverse, n.reverse, fun hmem => hn (List.mem_reverse.mp hmem), ?_⟩
  rw [← List.reverse_reverse d, hd]
  simp

theorem directory_components (d : Str) : directory (components d) = d ++ ['/'] := by
  induction hlength : d.length using Nat.strong_induction_on generalizing d with
  | _ k ih =>
      by_cases hslash : '/' ∈ d
      · obtain ⟨d', n, hn, rfl⟩ := exists_last_slash hslash
        have hd' : directory (components d') = d' ++ ['/'] := by
          refine ih d'.length ?_ d' rfl
          simp only [List.length_append, List.length_cons] at hlength
          omega
        rw [components_join hn, directory, hd']
        simp
      · rw [components, List.splitOn_eq_singleton hslash]
        simp [directory]

/-- Plain components mean themselves, unless an empty one between them is dropped. -/
theorem eq_of_directoryMatches {cs : List Str} (hplain : Plain (directory cs))
    (hne : ∀ c ∈ cs.dropLast, c ≠ []) {x : Str} (h : directoryMatches cs x = true) :
    x = directory cs := by
  induction cs generalizing x with
  | nil => simpa [directoryMatches, directory] using h
  | cons c cs ih =>
      have hc : Plain c := hplain.of_append_right.of_append_left
      rw [directoryMatches] at h
      split at h
      · next hglob =>
          rcases Bool.or_eq_true_iff.mp h with h | h
          · have hnil := (nameMatches_plain hc []).mp (Bool.and_eq_true_iff.mp h).1
            cases cs with
            | nil =>
                rw [← hnil] at hglob
                exact absurd hglob (by decide)
            | cons c' cs => exact absurd hnil.symm (hne c List.mem_cons_self)
          · simp only [Bool.and_eq_true, decide_eq_true_eq, nameMatches_plain hc] at h
            obtain ⟨⟨⟨hlast, -⟩, hname⟩, hdir⟩ := h
            have hrest : ∀ c' ∈ cs.dropLast, c' ≠ [] := by
              intro c' hc'
              refine hne c' ?_
              cases cs with
              | nil => simp at hc'
              | cons d ds => exact List.mem_cons_of_mem c hc'
            have hy := ih hplain.of_append_left hrest hdir
            obtain ⟨z, rfl⟩ := List.getLast?_eq_some_iff.mp hlast
            rw [List.dropLast_concat] at hname hy
            rw [directory, ← hy, ← hname, ← List.append_assoc, List.rdropWhile_append_rtakeWhile]
      · rw [of_decide_eq_true h, dequote_plain hplain]

theorem directory_append (cs ds : List Str) :
    directory (cs ++ ds) = directory ds ++ directory cs := by
  induction cs with
  | nil => simp [directory]
  | cons c cs ih => simp [directory, ih]

/-- An empty component that is not the first shows in the pathname. -/
theorem ne_nil_of_no_slashes {cs : List Str} {s : Str}
    (h : ¬ ['/', '/'] <:+: directory cs ++ s) : ∀ c ∈ cs.dropLast, c ≠ [] := by
  rintro c hc rfl
  obtain ⟨pre, post, hdrop⟩ := List.append_of_mem hc
  have hne : cs ≠ [] := by
    rintro rfl
    simp at hc
  have hcs : cs = pre ++ [] :: (post ++ [cs.getLast hne]) := by
    rw [← List.cons_append, ← List.append_assoc, ← hdrop, List.dropLast_append_getLast]
  obtain ⟨c', cs', hpost⟩ := List.exists_cons_of_ne_nil
    (List.append_ne_nil_of_right_ne_nil post (List.cons_ne_nil (cs.getLast hne) []))
  refine h ⟨directory cs' ++ c', directory pre ++ s, ?_⟩
  rw [hcs, hpost, directory_append]
  simp [directory]

theorem eq_of_pathMatches {w : Str} (hplain : Plain w) (hslash : ¬ ['/', '/'] <:+: w) {q : Str}
    (h : pathMatches w q = true) : q = w := by
  obtain ⟨c, cs, hparts⟩ := List.exists_cons_of_ne_nil (components_ne_nil w)
  have hw : w = directory cs ++ c := by
    have hjoin := directory_components w
    rw [hparts, directory, ← List.append_assoc] at hjoin
    exact (List.append_cancel_right hjoin).symm
  have hne := ne_nil_of_no_slashes (hw ▸ hslash)
  simp only [pathMatches, hparts, Bool.and_eq_true] at h
  obtain ⟨hdir, hname⟩ := h
  rw [hw] at hplain
  have hx := eq_of_directoryMatches hplain.of_append_left hne hdir
  have hc := (nameMatches_plain hplain.of_append_right _).mp hname
  rw [hw, ← hx, ← hc, List.rdropWhile_append_rtakeWhile]

/-- Nothing that could be a pattern, or nothing that means anything in one and no
empty component. -/
def Inert (w : Str) : Prop := isPattern w = true → Plain w ∧ ¬ ['/', '/'] <:+: w

instance (w : Str) : Decidable (Inert w) := inferInstanceAs (Decidable (_ → _))

theorem Inert.of_append {s t : Str} (h : Inert (s ++ t)) : Inert s := fun hs =>
  (h (hasGlob_append hs t)).imp Plain.of_append_left fun hno hdouble =>
    hno (hdouble.trans (List.infix_append' [] s t))

theorem Inert.join {d n : Str} (h : Inert (d ++ ['/'])) (hn : Flat n)
    (hslash : ¬ ['/', '/'] <:+: '/' :: n) : Inert (d ++ '/' :: n) := by
  intro hp
  rw [isPattern_join d hn, ← isPattern_join d (n := []) (by simp [Flat])] at hp
  obtain ⟨hplain, hno⟩ := h hp
  have hslashes : Plain ('/' :: n) := hplain.of_append_right.append hn.plain
  refine ⟨hplain.of_append_left.append hslashes, fun hinfix => ?_⟩
  rcases List.infix_append_iff_ne_nil.mp hinfix with hd | hn' | ⟨s, t, hs, ht, hst, hend, -⟩
  · exact hno (hd.trans (List.infix_append' [] d ['/']))
  · exact hslash hn'
  · obtain rfl : s = ['/'] := by
      obtain ⟨c, s, rfl⟩ := List.exists_cons_of_ne_nil hs
      obtain ⟨rfl, hrest⟩ := List.cons.inj hst
      cases s with
      | nil => rfl
      | cons c s => simp_all
    obtain ⟨d', rfl⟩ := hend
    exact hno ⟨d', [], by simp⟩

theorem Inert.literal {d : Str} (h : Inert (d ++ ['/'])) : Literal d := by
  intro hp x hx
  obtain ⟨hplain, hslash⟩ := h (hasGlob_append hp ['/'])
  have hmatch : pathMatches (d ++ '/' :: []) x = true :=
    (pathMatches_join (by simp [Plain]) (by simp) x).mpr ⟨x, (List.append_nil x).symm, hx⟩
  exact eq_of_pathMatches hplain hslash hmatch

end AutoTestKernel.Pathname
