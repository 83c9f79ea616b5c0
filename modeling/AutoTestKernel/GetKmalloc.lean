import AutoTestKernel.CheckKernel.Script
import AutoTestKernel.Library.Occurrence

/-!
# get_kmalloc.sh

The address of `__kmalloc` is looked up in the System.map of a kernel.  The
pipeline knows nothing of fields but the first; its greps look at whole lines.
-/

namespace AutoTestKernel.GetKmalloc

open Text Occurrence CheckKernel

/-- `grep pat`, for a pattern without special characters. -/
def withLines (pat : Str) (f : TextFile) : TextFile where
  lines := f.lines.filter fun l => decide (pat <:+: l)
  newline_notMem l hl := f.newline_notMem l (List.mem_of_mem_filter hl)

/-- `cut -d ' ' -f 1`; a line without a blank is printed as it is. -/
def cutFirst (l : Str) : Str := l.takeWhile (· ≠ ' ')

/-- `grep " __kmalloc" System.map | grep -v __kmalloc_ | cut -d ' ' -f 1` -/
def getKmalloc (systemMap : TextFile) : List Str :=
  (withoutLines "__kmalloc_".toList (withLines " __kmalloc".toList systemMap)).lines.map cutFirst

/-- A line of System.map: hexadecimal digits, a letter and a name. -/
structure Symbol where
  address : Str
  kind : Char
  name : Str
  address_digits : ∀ c ∈ address, c ∈ "0123456789abcdef".toList
  kind_visible : kind ≠ ' ' ∧ kind ≠ newline
  name_visible : ' ' ∉ name ∧ newline ∉ name

namespace Symbol

def line (s : Symbol) : Str := s.address ++ ' ' :: s.kind :: ' ' :: s.name

variable (s : Symbol)

theorem notMem_address {c : Char} (hc : c ∉ "0123456789abcdef".toList) : c ∉ s.address :=
  fun h => hc (s.address_digits c h)

theorem newline_notMem_line : newline ∉ s.line := by
  have haddress : newline ∉ s.address := s.notMem_address (by decide)
  simp [line, haddress, s.kind_visible.2.symm, s.name_visible.2,
    (by decide : newline ≠ ' ')]

theorem cutFirst_line : cutFirst s.line = s.address := by
  have haddress : ' ' ∉ s.address := s.notMem_address (by decide)
  have hdigits : ∀ c ∈ s.address, decide (c ≠ ' ') = true := fun c hc =>
    decide_eq_true fun heq => haddress (heq ▸ hc)
  rw [cutFirst, line, List.takeWhile_append_of_pos hdigits]
  simp

/-- The first grep finds names that begin with the word, -/
theorem blank_kmalloc_iff : " __kmalloc".toList <:+: s.line ↔ "__kmalloc".toList <+: s.name := by
  have haddress : ' ' ∉ s.address := s.notMem_address (by decide)
  have hkind : ' ' ∉ [s.kind] := by simpa using s.kind_visible.1.symm
  have hsecond : ¬ "__kmalloc".toList <+: s.kind :: ' ' :: s.name := fun h => by
    have hblank := (List.cons_prefix_cons.mp (List.cons_prefix_cons.mp h).2).1
    exact absurd hblank (by decide)
  have hname : ¬ ' ' :: "__kmalloc".toList <:+: s.name := fun h =>
    s.name_visible.1 (h.subset List.mem_cons_self)
  change ' ' :: "__kmalloc".toList <:+: s.address ++ ' ' :: s.kind :: ' ' :: s.name ↔ _
  rw [cons_infix_append_cons_iff haddress, or_iff_right hsecond,
    show s.kind :: ' ' :: s.name = [s.kind] ++ ' ' :: s.name from rfl,
    cons_infix_append_cons_iff hkind, or_iff_left hname]

/-- and the second drops those with the longer word anywhere. -/
theorem kmalloc_infix_iff :
    "__kmalloc_".toList <:+: s.line ↔ "__kmalloc_".toList <:+: s.name := by
  have hblank : ' ' ∉ "__kmalloc_".toList := by decide
  have haddress : ¬ "__kmalloc_".toList <:+: s.address := fun h =>
    s.notMem_address (c := '_') (by decide) (h.subset List.mem_cons_self)
  have hkind : ¬ "__kmalloc_".toList <:+: [s.kind] := fun h =>
    absurd h.length_le (by simp)
  change _ <:+: s.address ++ ' ' :: ([s.kind] ++ ' ' :: s.name) ↔ _
  rw [infix_append_cons_iff hblank, or_iff_right haddress, infix_append_cons_iff hblank,
    or_iff_right hkind]

end Symbol

/-- A System.map with these symbols. -/
def systemMap (symbols : List Symbol) : TextFile where
  lines := symbols.map Symbol.line
  newline_notMem := List.forall_mem_map.mpr fun s _ => s.newline_notMem_line

/-- The names that are meant by the script. -/
def Wanted (name : Str) : Prop :=
  "__kmalloc".toList <+: name ∧ ¬ "__kmalloc_".toList <:+: name

instance (name : Str) : Decidable (Wanted name) := inferInstanceAs (Decidable (_ ∧ _))

/-- The script prints the addresses of the names that begin with `__kmalloc` and
have no `__kmalloc_` in them, in the order of the map. -/
theorem getKmalloc_systemMap (symbols : List Symbol) :
    getKmalloc (systemMap symbols) =
      (symbols.filter fun s => decide (Wanted s.name)).map Symbol.address := by
  have hlines : (withoutLines "__kmalloc_".toList
      (withLines " __kmalloc".toList (systemMap symbols))).lines =
        (symbols.filter fun s => decide (Wanted s.name)).map Symbol.line := by
    change ((symbols.map Symbol.line).filter _).filter _ = _
    rw [List.filter_filter, List.filter_map]
    refine congrArg _ (List.filter_congr fun s _ => ?_)
    rw [Function.comp_apply, ← Bool.decide_and, decide_eq_decide, s.blank_kmalloc_iff,
      s.kmalloc_infix_iff, and_comm]
    rfl
  rw [getKmalloc, hlines, List.map_map]
  exact List.map_congr_left fun s _ => s.cutFirst_line

end AutoTestKernel.GetKmalloc
