import Mathlib.Data.List.Basic
import Mathlib.Tactic.ByContra

/-!
# config/s2e.h

The header that is copied into an instrumented kernel.  S2E cannot page memory
in by itself, so a function that hands memory over reads it first and then
executes an opcode that the processor does not have.  Reads are recorded in
their order; the reads and writes of the stack are left out.
-/

namespace AutoTestKernel.S2eHeader

inductive Register
  | eax | ebx | ecx | edx
  deriving DecidableEq

/-- What a function of the header does that is seen from outside. -/
inductive Event
  | read (a : UInt32)
  | pushEbx
  | opcode (bytes : List UInt8) (inputs : List (Register × UInt32))
  | popEbx
  deriving DecidableEq

theorem toNat_succ {i size : UInt32} (h : i < size) : (i + 1).toNat = i.toNat + 1 := by
  have hlt : i.toNat < size.toNat := UInt32.lt_iff_toNat_lt.mp h
  have hsize := size.toNat_lt
  rw [UInt32.toNat_add, UInt32.toNat_one, Nat.mod_eq_of_lt (by omega)]

/-- `for (i=0; i<size; ++i) { b = buffer; *b; }`, from a value of `i` on. -/
def s2eTouchBufferFrom (buffer size i : UInt32) : List Event :=
  if i < size then
    let b := buffer
    .read b :: s2eTouchBufferFrom buffer size (i + 1)
  else []
termination_by size.toNat - i.toNat
decreasing_by
  have hlt : i.toNat < size.toNat := UInt32.lt_iff_toNat_lt.mp ‹i < size›
  rw [toNat_succ ‹i < size›]
  omega

/-- `__s2e_touch_buffer` -/
def s2eTouchBuffer (buffer size : UInt32) : List Event := s2eTouchBufferFrom buffer size 0

/-- `__s2e_touch_string`: a string that no zero byte ends is read forever. -/
def s2eTouchString (mem : UInt32 → UInt8) : ℕ → UInt32 → Option (List Event)
  | 0, _ => none
  | fuel + 1, string =>
      if mem string ≠ 0 then
        (s2eTouchString mem fuel (string + 1)).map fun events => .read string :: events
      else some [.read string]

/-- `s2e_detect_int`: the size is passed on as an unsigned number. -/
def s2eDetectInt (buf1 buf2 : UInt32) (size flag : Int32) : List Event :=
  s2eTouchBuffer buf1 size.toUInt32 ++ s2eTouchBuffer buf2 size.toUInt32 ++
    [.pushEbx,
      .opcode [0x0f, 0x3f, 0x00, 0x80, 0x00, 0x00, 0x00, 0x00, 0x00, 0x00]
        [(.eax, buf1), (.ebx, buf2), (.edx, size.toUInt32), (.ecx, flag.toUInt32)],
      .popEbx]

/-- `s2e_message` -/
def s2eMessage (mem : UInt32 → UInt8) (fuel : ℕ) (message : UInt32) : Option (List Event) :=
  (s2eTouchString mem fuel message).map fun events => events ++
    [.opcode [0x0f, 0x3f, 0x00, 0x10, 0x00, 0x00, 0x00, 0x00, 0x00, 0x00] [(.eax, message)]]

def Event.isOpcode : Event → Bool
  | .opcode _ _ => true
  | _ => false

def Event.read? : Event → Option UInt32
  | .read a => some a
  | _ => none

/-- The addresses read before the opcode. -/
def readsBefore (events : List Event) : List UInt32 :=
  (events.takeWhile fun e => !e.isOpcode).filterMap Event.read?

/-- `[buf, buf+size)` -/
def InBuffer (buf : UInt32) (size : Int32) (a : UInt32) : Prop :=
  buf.toNat ≤ a.toNat ∧ a.toNat < buf.toNat + size.toNatClampNeg

/-- The buffer ends before the end of the address space. -/
def Fits (buf : UInt32) (size : Int32) : Prop := buf.toNat + size.toNatClampNeg ≤ UInt32.size

/-- Every byte of both buffers is read before the opcode, and nothing else. -/
structure PagesIn (buf1 buf2 : UInt32) (size flag : Int32) : Prop where
  first : ∀ a, InBuffer buf1 size a → a ∈ readsBefore (s2eDetectInt buf1 buf2 size flag)
  second : ∀ a, InBuffer buf2 size a → a ∈ readsBefore (s2eDetectInt buf1 buf2 size flag)
  inside : ∀ a ∈ readsBefore (s2eDetectInt buf1 buf2 size flag),
    InBuffer buf1 size a ∨ InBuffer buf2 size a

/-! ## The loops -/

theorem s2eTouchBufferFrom_eq (buffer size i : UInt32) :
    s2eTouchBufferFrom buffer size i = List.replicate (size.toNat - i.toNat) (.read buffer) := by
  fun_induction s2eTouchBufferFrom buffer size i with
  | case1 i hlt b ih =>
      have hlt' : i.toNat < size.toNat := UInt32.lt_iff_toNat_lt.mp hlt
      have hlength : size.toNat - i.toNat = (size.toNat - (i.toNat + 1)) + 1 := by omega
      rw [ih, toNat_succ hlt, hlength, List.replicate_succ]
  | case2 i hlt =>
      have hle : size.toNat ≤ i.toNat := UInt32.le_iff_toNat_le.mp (UInt32.not_lt.mp hlt)
      rw [Nat.sub_eq_zero_of_le hle, List.replicate_zero]

/-- A string is read byte for byte up to the zero byte at its end. -/
theorem s2eTouchString_eq {mem : UInt32 → UInt8} {a : UInt32} {n : ℕ}
    (hbytes : ∀ k < n, mem (a + .ofNat k) ≠ 0) (hend : mem (a + .ofNat n) = 0) :
    s2eTouchString mem (n + 1) a =
      some ((List.range (n + 1)).map fun k => .read (a + .ofNat k)) := by
  induction n generalizing a with
  | zero =>
      have hzero : mem a = 0 := by simpa using hend
      simp [s2eTouchString, hzero]
  | succ n ih =>
      have hfirst : mem a ≠ 0 := by simpa using hbytes 0 (Nat.succ_pos n)
      have hnext : ∀ k, a + 1 + UInt32.ofNat k = a + UInt32.ofNat (k + 1) := by
        intro k
        rw [UInt32.add_assoc, UInt32.add_comm 1, UInt32.ofNat_add]
        rfl
      have hrest := ih (a := a + 1)
        (fun k hk => hnext k ▸ hbytes (k + 1) (Nat.succ_lt_succ hk)) (hnext n ▸ hend)
      have hrange : List.range (n + 1 + 1) = 0 :: (List.range (n + 1)).map Nat.succ :=
        List.range_succ_eq_map
      rw [s2eTouchString, if_pos hfirst, hrest, Option.map_some, hrange, List.map_cons,
        List.map_map]
      have hzero : a + UInt32.ofNat 0 = a := UInt32.add_zero a
      simp only [hnext, hzero, Function.comp_def, Nat.succ_eq_add_one]

theorem readsBefore_reads (as : List UInt32) (rest : List Event) :
    readsBefore (as.map .read ++ rest) = as ++ readsBefore rest := by
  induction as with
  | nil => rfl
  | cons a as ih =>
      rw [List.map_cons, List.cons_append, List.cons_append, ← ih]
      rfl

theorem readsBefore_s2eMessage {mem : UInt32 → UInt8} {a : UInt32} {n : ℕ}
    (hbytes : ∀ k < n, mem (a + .ofNat k) ≠ 0) (hend : mem (a + .ofNat n) = 0) :
    (s2eMessage mem (n + 1) a).map readsBefore =
      some ((List.range (n + 1)).map fun k => a + .ofNat k) := by
  have hmap : (List.range (n + 1)).map (fun k => Event.read (a + .ofNat k)) =
      ((List.range (n + 1)).map fun k => a + .ofNat k).map .read := by
    rw [List.map_map]
    rfl
  rw [s2eMessage, s2eTouchString_eq hbytes hend, Option.map_some, Option.map_some, hmap,
    readsBefore_reads]
  exact congrArg some (List.append_nil _)

theorem readsBefore_s2eDetectInt (buf1 buf2 : UInt32) {size : Int32} (flag : Int32)
    (hsize : 0 ≤ size) : readsBefore (s2eDetectInt buf1 buf2 size flag) =
      List.replicate size.toNatClampNeg buf1 ++ List.replicate size.toNatClampNeg buf2 := by
  have hunsigned : size.toUInt32.toNat = size.toNatClampNeg := Int32.toNat_toUInt32_of_le hsize
  rw [s2eDetectInt, s2eTouchBuffer, s2eTouchBuffer, s2eTouchBufferFrom_eq,
    s2eTouchBufferFrom_eq, hunsigned, UInt32.toNat_zero, Nat.sub_zero, List.append_assoc,
    ← List.map_replicate, ← List.map_replicate, readsBefore_reads, readsBefore_reads]
  exact congrArg _ (List.append_nil _)

/-- However long the buffers are, only their first bytes are read. -/
theorem mem_readsBefore_s2eDetectInt {buf1 buf2 a : UInt32} {size flag : Int32}
    (hsize : 0 ≤ size) : a ∈ readsBefore (s2eDetectInt buf1 buf2 size flag) ↔
      size.toNatClampNeg ≠ 0 ∧ (a = buf1 ∨ a = buf2) := by
  rw [readsBefore_s2eDetectInt _ _ _ hsize, List.mem_append, List.mem_replicate, List.mem_replicate]
  exact and_or_left.symm

/-- The byte behind the first one. -/
theorem inBuffer_succ {buf : UInt32} {size : Int32} (hfits : Fits buf size)
    (hsize : 1 < size.toNatClampNeg) :
    InBuffer buf size (buf + 1) ∧ (buf + 1).toNat = buf.toNat + 1 := by
  have hnext : (buf + 1).toNat = buf.toNat + 1 := by
    have hend : buf.toNat + size.toNatClampNeg ≤ 2 ^ 32 := hfits
    rw [UInt32.toNat_add, UInt32.toNat_one, Nat.mod_eq_of_lt (by omega)]
  exact ⟨⟨by omega, by omega⟩, hnext⟩

/-- The operands are paged in exactly when they have at most one byte. -/
theorem pagesIn_iff {buf1 buf2 : UInt32} {size flag : Int32} (hsize : 0 ≤ size)
    (hfits1 : Fits buf1 size) (hfits2 : Fits buf2 size) :
    PagesIn buf1 buf2 size flag ↔ size ≤ 1 := by
  have hone : size ≤ 1 ↔ size.toNatClampNeg ≤ 1 := by
    rw [Int32.le_iff_toInt_le, Int32.toInt_one, ← Int32.toNat_toInt]
    omega
  rw [hone]
  constructor
  · intro h
    by_contra hlong
    obtain ⟨hin1, hnext1⟩ := inBuffer_succ hfits1 (by omega)
    obtain ⟨hin2, hnext2⟩ := inBuffer_succ hfits2 (by omega)
    -- Each second byte would have to be the first byte of the other buffer.
    obtain ⟨-, heq1⟩ := (mem_readsBefore_s2eDetectInt hsize).mp (h.first _ hin1)
    obtain ⟨-, heq2⟩ := (mem_readsBefore_s2eDetectInt hsize).mp (h.second _ hin2)
    have hcross1 : (buf1 + 1).toNat = buf1.toNat ∨ (buf1 + 1).toNat = buf2.toNat :=
      heq1.imp (congrArg UInt32.toNat) (congrArg UInt32.toNat)
    have hcross2 : (buf2 + 1).toNat = buf1.toNat ∨ (buf2 + 1).toNat = buf2.toNat :=
      heq2.imp (congrArg UInt32.toNat) (congrArg UInt32.toNat)
    omega
  · intro hshort
    have honly : ∀ {buf a : UInt32}, InBuffer buf size a ↔ size.toNatClampNeg ≠ 0 ∧ a = buf := by
      intro buf a
      rw [InBuffer, ← UInt32.toNat_inj]
      omega
    refine ⟨fun a ha => ?_, fun a ha => ?_, fun a ha => ?_⟩
    · obtain ⟨hne, heq⟩ := honly.mp ha
      exact (mem_readsBefore_s2eDetectInt hsize).mpr ⟨hne, Or.inl heq⟩
    · obtain ⟨hne, heq⟩ := honly.mp ha
      exact (mem_readsBefore_s2eDetectInt hsize).mpr ⟨hne, Or.inr heq⟩
    · obtain ⟨hne, heq⟩ := (mem_readsBefore_s2eDetectInt hsize).mp ha
      exact heq.imp (fun h => honly.mpr ⟨hne, h⟩) (fun h => honly.mpr ⟨hne, h⟩)

theorem pagesIn_iff_oneByte : PagesIn 0xc0100000 0xc0100fff 1 0 :=
  (pagesIn_iff (by decide) (by unfold Fits; decide) (by unfold Fits; decide)).mpr (by decide)

/-- The second of two bytes is on the next page and is not read. -/
theorem pagesIn_fails_across_pages :
    ¬ ∀ (buf1 buf2 : UInt32) (size flag : Int32), 0 ≤ size → Fits buf1 size →
      Fits buf2 size → PagesIn buf1 buf2 size flag := by
  intro hclaim
  have h := hclaim 0xc0100fff 0xc0200000 2 0 (by decide) (by unfold Fits; decide)
    (by unfold Fits; decide)
  have hread := h.first 0xc0101000 (by unfold InBuffer; decide)
  rw [mem_readsBefore_s2eDetectInt (by decide)] at hread
  exact absurd hread (by decide)

end AutoTestKernel.S2eHeader
