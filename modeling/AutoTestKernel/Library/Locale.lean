import AutoTestKernel.Library.Text

/-!
# Bytes and characters

A file holds bytes, and a program reads as characters what its locale makes of
them.  Bytes that belong to no character are kept: each of them stands in a text
as a `Char` of its own, one that is no character of the locale.
-/

namespace AutoTestKernel.Text

/-- How a program reads and writes text.  `fold` is what characters are compared
by when case is ignored. -/
structure TextLocale where
  isChar : Char → Bool
  encode : Char → List ℕ
  decode : List ℕ → Str
  lower : Char → Char
  upper : Char → Char
  fold : Char → Char
  decode_nil : decode [] = []
  decode_encode : ∀ c bs, isChar c = true → decode (encode c ++ bs) = c :: decode bs
  encode_decode : ∀ s : Str, (decode (s.flatMap encode)).flatMap encode = s.flatMap encode
  isChar_ascii : ∀ c, c.toNat < 128 → isChar c = true
  encode_newline : ∀ c, newline.toNat ∈ encode c ↔ c = newline
  isChar_lower : ∀ c, isChar c = true → isChar (lower c) = true
  isChar_upper : ∀ c, isChar c = true → isChar (upper c) = true
  lower_newline : ∀ c, lower c = newline ↔ c = newline
  upper_newline : ∀ c, upper c = newline ↔ c = newline

def Ascii (s : Str) : Prop := ∀ c ∈ s, c.toNat < 128

instance (s : Str) : Decidable (Ascii s) := List.decidableBAll _ s

namespace TextLocale

variable (L : TextLocale)

/-- Text in which bytes that were written side by side make up characters. -/
def join (s : Str) : Str := L.decode (s.flatMap L.encode)

def Reads (s : Str) : Prop := ∀ c ∈ s, L.isChar c = true

instance (s : Str) : Decidable (L.Reads s) := List.decidableBAll _ s

/-- The part of a text that a pattern for any characters reaches. -/
def readable (s : Str) : Str := (L.join s).takeWhile (L.isChar ·)

def unread (s : Str) : Str := (L.join s).dropWhile (L.isChar ·)

variable {L}

theorem Reads.append {u v : Str} (hu : L.Reads u) (hv : L.Reads v) : L.Reads (u ++ v) :=
  fun c hc => (List.mem_append.mp hc).elim (hu c) (hv c)

theorem reads_of_ascii {s : Str} (h : Ascii s) : L.Reads s := fun c hc =>
  L.isChar_ascii c (h c hc)

theorem reads_readable (s : Str) : L.Reads (L.readable s) := fun _ hc =>
  List.mem_takeWhile_imp hc

theorem readable_append_unread (s : Str) : L.readable s ++ L.unread s = L.join s :=
  List.takeWhile_append_dropWhile

theorem join_append {u : Str} (hu : L.Reads u) (s : Str) : L.join (u ++ s) = u ++ L.join s := by
  induction u with
  | nil => rfl
  | cons c u ih =>
      obtain ⟨hc, hu⟩ := List.forall_mem_cons.mp hu
      rw [join, List.cons_append, List.flatMap_cons, L.decode_encode _ _ hc, ← join, ih hu]
      rfl

theorem join_of_reads {u : Str} (hu : L.Reads u) : L.join u = u := by
  have hnil : L.join [] = [] := L.decode_nil
  have h := join_append hu []
  rwa [hnil, List.append_nil] at h

theorem join_congr {s t : Str} (h : s.flatMap L.encode = t.flatMap L.encode) :
    L.join s = L.join t := congrArg L.decode h

theorem join_join (s : Str) : L.join (L.join s) = L.join s := join_congr (L.encode_decode s)

theorem join_unread (s : Str) : L.join (L.unread s) = L.unread s := by
  have h : L.join (L.readable s ++ L.unread s) = L.readable s ++ L.unread s := by
    rw [readable_append_unread, join_join]
  rw [join_append (reads_readable s)] at h
  exact List.append_cancel_left h

theorem unread_join (s : Str) : L.unread (L.join s) = L.unread s := by
  rw [unread, join_join, unread]

theorem unread_unread (s : Str) : L.unread (L.unread s) = L.unread s := by
  have hjoin : L.join (L.unread s) = L.unread s := join_unread s
  rw [unread, hjoin]
  exact List.dropWhile_idempotent _ _

theorem readable_append {u : Str} (hu : L.Reads u) (s : Str) :
    L.readable (u ++ s) = u ++ L.readable s := by
  rw [readable, join_append hu, List.takeWhile_append_of_pos hu, readable]

theorem unread_append {u : Str} (hu : L.Reads u) (s : Str) : L.unread (u ++ s) = L.unread s := by
  rw [unread, join_append hu, List.dropWhile_append_of_pos hu, unread]

theorem readable_of_reads {u : Str} (hu : L.Reads u) : L.readable u = u := by
  rw [readable, join_of_reads hu, List.takeWhile_eq_self_iff.mpr hu]

theorem unread_of_reads {u : Str} (hu : L.Reads u) : L.unread u = [] := by
  rw [unread, join_of_reads hu, List.dropWhile_eq_nil_iff.mpr hu]

theorem newline_mem_join {s : Str} : newline ∈ L.join s ↔ newline ∈ s := by
  have hbytes : ∀ t : Str, newline.toNat ∈ t.flatMap L.encode ↔ newline ∈ t := fun t => by
    simp [L.encode_newline]
  rw [← hbytes, join, L.encode_decode, hbytes]

theorem join_join_append (s t : Str) : L.join (L.join s ++ t) = L.join (s ++ t) :=
  join_congr (by rw [List.flatMap_append, join, L.encode_decode, List.flatMap_append])

theorem newline_notMem_readable {s : Str} (h : newline ∉ s) : newline ∉ L.readable s := fun hm =>
  h (newline_mem_join.mp ((List.takeWhile_sublist _).subset hm))

theorem newline_notMem_unread {s : Str} (h : newline ∉ s) : newline ∉ L.unread s := fun hm =>
  h (newline_mem_join.mp ((List.dropWhile_sublist _).subset hm))

/-- What is joined to text of the locale is joined by itself. -/
theorem reads_join_of_unread {s t : Str} (h : L.unread (s ++ L.unread t) = L.unread t) :
    L.Reads (L.join s) := by
  have hbytes : s.flatMap L.encode = (L.readable (s ++ L.unread t)).flatMap L.encode := by
    have hjoin := readable_append_unread (L := L) (s ++ L.unread t)
    rw [h] at hjoin
    have hcode := congrArg (List.flatMap L.encode) hjoin
    rw [join, L.encode_decode, List.flatMap_append, List.flatMap_append] at hcode
    exact (List.append_cancel_right hcode).symm
  rw [join_congr hbytes, join_of_reads (reads_readable _)]
  exact reads_readable _

end TextLocale

/-! ## The C locale -/

theorem toLower_eq_newline_iff (c : Char) : c.toLower = newline ↔ c = newline := by
  by_cases h : 'A'.val ≤ c.val ∧ c.val ≤ 'Z'.val
  · have hne : c ≠ newline := by
      rintro rfl
      exact absurd h (by decide)
    have hlower : c.toLower ≠ newline := by
      intro he
      have hval := congrArg (fun d : Char => d.val.toNat) ((dif_pos h).symm.trans he)
      simp [UInt32.le_iff_toNat_le, UInt32.toNat_add, newline] at h hval
      omega
    exact iff_of_false hlower hne
  · have hsame : c.toLower = c := dif_neg h
    rw [hsame]

theorem toUpper_eq_newline_iff (c : Char) : c.toUpper = newline ↔ c = newline := by
  by_cases h : 'a'.val ≤ c.val ∧ c.val ≤ 'z'.val
  · have hne : c ≠ newline := by
      rintro rfl
      exact absurd h (by decide)
    have hupper : c.toUpper ≠ newline := by
      intro he
      have hval := congrArg (fun d : Char => d.val.toNat) ((dif_pos h).symm.trans he)
      simp [UInt32.le_iff_toNat_le, UInt32.toNat_add, newline] at h hval
      omega
    exact iff_of_false hupper hne
  · have hsame : c.toUpper = c := dif_neg h
    rw [hsame]

/-- Converted by a C locale: what is not ASCII has no case there, and comes out
as the byte that stands for no result. -/
def convertAscii (convert : Char → Char) (c : Char) : Char :=
  if c.toNat < 128 then convert c else 'ÿ'

theorem convertAscii_eq_newline_iff {convert : Char → Char}
    (h : ∀ c, convert c = newline ↔ c = newline) (c : Char) :
    convertAscii convert c = newline ↔ c = newline := by
  unfold convertAscii
  split
  · exact h c
  · next hc =>
      have hne : c ≠ newline := by
        rintro rfl
        exact hc (by decide)
      exact iff_of_false (by decide) hne

/-- Every byte is a character. -/
def TextLocale.posix : TextLocale where
  isChar _ := true
  encode c := [c.toNat]
  decode bs := bs.map Char.ofNat
  lower := convertAscii Char.toLower
  upper := convertAscii Char.toUpper
  fold := Char.toUpper
  decode_nil := rfl
  decode_encode c bs _ := by simp
  encode_decode s := by
    have hone : ∀ t : Str, t.flatMap (fun c => [c.toNat]) = t.map Char.toNat := fun t =>
      (List.map_eq_flatMap).symm
    simp [hone, Function.comp_def]
  isChar_ascii _ _ := rfl
  encode_newline c := by
    rw [List.mem_singleton, Char.toNat_inj, eq_comm]
  isChar_lower _ _ := rfl
  isChar_upper _ _ := rfl
  lower_newline := convertAscii_eq_newline_iff toLower_eq_newline_iff
  upper_newline := convertAscii_eq_newline_iff toUpper_eq_newline_iff

theorem TextLocale.reads_posix (s : Str) : TextLocale.posix.Reads s := fun _ _ => rfl

/-! ## UTF-8 -/

def utf8Bytes (v : ℕ) : List ℕ :=
  if v < 0x80 then [v]
  else if v < 0x800 then [0xC0 + v / 64, 0x80 + v % 64]
  else if v < 0x10000 then [0xE0 + v / 4096, 0x80 + v / 64 % 64, 0x80 + v % 64]
  else [0xF0 + v / 262144, 0x80 + v / 4096 % 64, 0x80 + v / 64 % 64, 0x80 + v % 64]

/-- The number that the first bytes stand for, should they be a character. -/
def utf8Value (bs : List ℕ) : ℕ :=
  let first := bs.getD 0 0
  let tail : ℕ → ℕ := fun i => bs.getD i 0 % 64
  if first < 0x80 then first
  else if first < 0xE0 then first % 32 * 64 + tail 1
  else if first < 0xF0 then first % 16 * 4096 + tail 1 * 64 + tail 2
  else first % 8 * 262144 + tail 1 * 4096 + tail 2 * 64 + tail 3

theorem utf8Value_utf8Bytes {v : ℕ} (hv : v < 0x110000) (bs : List ℕ) :
    utf8Value (utf8Bytes v ++ bs) = v := by
  unfold utf8Bytes
  split_ifs <;> simp [utf8Value] <;> split_ifs <;> omega

theorem lt_of_mem_utf8Bytes {v b : ℕ} (hv : v < 0x110000) (hb : b ∈ utf8Bytes v) : b < 256 := by
  unfold utf8Bytes at hb
  split_ifs at hb <;> simp at hb <;> omega

theorem ten_mem_utf8Bytes_iff {v : ℕ} : 10 ∈ utf8Bytes v ↔ v = 10 := by
  unfold utf8Bytes
  split_ifs <;> simp <;> omega

theorem utf8Bytes_ne_nil (v : ℕ) : utf8Bytes v ≠ [] := by
  unfold utf8Bytes
  split_ifs <;> simp

/-- Stray bytes stand at the very end of the range of characters. -/
def strays : ℕ := 0x10FF80

def stray (b : ℕ) : Char := Char.ofNat (strays - 0x80 + b)

def utf8Encode (c : Char) : List ℕ :=
  if c.toNat < strays then utf8Bytes c.toNat else [c.toNat - (strays - 0x80)]

theorem toNat_lt (c : Char) : c.toNat < 0x110000 := by
  rcases c.valid with h | h
  · exact Nat.lt_trans h (by decide)
  · exact h.2

theorem lt_of_mem_utf8Encode {c : Char} {b : ℕ} (hb : b ∈ utf8Encode c) : b < 256 := by
  have hc := toNat_lt c
  unfold utf8Encode at hb
  split at hb
  · exact lt_of_mem_utf8Bytes hc hb
  · rw [List.mem_singleton.mp hb, strays]
    omega

theorem newline_mem_utf8Encode_iff {c : Char} : newline.toNat ∈ utf8Encode c ↔ c = newline := by
  have hcode : c = newline ↔ c.toNat = 10 := Char.toNat_inj.symm
  rw [hcode]
  unfold utf8Encode
  split
  · exact ten_mem_utf8Bytes_iff
  · next hc =>
      rw [strays] at hc
      have hne : ¬ newline.toNat ∈ [c.toNat - (strays - 0x80)] := fun hmem => by
        have hten : (10 : ℕ) = c.toNat - (strays - 0x80) := List.mem_singleton.mp hmem
        rw [strays] at hten
        omega
      exact iff_of_false hne (by omega)

/-- The character at the start of a text, if there is one. -/
def utf8Char (bs : List ℕ) : Option Char :=
  let c := Char.ofNat (utf8Value bs)
  if c.toNat < strays ∧ utf8Bytes c.toNat <+: bs then some c else none

/-- The characters of a text of which some bytes have been read already. -/
def utf8Decode : ℕ → List ℕ → Str
  | _, [] => []
  | n + 1, _ :: bs => utf8Decode n bs
  | 0, b :: bs =>
      match utf8Char (b :: bs) with
      | some c => c :: utf8Decode ((utf8Bytes c.toNat).length - 1) bs
      | none => stray b :: utf8Decode 0 bs

theorem utf8Char_append {c : Char} (hc : c.toNat < strays) (bs : List ℕ) :
    utf8Char (utf8Bytes c.toNat ++ bs) = some c := by
  rw [utf8Char, utf8Value_utf8Bytes (toNat_lt c), Char.ofNat_toNat]
  exact if_pos ⟨hc, List.prefix_append _ _⟩

theorem toNat_ofNat {n : ℕ} (hn : n.isValidChar) : (Char.ofNat n).toNat = n := by
  rw [Char.ofNat, dif_pos hn]
  rfl

theorem utf8Char_ascii {b : ℕ} (hb : b < 0x80) (bs : List ℕ) :
    utf8Char (b :: bs) = some (Char.ofNat b) := by
  have hcode : (Char.ofNat b).toNat = b := toNat_ofNat (Or.inl (by omega))
  have hbytes : b :: bs = utf8Bytes (Char.ofNat b).toNat ++ bs := by
    rw [hcode, utf8Bytes, if_pos hb]
    rfl
  rw [hbytes, utf8Char_append]
  rw [hcode, strays]
  omega

theorem utf8Char_eq_some {bs : List ℕ} {c : Char} (h : utf8Char bs = some c) :
    c.toNat < strays ∧ utf8Bytes c.toNat <+: bs := by
  simp only [utf8Char] at h
  split at h
  · next hc => exact Option.some.inj h ▸ hc
  · cases h

theorem utf8Decode_append (n : ℕ) (us bs : List ℕ) (h : us.length = n) :
    utf8Decode n (us ++ bs) = utf8Decode 0 bs := by
  induction us generalizing n with
  | nil => rw [← h]; rfl
  | cons u us ih =>
      subst h
      exact ih us.length rfl

theorem utf8Decode_encode {c : Char} (hc : c.toNat < strays) (bs : List ℕ) :
    utf8Decode 0 (utf8Encode c ++ bs) = c :: utf8Decode 0 bs := by
  rw [utf8Encode, if_pos hc]
  have hchar := utf8Char_append hc bs
  obtain ⟨b, us, hbytes⟩ := List.exists_cons_of_ne_nil (utf8Bytes_ne_nil c.toNat)
  rw [hbytes, List.cons_append] at hchar ⊢
  rw [utf8Decode, hchar]
  simp only [hbytes, List.length_cons, Nat.add_sub_cancel]
  rw [utf8Decode_append _ us bs rfl]

theorem toNat_stray {b : ℕ} (hb : b < 256) :
    (stray b).toNat = strays - 0x80 + b :=
  toNat_ofNat (Or.inr (by simp only [strays]; omega))

theorem utf8Encode_decode (n : ℕ) {bs : List ℕ} (h : ∀ b ∈ bs, b < 256) :
    (utf8Decode n bs).flatMap utf8Encode = bs.drop n := by
  induction bs generalizing n with
  | nil => cases n <;> rfl
  | cons b bs ih =>
      obtain ⟨hb, hbs⟩ := List.forall_mem_cons.mp h
      cases n with
      | succ n => exact ih n hbs
      | zero =>
          rw [utf8Decode, List.drop_zero]
          cases hchar : utf8Char (b :: bs) with
          | some c =>
              obtain ⟨hc, hprefix⟩ := utf8Char_eq_some hchar
              obtain ⟨b', us, hbytes⟩ := List.exists_cons_of_ne_nil (utf8Bytes_ne_nil c.toNat)
              have hcode : utf8Encode c = b' :: us := (if_pos hc).trans hbytes
              rw [hbytes] at hprefix
              simp only [List.flatMap_cons, ih _ hbs, hcode, hbytes, List.length_cons,
                Nat.add_sub_cancel]
              exact (List.prefix_iff_eq_append.mp hprefix)
          | none =>
              have hhigh : 0x80 ≤ b := by
                by_contra hlow
                simp [utf8Char_ascii (Nat.not_le.mp hlow)] at hchar
              have hencode : utf8Encode (stray b) = [b] := by
                rw [utf8Encode, toNat_stray hb, if_neg (by rw [strays]; omega),
                  Nat.add_sub_cancel_left]
              simp only [List.flatMap_cons, hencode, ih 0 hbs]
              rfl

theorem toLower_eq_or_ascii (c : Char) : c.toLower = c ∨ c.toLower.toNat < 128 := by
  unfold Char.toLower
  split
  · next h =>
      have hlast : c.val.toNat ≤ 90 := UInt32.le_iff_toNat_le.mp h.2
      right
      change (c.val + 32).toNat < 128
      have hsum : (c.val + 32).toNat = (c.val.toNat + 32) % 2 ^ 32 := UInt32.toNat_add _ _
      omega
  · exact Or.inl rfl

theorem toUpper_eq_or_ascii (c : Char) : c.toUpper = c ∨ c.toUpper.toNat < 128 := by
  unfold Char.toUpper
  split
  · next h =>
      have hfirst : 97 ≤ c.val.toNat := UInt32.le_iff_toNat_le.mp h.1
      have hlast : c.val.toNat ≤ 122 := UInt32.le_iff_toNat_le.mp h.2
      right
      change (c.val + 4294967264).toNat < 128
      have hsum : (c.val + 4294967264).toNat = (c.val.toNat + 4294967264) % 2 ^ 32 :=
        UInt32.toNat_add _ _
      omega
  · exact Or.inl rfl

theorem toNat_lt_strays {c : Char} (hc : c.toNat < 128) : c.toNat < strays := by
  rw [strays]
  omega

theorem converted_lt_strays {convert : Char → Char}
    (h : ∀ c, convert c = c ∨ (convert c).toNat < 128) {c : Char} (hc : c.toNat < strays) :
    (convert c).toNat < strays := by
  rcases h c with hsame | hascii
  · rwa [hsame]
  · exact toNat_lt_strays hascii

/-- UTF-8, as far as Unicode goes, with the case of ASCII letters alone. -/
def TextLocale.utf8 : TextLocale where
  isChar c := c.toNat < strays
  encode := utf8Encode
  decode := utf8Decode 0
  lower := Char.toLower
  upper := Char.toUpper
  fold := Char.toUpper
  decode_nil := rfl
  decode_encode c bs hc := utf8Decode_encode (of_decide_eq_true hc) bs
  encode_decode s := utf8Encode_decode 0 (fun b hb => by
    obtain ⟨c, -, hbc⟩ := List.mem_flatMap.mp hb
    exact lt_of_mem_utf8Encode hbc)
  isChar_ascii _ hc := decide_eq_true (toNat_lt_strays hc)
  encode_newline c := newline_mem_utf8Encode_iff
  isChar_lower c hc :=
    decide_eq_true (converted_lt_strays toLower_eq_or_ascii (of_decide_eq_true hc))
  isChar_upper c hc :=
    decide_eq_true (converted_lt_strays toUpper_eq_or_ascii (of_decide_eq_true hc))
  lower_newline := toLower_eq_newline_iff
  upper_newline := toUpper_eq_newline_iff

end AutoTestKernel.Text
