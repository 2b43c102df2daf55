import Lox.Token.Cursor
import Lox.Proofs.Token.Pieces

/-!
# The bytes of characters

A character below 128 is one byte and stands for itself. All bytes of any other character are 128
or more, so a test that does not tell these characters apart finds the same in the bytes of a text
as in its characters. A text may be cut between the bytes of two characters.
-/
namespace Lox.Scan

def bytesOf (cs : List Char) : List UInt8 := cs.flatMap String.utf8EncodeChar

@[simp]
theorem bytesOf_nil : bytesOf [] = [] := rfl

theorem bytesOf_cons (c : Char) (cs : List Char) :
    bytesOf (c :: cs) = String.utf8EncodeChar c ++ bytesOf cs :=
  List.flatMap_cons

@[simp]
theorem bytesOf_append (cs ds : List Char) : bytesOf (cs ++ ds) = bytesOf cs ++ bytesOf ds :=
  List.flatMap_append

theorem toList_data_toByteArray (source : String) :
    source.toByteArray.data.toList = bytesOf source.toList := by
  rw [← String.utf8Encode_toList, List.utf8Encode, List.data_toByteArray]
  rfl

theorem size_toByteArray (source : String) :
    source.toByteArray.size = (bytesOf source.toList).length := by
  rw [← toList_data_toByteArray, Array.length_toList, ByteArray.size_data]

/-- Each character has a byte at least. -/
theorem length_le_bytesOf (cs : List Char) : cs.length ≤ (bytesOf cs).length := by
  induction cs with
  | nil => exact Nat.le_refl 0
  | cons c cs ih =>
    have wide := c.utf8Size_pos
    rw [bytesOf_cons, List.length_append, String.length_utf8EncodeChar, List.length_cons]
    omega

/-! ## Characters below 128 and the others -/

def Beyond (c : Char) : Prop := 128 ≤ c.toNat

instance (c : Char) : Decidable (Beyond c) := inferInstanceAs (Decidable (128 ≤ c.toNat))

theorem utf8EncodeChar_ascii {c : Char} (h : ¬Beyond c) :
    String.utf8EncodeChar c = [c.toUInt8] := by
  refine String.utf8EncodeChar_eq_singleton (Char.utf8Size_eq_one_iff.mpr ?_)
  rw [UInt32.le_iff_toNat_le]
  exact Nat.le_of_lt_succ (Nat.lt_of_not_le h)

theorem bytesOf_cons_ascii {c : Char} (h : ¬Beyond c) (cs : List Char) :
    bytesOf (c :: cs) = c.toUInt8 :: bytesOf cs := by
  rw [bytesOf_cons, utf8EncodeChar_ascii h, List.singleton_append]

theorem ofUInt8_toUInt8 {c : Char} (h : ¬Beyond c) : Char.ofUInt8 c.toUInt8 = c := by
  have small : c.val.toNat < 128 := Nat.lt_of_not_le h
  apply Char.ext
  apply UInt32.toNat.inj
  show c.val.toUInt8.toUInt32.toNat = c.val.toNat
  rw [UInt8.toNat_toUInt32, UInt32.toNat_toUInt8]
  omega

theorem toUInt8_ofUInt8 (b : UInt8) : (Char.ofUInt8 b).toUInt8 = b := UInt8.toUInt8_toUInt32 b

theorem eq_toUInt8_iff {c : Char} (h : ¬Beyond c) {b : UInt8} :
    b = c.toUInt8 ↔ Char.ofUInt8 b = c :=
  ⟨fun he => he ▸ ofUInt8_toUInt8 h, fun he => he ▸ (toUInt8_ofUInt8 b).symm⟩

theorem beyond_ofUInt8 {b : UInt8} : Beyond (.ofUInt8 b) ↔ 128 ≤ b.toNat := by
  show 128 ≤ b.toUInt32.toNat ↔ 128 ≤ b.toNat
  rw [UInt8.toNat_toUInt32]

/-- The bytes of a character from 128 on carry a mark that puts them there too. -/
theorem beyond_of_mem {c : Char} {b : UInt8} (h : Beyond c) (hb : b ∈ String.utf8EncodeChar c) :
    Beyond (.ofUInt8 b) := by
  have large : ¬c.val.toNat ≤ 0x7f := Nat.not_le_of_lt h
  -- Every byte is a mark from 128 on, with less than 64 added.
  have marked (low mark : Nat) (hl : low < 64) (hm : 128 ≤ mark) (hs : low + mark < 256) :
      128 ≤ (UInt8.ofNat (low + mark)).toNat := by
    rw [UInt8.toNat_ofNat']
    omega
  rw [beyond_ofUInt8]
  unfold String.utf8EncodeChar at hb
  simp only [if_neg large] at hb
  split at hb
  · simp only [List.mem_cons, List.not_mem_nil, or_false] at hb
    obtain rfl | rfl := hb <;> exact marked _ _ (by omega) (by omega) (by omega)
  split at hb
  · simp only [List.mem_cons, List.not_mem_nil, or_false] at hb
    obtain rfl | rfl | rfl := hb <;> exact marked _ _ (by omega) (by omega) (by omega)
  · simp only [List.mem_cons, List.not_mem_nil, or_false] at hb
    obtain rfl | rfl | rfl | rfl := hb <;> exact marked _ _ (by omega) (by omega) (by omega)

/-! ## Forms start with characters below 128 -/

section
variable {c : Char}

theorem not_le_of_beyond {c d : Char} (hc : Beyond c) (hd : ¬Beyond d) : ¬c.val ≤ d.val := fun h =>
  hd (Nat.le_trans hc (UInt32.le_iff_toNat_le.mp h))

theorem ne_of_beyond {c d : Char} (hc : Beyond c) (hd : ¬Beyond d) : c ≠ d := by
  rintro rfl
  exact hd hc

variable (h : Beyond c)
include h

theorem isDigit_of_beyond : c.isDigit = false := by
  unfold Char.isDigit
  rw [decide_eq_false (not_le_of_beyond h (by decide : ¬Beyond '9')), Bool.and_false]

theorem isAlpha_of_beyond : c.isAlpha = false := by
  have upper := not_le_of_beyond h (by decide : ¬Beyond 'Z')
  have lower := not_le_of_beyond h (by decide : ¬Beyond 'z')
  delta Char.isAlpha Char.isUpper Char.isLower
  simp only [upper, lower, and_false, decide_false, Bool.and_false, Bool.or_self]

theorem isWordStart_of_beyond : isWordStart c = false := by
  rw [isWordStart, isAlpha_of_beyond h, decide_eq_false (ne_of_beyond h (by decide)), Bool.or_self]

theorem isWordPart_of_beyond : isWordPart c = false := by
  rw [isWordPart, Char.isAlphanum, isAlpha_of_beyond h, isDigit_of_beyond h,
    decide_eq_false (ne_of_beyond h (by decide))]
  rfl

theorem isBlank_of_beyond : isBlank c = false := by
  have other (d : Char) (hd : ¬Beyond d) : decide (c = d) = false :=
    decide_eq_false (ne_of_beyond h hd)
  rw [isBlank, other ' ' (by decide), other '\r' (by decide), other '\t' (by decide),
    other '\n' (by decide)]
  rfl

theorem symbol?_of_beyond : symbol? c = none := by
  unfold symbol?
  split <;> first | exact absurd h (by decide) | rfl

end

/-! ## Tests that do not tell characters from 128 on apart -/

def Uniform {α : Type} (f : Char → α) : Prop := ∀ c d, Beyond c → Beyond d → f c = f d

namespace Uniform

theorem of_beyond {α : Type} {f : Char → α} {a : α} (h : ∀ c, Beyond c → f c = a) : Uniform f :=
  fun c d hc hd => (h c hc).trans (h d hd).symm

variable {α : Type} {f : Char → α} {p : Char → Bool}

/-- Each byte of a character passes such a test as the character does. -/
theorem ofUInt8 (h : Uniform f) {c : Char} {b : UInt8} (hb : b ∈ String.utf8EncodeChar c) :
    f (.ofUInt8 b) = f c := by
  by_cases far : Beyond c
  · exact h _ _ (beyond_of_mem far hb) far
  · rw [utf8EncodeChar_ascii far, List.mem_singleton] at hb
    rw [hb, ofUInt8_toUInt8 far]

theorem inside (h : Uniform p) {body : List Char} (inside : ∀ c ∈ body, p c = true) :
    ∀ b ∈ bytesOf body, p (.ofUInt8 b) = true := by
  intro b hb
  obtain ⟨c, hc, hb⟩ := List.mem_flatMap.mp hb
  rw [h.ofUInt8 hb, inside c hc]

theorem stops (h : Uniform p) {rest : List Char} (stops : Stops p rest) :
    ∀ b ∈ (bytesOf rest).head?, p (.ofUInt8 b) = false := by
  intro b hb
  cases rest with
  | nil => cases hb
  | cons c rest =>
    rw [bytesOf_cons, List.head?_append_of_ne_nil _ String.utf8EncodeChar_ne_nil] at hb
    rw [h.ofUInt8 (List.mem_of_mem_head? hb), stops c rfl]

/-- The byte ahead, or the zero at the end, passes as the character ahead does. -/
theorem headD (h : Uniform p) (zero : p (.ofUInt8 0) = false) (cs : List Char) :
    p (.ofUInt8 ((bytesOf cs).headD 0)) = cs.head?.any p := by
  cases cs with
  | nil => exact zero
  | cons c cs =>
    rw [bytesOf_cons, List.head?_cons, Option.any_some]
    cases he : String.utf8EncodeChar c with
    | nil => exact absurd he String.utf8EncodeChar_ne_nil
    | cons b bs =>
      rw [List.cons_append, List.headD_cons]
      exact h.ofUInt8 (he ▸ List.mem_cons_self)

end Uniform

theorem uniform_isDigit : Uniform Char.isDigit := .of_beyond fun _ => isDigit_of_beyond

theorem uniform_isWordPart : Uniform isWordPart := .of_beyond fun _ => isWordPart_of_beyond

theorem uniform_eq {d : Char} (hd : ¬Beyond d) : Uniform fun c => decide (c = d) :=
  .of_beyond fun _ hc => decide_eq_false (ne_of_beyond hc hd)

theorem uniform_line : Uniform fun e => decide (e ≠ '\n') :=
  .of_beyond (a := true) fun _ far => decide_eq_true (ne_of_beyond far (by decide))

/-- Counting a character below 128 comes to counting its byte. -/
theorem count_bytesOf {d : Char} (hd : ¬Beyond d) (cs : List Char) :
    (bytesOf cs).count d.toUInt8 = cs.count d := by
  induction cs with
  | nil => rfl
  | cons c cs ih =>
    rw [bytesOf_cons, List.count_append, ih, List.count_cons, Nat.add_comm]
    congr 1
    by_cases far : Beyond c
    · rw [List.count_eq_zero_of_not_mem, if_neg (by simpa using ne_of_beyond far hd)]
      intro hm
      exact ne_of_beyond (beyond_of_mem far hm) hd (ofUInt8_toUInt8 hd)
    · rw [utf8EncodeChar_ascii far, List.count_singleton]
      simp only [beq_iff_eq, eq_toUInt8_iff hd, ofUInt8_toUInt8 far]

theorem count_newline_le (cs : List Char) : cs.count '\n' ≤ (bytesOf cs).length := by
  rw [← count_bytesOf (by decide)]
  exact List.count_le_length

theorem quote_not_mem {body : List Char} (inside : '"' ∉ body) :
    ∀ b ∈ bytesOf body, b ≠ '"'.toUInt8 := by
  have quote : ¬Beyond '"' := by decide
  intro b hb he
  have found := List.count_pos_iff.mpr (he ▸ hb)
  rw [count_bytesOf quote] at found
  exact inside (List.count_pos_iff.mp found)

/-! ## Cutting between characters -/

section
variable {source : String} {before body after : List Char}

theorem rawEndPos_ofList (cs : List Char) :
    (String.ofList cs).rawEndPos = ⟨(bytesOf cs).length⟩ := by
  rw [String.rawEndPos, ← String.size_toByteArray, size_toByteArray, String.toList_ofList]

theorem isValid_between (whole : source.toList = before ++ after) :
    String.Pos.Raw.IsValid source ⟨(bytesOf before).length⟩ := by
  refine String.Pos.Raw.isValid_iff_exists_append.mpr
    ⟨.ofList before, .ofList after, ?_, (rawEndPos_ofList before).symm⟩
  rw [← String.ofList_append, ← whole, String.ofList_toList]

theorem extract_toByteArray (whole : source.toList = before ++ (body ++ after)) {low high : Nat}
    (hl : low = (bytesOf before).length) (hh : high = (bytesOf (before ++ body)).length) :
    source.toByteArray.extract low high = (String.ofList body).toByteArray := by
  apply ByteArray.ext
  apply Array.toList_inj.mp
  rw [ByteArray.data_extract, hl, hh, Array.toList_extract, toList_data_toByteArray,
    toList_data_toByteArray, whole, String.toList_ofList]
  simp [List.extract_eq_take_drop]

end

end Lox.Scan
