import Mathlib.Data.List.Basic
import PixelUnit.Sheet.Encoding

/-!
# Texts that are read back

Texts are written in UTF-8. Whether a sheet is read back from what was written depends on the
encoding that it names for itself, and on its first character, which may be a byte order mark
(`ReadsBack`, `decodeSheet_toUTF8_iff`). An encoding with one byte for each character serves only
texts in ASCII, for any other text has more bytes than characters.
-/

namespace PixelUnit.Sheet

/-- The bytes of a text in UTF-8. -/
def written (text : String) : List UInt8 :=
  text.toUTF8.data.toList

/-- A character is in ASCII. -/
def IsAscii (c : Char) : Prop :=
  c.val ≤ 127

/-- A text is read back from its bytes in UTF-8: it does not start with a byte order mark, and the
encoding that it names is UTF-8, or is not known, or is one that agrees with UTF-8 on ASCII while
the text is in ASCII, or is another one that makes the same text of these bytes. -/
def ReadsBack [Codecs] (text : String) : Prop :=
  text.toList.head? ≠ some '\ufeff' ∧
    ∀ label, charsetLabel? (written text) = some label →
      match Charset.ofLabel label with
      | .known .utf8 | .unknown => True
      | .known .utf16le | .noName => False
      | .known _ => ∀ c ∈ text.toList, IsAscii c
      | .other d => d text.toUTF8 = .ok text

/-! ## Bytes in UTF-8 -/

theorem written_eq (text : String) : written text = text.toList.flatMap String.utf8EncodeChar := by
  rw [written, String.toUTF8, ← String.utf8Encode_toList, List.utf8Encode]
  simp

/-- Bytes that are taken for UTF-8 give a text exactly if they are its bytes. -/
theorem decode_utf8_eq_some {bytes : ByteArray} {text : String} :
    Encoding.utf8.decode bytes = some text ↔ bytes = text.toUTF8 := by
  show String.fromUTF8? bytes = some text ↔ _
  constructor
  · intro h
    unfold String.fromUTF8? at h
    split at h
    · cases h
      rfl
    · cases h
  · rintro rfl
    exact dif_pos text.isValidUTF8

section Ascii

variable {cs : List Char}

theorem IsAscii.utf8EncodeChar {c : Char} (h : IsAscii c) :
    String.utf8EncodeChar c = [c.val.toUInt8] :=
  String.utf8EncodeChar_eq_singleton (Char.utf8Size_eq_one_iff.2 h)

theorem IsAscii.toNat_toUInt8 {c : Char} (h : IsAscii c) : c.val.toUInt8.toNat = c.toNat := by
  have hle : c.val.toNat ≤ 127 := UInt32.le_iff_toNat_le.1 h
  rw [UInt32.toNat_toUInt8]
  exact Nat.mod_eq_of_lt (by omega)

/-- Texts in ASCII have one byte for each character. -/
theorem flatMap_utf8EncodeChar (h : ∀ c ∈ cs, IsAscii c) :
    cs.flatMap String.utf8EncodeChar = cs.map fun c => c.val.toUInt8 := by
  rw [List.map_eq_flatMap]
  exact List.flatMap_congr fun c hc => (h c hc).utf8EncodeChar

/-- A text has at least as many bytes as characters. -/
theorem length_le_length_flatMap (cs : List Char) :
    cs.length ≤ (cs.flatMap String.utf8EncodeChar).length := by
  induction cs with
  | nil => exact Nat.le_refl _
  | cons c cs ih =>
    have hone := c.utf8Size_pos
    rw [List.flatMap_cons, List.length_append, String.length_utf8EncodeChar, List.length_cons]
    omega

/-- Other texts have more bytes than characters. -/
theorem isAscii_of_length_le (h : (cs.flatMap String.utf8EncodeChar).length ≤ cs.length) :
    ∀ c ∈ cs, IsAscii c := by
  induction cs with
  | nil => exact List.forall_mem_nil _
  | cons c cs ih =>
    have hone := c.utf8Size_pos
    have hmore := length_le_length_flatMap cs
    rw [List.flatMap_cons, List.length_append, String.length_utf8EncodeChar, List.length_cons] at h
    exact List.forall_mem_cons.2
      ⟨Char.utf8Size_eq_one_iff.1 (by omega), ih (by omega)⟩

end Ascii

/-! ## Encodings with one byte for each character -/

/-- The encodings with one byte for each character, and how they read a byte. -/
def byteChar? : Encoding → Option (UInt8 → Option Char)
  | .ascii => some Encoding.asciiChar?
  | .latin1 => some fun b => some (Char.ofNat b.toNat)
  | .windows1252 => some Encoding.windowsChar?
  | .utf8 | .utf16le => none

/-- Bytes that are read one by one give as many characters. -/
theorem length_of_mapM {read : UInt8 → Option Char} {bytes : List UInt8} {cs : List Char}
    (h : bytes.mapM read = some cs) : cs.length = bytes.length := by
  induction bytes generalizing cs with
  | nil =>
    cases h
    rfl
  | cons b bytes ih =>
    rw [List.mapM_cons] at h
    obtain ⟨c, -, h⟩ := Option.bind_eq_some_iff.1 h
    obtain ⟨ds, hds, h⟩ := Option.bind_eq_some_iff.1 h
    cases h
    exact congrArg (· + 1) (ih hds)

theorem mapM_map_eq_some {read : UInt8 → Option Char} {byte : Char → UInt8} {cs : List Char}
    (h : ∀ c ∈ cs, read (byte c) = some c) : (cs.map byte).mapM read = some cs := by
  induction cs with
  | nil => rfl
  | cons c cs ih =>
    obtain ⟨hc, hcs⟩ := List.forall_mem_cons.1 h
    rw [List.map_cons, List.mapM_cons, hc, ih hcs]
    rfl

theorem decode_of_byteChar? {e : Encoding} {read : UInt8 → Option Char}
    (he : byteChar? e = some read) (bytes : ByteArray) :
    e.decode bytes = (bytes.data.toList.mapM read).map String.ofList := by
  cases e <;> cases he
  · rfl
  · have hmap :=
      List.mapM_pure (m := Option) (l := bytes.data.toList) (f := fun b => Char.ofNat b.toNat)
    exact (congrArg (Option.map String.ofList) hmap).symm
  · rfl

/-- They agree with ASCII. -/
theorem byteChar?_of_isAscii {e : Encoding} {read : UInt8 → Option Char}
    (he : byteChar? e = some read) {c : Char} (hc : IsAscii c) :
    read c.val.toUInt8 = some c := by
  have hnat := hc.toNat_toUInt8
  have hlt : c.val.toUInt8 < 0x80 := by
    have hle : c.val.toNat ≤ 127 := UInt32.le_iff_toNat_le.1 hc
    rw [UInt8.lt_iff_toNat_lt, hnat]
    exact Nat.lt_succ_of_le hle
  have hchar : Char.ofNat c.val.toUInt8.toNat = c := by
    rw [hnat, Char.ofNat_toNat]
  cases e <;> cases he
  · rw [Encoding.asciiChar?, if_pos hlt, hchar]
  · exact congrArg some hchar
  · rw [Encoding.windowsChar?, if_neg, hchar]
    exact fun h => UInt8.not_le.2 hlt (of_decide_eq_true (Bool.and_eq_true_iff.1 h).1)

/-- With one byte for each character, a text is read back exactly if it is in ASCII. -/
theorem decode_toUTF8_of_byteChar? {e : Encoding} {read : UInt8 → Option Char}
    (he : byteChar? e = some read) (text : String) :
    e.decode text.toUTF8 = some text ↔ ∀ c ∈ text.toList, IsAscii c := by
  have hdecode : e.decode text.toUTF8 =
      ((text.toList.flatMap String.utf8EncodeChar).mapM read).map String.ofList := by
    rw [decode_of_byteChar? he, ← written_eq, written]
  rw [hdecode]
  constructor
  · intro h
    obtain ⟨cs, hcs, rfl⟩ := Option.map_eq_some_iff.1 h
    rw [String.toList_ofList] at hcs ⊢
    exact isAscii_of_length_le (Nat.le_of_eq (length_of_mapM hcs).symm)
  · intro h
    rw [flatMap_utf8EncodeChar h, mapM_map_eq_some fun c hc => byteChar?_of_isAscii he (h c hc)]
    exact congrArg some String.ofList_toList

/-! ## What stands in front -/

/-- A text starts with some bytes if the rest can be put behind them. -/
theorem afterBytes?_eq_some {start bytes rest : List UInt8} :
    afterBytes? start bytes = some rest ↔ bytes = start ++ rest := by
  unfold afterBytes?
  split
  · next h =>
    obtain ⟨r, rfl⟩ := List.isPrefixOf_iff_prefix.1 h
    rw [List.drop_left, Option.some.injEq, List.append_cancel_left_eq]
  · next h =>
    refine iff_of_false nofun ?_
    rintro rfl
    exact h (List.isPrefixOf_iff_prefix.2 (List.prefix_append _ _))

/-- The first bytes of a text tell its first character. -/
theorem head?_of_written {text : String} {c : Char} {rest : List UInt8}
    (h : written text = String.utf8EncodeChar c ++ rest) : text.toList.head? = some c := by
  rw [written_eq] at h
  cases hcs : text.toList with
  | nil =>
    rw [hcs] at h
    exact absurd (List.append_eq_nil_iff.1 h.symm).1
      (List.length_pos_iff.1 (by rw [String.length_utf8EncodeChar]; exact c.utf8Size_pos))
  | cons d ds =>
    rw [hcs, List.flatMap_cons] at h
    have hd := ByteArray.utf8DecodeChar?_utf8EncodeChar_append (c := d)
      (b := (ds.flatMap String.utf8EncodeChar).toByteArray)
    rw [← List.toByteArray_append, h, List.toByteArray_append,
      ByteArray.utf8DecodeChar?_utf8EncodeChar_append] at hd
    exact hd.symm

/-- A text is written with the bytes of a byte order mark in front if it starts with one. -/
theorem byteOrderMark_iff {text : String} :
    (∃ rest, afterBytes? byteOrderMark (written text) = some rest) ↔
      text.toList.head? = some '\ufeff' := by
  have hmark : byteOrderMark = String.utf8EncodeChar '\ufeff' := by decide
  simp only [afterBytes?_eq_some, hmark]
  constructor
  · rintro ⟨rest, h⟩
    exact head?_of_written h
  · intro h
    obtain ⟨cs, hcs⟩ := List.head?_eq_some_iff.1 h
    exact ⟨_, by rw [written_eq, hcs, List.flatMap_cons]⟩

/-- The bytes of a sheet that names its encoding start with an at-sign and a letter. -/
theorem exists_of_charsetLabel? {bytes label : List UInt8} (h : charsetLabel? bytes = some label) :
    ∃ rest, bytes = 0x40 :: 0x63 :: rest := by
  unfold charsetLabel? at h
  split at h
  · cases h
  · next r hr => exact ⟨_, afterBytes?_eq_some.1 hr⟩

/-- Taken for UTF-16, bytes that start so are a text that starts with another character. -/
theorem head?_of_decode_utf16le {bytes : ByteArray} {rest : List UInt8} {text : String}
    (hbytes : bytes.data.toList = 0x40 :: 0x63 :: rest)
    (h : Encoding.utf16le.decode bytes = some text) :
    text.toList.head? = some (Char.ofNat 0x6340) := by
  have hunit : Encoding.decodeUtf16 (0x40 :: 0x63 :: rest) =
      (Encoding.decodeUtf16 rest).map (Char.ofNat 0x6340 :: ·) := by
    rw [Encoding.decodeUtf16.eq_def]
    rfl
  change (Encoding.decodeUtf16 bytes.data.toList).map String.ofList = some text at h
  rw [hbytes, hunit] at h
  obtain ⟨cs, hcs, rfl⟩ := Option.map_eq_some_iff.1 h
  obtain ⟨ds, -, rfl⟩ := Option.map_eq_some_iff.1 hcs
  rw [String.toList_ofList, List.head?_cons]

/-- A sheet that names UTF-16 is not read back in it, since its rule is written in single bytes. -/
theorem decode_utf16le_toUTF8_ne {text : String} {label : List UInt8}
    (h : charsetLabel? (written text) = some label) :
    Encoding.utf16le.decode text.toUTF8 ≠ some text := by
  obtain ⟨rest, hrest⟩ := exists_of_charsetLabel? h
  have hat : text.toList.head? = some '@' := head?_of_written (c := '@') hrest
  intro hdecode
  rw [head?_of_decode_utf16le hrest hdecode] at hat
  exact absurd (Option.some.inj hat) (by decide)

/-! ## Sheets -/

/-- What is read from a text in UTF-8 is the text itself exactly if it is one that is read back. -/
theorem decodeSheet_toUTF8_iff [Codecs] (path text : String) :
    (decodeSheet path text.toUTF8).1 = .ok text ↔ ReadsBack text := by
  have hutf8 : Encoding.utf8.decoder text.toUTF8 = .ok text :=
    Encoding.decoder_eq_ok_iff.2 (decode_utf8_eq_some.2 rfl)
  unfold decodeSheet ReadsBack
  rw [show text.toUTF8.data.toList = written text from rfl]
  cases hmark : afterBytes? byteOrderMark (written text) with
  | some rest =>
    -- the mark is dropped, so the text that is read is written with fewer bytes
    refine iff_of_false (fun h => ?_) fun h => h.1 (byteOrderMark_iff.1 ⟨rest, hmark⟩)
    have hrest : rest = written text := by
      rw [written, ← decode_utf8_eq_some.1 (Encoding.decoder_eq_ok_iff.1 h)]
    have hlen := congrArg List.length (afterBytes?_eq_some.1 hmark)
    rw [hrest, List.length_append] at hlen
    exact absurd hlen (Nat.ne_of_lt (Nat.lt_add_of_pos_left (by decide)))
  | none =>
    have hhead : text.toList.head? ≠ some '\ufeff' := fun h => by
      obtain ⟨rest, hrest⟩ := byteOrderMark_iff.2 h
      rw [hmark] at hrest
      cases hrest
    rw [and_iff_right hhead]
    cases hlabel : charsetLabel? (written text) with
    | none => simpa using hutf8
    | some label =>
      simp only [Option.some.injEq, forall_eq']
      cases Charset.ofLabel label with
      | unknown => simpa using hutf8
      | noName => simp
      | other d => exact Iff.rfl
      | known e =>
        rw [Encoding.decoder_eq_ok_iff]
        cases e with
        | utf8 => simpa using decode_utf8_eq_some.2 rfl
        | utf16le => simpa using decode_utf16le_toUTF8_ne hlabel
        | ascii => exact decode_toUTF8_of_byteChar? (e := .ascii) rfl text
        | latin1 => exact decode_toUTF8_of_byteChar? (e := .latin1) rfl text
        | windows1252 => exact decode_toUTF8_of_byteChar? (e := .windows1252) rfl text

end PixelUnit.Sheet
