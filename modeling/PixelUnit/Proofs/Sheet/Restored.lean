import PixelUnit.Proofs.Sheet.BrokenOff
import PixelUnit.Proofs.Sheet.Written
import PixelUnit.Sheet.File

/-!
# Sheets put back

What is left of the bytes of a sheet that is read and written again with nothing changed in it
(`restored`): a byte order mark is dropped, and each block without an end gets a closing brace. It
is so for all sheets that are read in UTF-8 (`ReadInUtf8`), and that lose no line feed at their end
(`written_text_of_treeOfFile`).
-/

namespace PixelUnit.Sheet

/-- Bytes without a byte order mark in front. -/
def unmarked (bytes : List UInt8) : List UInt8 :=
  (afterBytes? byteOrderMark bytes).getD bytes

/-- The number of the blocks without an end in the text of some bytes. -/
def openBlocksIn (bytes : List UInt8) : Nat :=
  ((String.fromUTF8? ⟨bytes.toArray⟩).map openBlocks).getD 0

/-- The bytes of a sheet that is put back as it was read. -/
def restored (bytes : List UInt8) : List UInt8 :=
  unmarked bytes ++ List.replicate (openBlocksIn (unmarked bytes)) 0x7d

/-- A sheet is read in UTF-8: it has a byte order mark, or it names no encoding, or UTF-8, or one
that is not known, or one that agrees with UTF-8 on ASCII while it is in ASCII, or another one in
which these bytes are what they are in UTF-8. -/
def ReadInUtf8 [Codecs] (bytes : List UInt8) : Prop :=
  afterBytes? byteOrderMark bytes = none → ∀ label, charsetLabel? bytes = some label →
    match Charset.ofLabel label with
    | .known .utf8 | .unknown | .noName => True
    | .known .utf16le => False
    | .known _ => ∀ b ∈ bytes, b < 0x80
    | .other d => d ⟨bytes.toArray⟩ = Encoding.utf8.decoder ⟨bytes.toArray⟩

/-- Some bytes are read in UTF-8, and what is read loses no line feed when it is written. -/
def Restores [Codecs] (path : String) (bytes : List UInt8) : Prop :=
  ReadInUtf8 bytes ∧
    ∀ source tree, (decodeSheet path ⟨bytes.toArray⟩).1 = .ok source →
      (SourceReading.ofSource source (some path)).tree = .ok tree → ¬LosesFeed source tree

/-! ## Bytes of texts -/

theorem written_append (a b : String) : written (a ++ b) = written a ++ written b := by
  rw [written_eq, written_eq, written_eq, String.toList_append, List.flatMap_append]

/-- Braces are bytes of their own. -/
theorem written_closers (n : Nat) : written (closers n) = List.replicate n 0x7d := by
  induction n with
  | zero => decide
  | succ n ih =>
    rw [closers, List.replicate_succ, String.join_cons, ← closers, written_append, ih]
    rfl

theorem toUTF8_eq (text : String) : text.toUTF8 = ⟨(written text).toArray⟩ := rfl

/-- Bytes in ASCII make up a text in ASCII. -/
theorem exists_ascii_text {bytes : List UInt8} (h : ∀ b ∈ bytes, b < 0x80) :
    ∃ text : String, written text = bytes ∧ ∀ c ∈ text.toList, IsAscii c := by
  have hbyte {b : UInt8} (hb : b ∈ bytes) :
      IsAscii (Char.ofNat b.toNat) ∧ (Char.ofNat b.toNat).val.toUInt8 = b := by
    have hlt : b.toNat < 128 := UInt8.lt_iff_toNat_lt.1 (h b hb)
    have hvalid : b.toNat.isValidChar := Or.inl (by omega)
    have hval : (Char.ofNat b.toNat).val.toNat = b.toNat := by
      rw [Char.ofNat, dif_pos hvalid]
      rfl
    refine ⟨UInt32.le_iff_toNat_le.2 ?_, UInt8.toNat_inj.1 ?_⟩
    · rw [hval]
      exact Nat.le_of_lt_succ hlt
    · rw [UInt32.toNat_toUInt8, hval]
      omega
  have hascii : ∀ c ∈ bytes.map fun b => Char.ofNat b.toNat, IsAscii c := by
    intro c hc
    obtain ⟨b, hb, rfl⟩ := List.mem_map.1 hc
    exact (hbyte hb).1
  refine ⟨String.ofList (bytes.map fun b => Char.ofNat b.toNat), ?_, by rwa [String.toList_ofList]⟩
  rw [written_eq, String.toList_ofList, flatMap_utf8EncodeChar hascii, List.map_map]
  exact (List.map_congr_left fun b hb => (hbyte hb).2).trans bytes.map_id

/-! ## Reading and writing -/

/-- A text that is read in UTF-8 has the bytes that were read, without a byte order mark. -/
theorem written_of_decodeSheet [Codecs] {path source : String} {bytes : List UInt8}
    (h : (decodeSheet path ⟨bytes.toArray⟩).1 = .ok source) (hutf8 : ReadInUtf8 bytes) :
    written source = unmarked bytes := by
  have hplain {rest : List UInt8} (h : Encoding.utf8.decoder ⟨rest.toArray⟩ = .ok source) :
      written source = rest := by
    rw [written, ← decode_utf8_eq_some.1 (Encoding.decoder_eq_ok_iff.1 h)]
  -- On ASCII, the encodings with one byte for each character agree with UTF-8.
  have hbytes {e : Encoding} {read : UInt8 → Option Char} (he : byteChar? e = some read)
      (h : e.decoder ⟨bytes.toArray⟩ = .ok source) (hlow : ∀ b ∈ bytes, b < 0x80) :
      written source = bytes := by
    obtain ⟨text, rfl, hascii⟩ := exists_ascii_text hlow
    have htext := (decode_toUTF8_of_byteChar? he text).2 hascii
    rw [toUTF8_eq, Encoding.decoder_eq_ok_iff.1 h] at htext
    rw [Option.some.inj htext]
  simp only [decodeSheet] at h
  rw [unmarked]
  -- The ways in which an encoding is chosen, in their order: the mark, no rule, the name in the
  -- rule.
  cases hmark : afterBytes? byteOrderMark bytes with
  | some rest =>
    rw [hmark] at h
    exact hplain h
  | none =>
    rw [hmark] at h
    cases hlabel : charsetLabel? bytes with
    | none =>
      rw [hlabel] at h
      exact hplain h
    | some label =>
      have hutf8 := hutf8 hmark label hlabel
      rw [hlabel] at h
      dsimp only at h
      cases hcharset : Charset.ofLabel label with
      | unknown =>
        rw [hcharset] at h
        exact hplain h
      | noName =>
        rw [hcharset] at h
        cases h
      | other d =>
        rw [hcharset] at h hutf8
        exact hplain (hutf8.symm.trans h)
      | known e =>
        rw [hcharset] at h hutf8
        cases e with
        | utf8 => exact hplain h
        | utf16le => exact hutf8.elim
        | ascii => exact hbytes (e := .ascii) rfl h hutf8
        | latin1 => exact hbytes (e := .latin1) rfl h hutf8
        | windows1252 => exact hbytes (e := .windows1252) rfl h hutf8

theorem fromUTF8?_written (text : String) :
    String.fromUTF8? ⟨(written text).toArray⟩ = some text :=
  decode_utf8_eq_some.2 rfl

/-- A sheet that is read and written again is restored. -/
theorem written_text_of_treeOfFile [Codecs] {path : String} {bytes : List UInt8} {tree : Tree}
    (h : (treeOfFile path ⟨bytes.toArray⟩).1 = .ok tree) (hrestores : Restores path bytes) :
    written (tree.text false) = restored bytes := by
  obtain ⟨hutf8, hlost⟩ := hrestores
  obtain ⟨source, hsource, htree⟩ := exists_of_treeOfFile h
  have hbytes := written_of_decodeSheet hsource hutf8
  rw [SourceReading.text_eq_append_closers htree (hlost source tree hsource htree),
    written_append, written_closers, restored, ← hbytes, openBlocksIn, fromUTF8?_written]
  rfl

end PixelUnit.Sheet
