import PixelUnit.Proofs.Sheet.Written
import PixelUnit.Proofs.Text.Runs

/-!
# Sheets that name their encoding

A sheet that starts with a rule for its encoding is read in this encoding, or as UTF-8 if the
encoding is not known. The rule stays at the start of what is read, since all encodings that are
spelled out but one agree with ASCII. Both have an exception (`decodeSheet_charsetRule`): nothing is
read from a sheet with a name that cannot be looked up, and UTF-16 makes other characters of the
rule. Of the encodings beside those, it is only said that they keep the rule where they do.
-/

namespace PixelUnit.Sheet

/-- The rule for an encoding with a given name. -/
def charsetRule (name : List UInt8) : List UInt8 :=
  asciiBytes "@charset \"" ++ name ++ asciiBytes "\";"

/-- A sheet that starts with such a rule. -/
def sheetNaming (name rest : List UInt8) : ByteArray :=
  ⟨(charsetRule name ++ rest).toArray⟩

/-- A name consists of bytes in ASCII, none of which is zero. -/
def CanBeLookedUp (name : List UInt8) : Prop :=
  ∀ b ∈ name, b < 0x80 ∧ b ≠ 0

instance (name : List UInt8) : Decidable (CanBeLookedUp name) :=
  List.decidableBAll (fun b => b < 0x80 ∧ b ≠ 0) name

/-- What a name leads to, as a way to read bytes. There is none if no encoding has the name. -/
def Charset.decoder? : Charset → Option Decoder
  | known e => some e.decoder
  | other d => some d
  | unknown | noName => none

/-- The characters of the rule. -/
def ruleChars (name : List UInt8) : List Char :=
  "@charset \"".toList ++ name.map (fun b => Char.ofNat b.toNat) ++ "\";".toList

/-- A text starts with the rule. -/
def KeepsRule (name : List UInt8) (text : String) : Prop :=
  ruleChars name <+: text.toList

/-! ## The rule -/

section Rule

variable {name rest bytes : List UInt8}

/-- A sheet starts with a rule for an encoding exactly if a name is read there. -/
theorem charsetLabel?_eq_some_iff : charsetLabel? bytes = some name ↔
    name ≠ [] ∧ 0x22 ∉ name ∧ ∃ rest, bytes = charsetRule name ++ rest := by
  unfold charsetLabel?
  constructor
  · intro h
    split at h
    · cases h
    · next r hr =>
      dsimp only at h
      split at h
      · cases h
      · next hne =>
        obtain ⟨rest, hrest, rfl⟩ := Option.map_eq_some_iff.1 h
        refine ⟨by simpa using hne, fun hquote => ?_, rest, ?_⟩
        · exact absurd (List.mem_takeWhile_imp hquote) (by decide)
        · have hsplit := List.prefix_iff_eq_append.1 (List.takeWhile_prefix (· != 0x22) (l := r))
          rw [afterBytes?_eq_some.1 hrest] at hsplit
          rw [afterBytes?_eq_some.1 hr, charsetRule, List.append_assoc, List.append_assoc, hsplit]
  · rintro ⟨hne, hquote, rest, rfl⟩
    have hrun : ∀ b ∈ name, (b != 0x22) = true := fun b hb =>
      bne_iff_ne.2 fun h => hquote (h ▸ hb)
    have htake : (name ++ (asciiBytes "\";" ++ rest)).takeWhile (· != 0x22) = name :=
      Text.takeWhile_run hrun (by rintro b ⟨⟩; decide)
    rw [charsetRule, List.append_assoc, List.append_assoc, afterBytes?_eq_some.2 rfl]
    dsimp only
    rw [htake, if_neg (by simpa using hne), List.drop_left, afterBytes?_eq_some.2 rfl]
    rfl

/-- Bytes are characters of ASCII if they are all below 128. -/
theorem mapM_asciiChar?_eq_some_iff {cs : List Char} :
    name.mapM Encoding.asciiChar? = some cs ↔
      (∀ b ∈ name, b < 0x80) ∧ cs = name.map fun b => Char.ofNat b.toNat := by
  induction name generalizing cs with
  | nil => simp [eq_comm]
  | cons b name ih =>
    rw [List.mapM_cons, List.forall_mem_cons, Encoding.asciiChar?]
    by_cases hb : b < 0x80
    · rw [if_pos hb]
      constructor
      · intro h
        obtain ⟨_, ⟨⟩, h⟩ := Option.bind_eq_some_iff.1 h
        obtain ⟨ds, hds, ⟨⟩⟩ := Option.bind_eq_some_iff.1 h
        obtain ⟨hname, rfl⟩ := ih.1 hds
        exact ⟨⟨hb, hname⟩, rfl⟩
      · rintro ⟨⟨-, hname⟩, rfl⟩
        rw [ih.2 ⟨hname, rfl⟩]
        rfl
    · rw [if_neg hb]
      refine iff_of_false (fun h => ?_) fun h => hb h.1.1
      cases h

theorem toNat_ofNat_of_lt {b : UInt8} (hb : b < 0x80) :
    (Char.ofNat b.toNat).toNat = b.toNat := by
  have hlt : b.toNat < 128 := UInt8.lt_iff_toNat_lt.1 hb
  have hvalid : b.toNat.isValidChar := Or.inl (by omega)
  rw [Char.ofNat, dif_pos hvalid]
  rfl

theorem ofNat_toNat_eq_zero_iff {b : UInt8} (hb : b < 0x80) :
    Char.ofNat b.toNat = '\x00' ↔ b = 0 := by
  constructor
  · intro h
    have hnat := congrArg Char.toNat h
    rw [toNat_ofNat_of_lt hb] at hnat
    exact UInt8.toNat_inj.1 hnat
  · rintro rfl
    rfl

/-- A name cannot be looked up if it is not in ASCII or has a zero byte. -/
theorem ofLabel_eq_noName_iff [Codecs] : Charset.ofLabel name = .noName ↔ ¬CanBeLookedUp name := by
  unfold Charset.ofLabel CanBeLookedUp
  cases hcs : name.mapM Encoding.asciiChar? with
  | none =>
    refine iff_of_true rfl fun h => ?_
    have hsome := mapM_asciiChar?_eq_some_iff.2 ⟨fun b hb => (h b hb).1, rfl⟩
    cases hcs.symm.trans hsome
  | some cs =>
    obtain ⟨hascii, rfl⟩ := mapM_asciiChar?_eq_some_iff.1 hcs
    dsimp only
    split
    · next hzero =>
      refine iff_of_true rfl fun h => ?_
      obtain ⟨b, hb, hchar⟩ := List.mem_map.1 (List.contains_iff_mem.1 hzero)
      exact (h b hb).2 ((ofNat_toNat_eq_zero_iff (hascii b hb)).1 hchar)
    · next hzero =>
      refine iff_of_false (by split <;> nofun) fun h => h fun b hb => ⟨hascii b hb, ?_⟩
      rintro rfl
      exact hzero (List.contains_iff_mem.2 (List.mem_map.2 ⟨0, hb, rfl⟩))

/-- A name that leads to an encoding, or to none that is known, is in ASCII. -/
theorem lt_of_ofLabel_ne [Codecs] (h : Charset.ofLabel name ≠ .noName) : ∀ b ∈ name, b < 0x80 := by
  have hname : CanBeLookedUp name := not_not.1 fun hnot => h (ofLabel_eq_noName_iff.2 hnot)
  exact fun b hb => (hname b hb).1

theorem isAscii_of_lt {b : UInt8} (hb : b < 0x80) :
    IsAscii (Char.ofNat b.toNat) ∧ (Char.ofNat b.toNat).val.toUInt8 = b := by
  have hnat := toNat_ofNat_of_lt hb
  have hascii : IsAscii (Char.ofNat b.toNat) := by
    refine UInt32.le_iff_toNat_le.2 ?_
    have hlt : b.toNat < 128 := UInt8.lt_iff_toNat_lt.1 hb
    exact (Nat.le_of_eq hnat).trans (Nat.le_of_lt_succ hlt)
  exact ⟨hascii, UInt8.toNat_inj.1 (hascii.toNat_toUInt8.trans hnat)⟩

instance (c : Char) : Decidable (IsAscii c) :=
  inferInstanceAs (Decidable (c.val ≤ 127))

/-- The rule is in ASCII if the name is. -/
theorem isAscii_ruleChars (hname : ∀ b ∈ name, b < 0x80) : ∀ c ∈ ruleChars name, IsAscii c := by
  have hfront : ("@charset \"".toList.all fun c => decide (IsAscii c)) = true := by decide +kernel
  have hback : ("\";".toList.all fun c => decide (IsAscii c)) = true := by decide +kernel
  intro c hc
  rcases List.mem_append.1 hc with hc | hc
  · rcases List.mem_append.1 hc with hc | hc
    · exact of_decide_eq_true (List.all_eq_true.1 hfront c hc)
    · obtain ⟨b, hb, rfl⟩ := List.mem_map.1 hc
      exact (isAscii_of_lt (hname b hb)).1
  · exact of_decide_eq_true (List.all_eq_true.1 hback c hc)

/-- The bytes of the rule are its characters. -/
theorem charsetRule_eq (hname : ∀ b ∈ name, b < 0x80) :
    charsetRule name = (ruleChars name).map fun c => c.val.toUInt8 := by
  have hmap : (name.map fun b => Char.ofNat b.toNat).map (fun c => c.val.toUInt8) = name := by
    rw [List.map_map]
    exact (List.map_congr_left fun b hb => (isAscii_of_lt (hname b hb)).2).trans (List.map_id _)
  have hfront : "@charset \"".toList.map (fun c => c.val.toUInt8) = asciiBytes "@charset \"" := by
    decide +kernel
  have hback : "\";".toList.map (fun c => c.val.toUInt8) = asciiBytes "\";" := by
    decide +kernel
  -- the literals are hidden, since unification would compute them
  unfold charsetRule ruleChars
  generalize "@charset \"".toList = front at hfront
  generalize "\";".toList = back at hback
  rw [← hfront, ← hback, List.map_append, List.map_append, hmap]

end Rule

/-! ## What is read -/

section Read

variable {name rest : List UInt8} {text : String}

/-- The first bytes of a text tell its first characters. -/
theorem isPrefix_of_flatMap {cs ts : List Char}
    (h : ts.flatMap String.utf8EncodeChar = cs.flatMap String.utf8EncodeChar ++ rest) :
    cs <+: ts := by
  induction cs generalizing ts with
  | nil => exact List.nil_prefix
  | cons c cs ih =>
    rw [List.flatMap_cons, List.append_assoc] at h
    have hwritten : written (String.ofList ts) =
        String.utf8EncodeChar c ++ (cs.flatMap String.utf8EncodeChar ++ rest) := by
      rw [written_eq, String.toList_ofList, h]
    have hhead := head?_of_written hwritten
    rw [String.toList_ofList] at hhead
    obtain ⟨ts, rfl⟩ := List.head?_eq_some_iff.1 hhead
    rw [List.flatMap_cons, List.append_cancel_left_eq] at h
    exact List.cons_prefix_cons.2 ⟨rfl, ih h⟩

/-- Decoding as UTF-8 keeps a rule in ASCII. -/
theorem keepsRule_of_utf8 (hname : ∀ b ∈ name, b < 0x80)
    (h : Encoding.utf8.decode (sheetNaming name rest) = some text) : KeepsRule name text := by
  have hbytes : written text = charsetRule name ++ rest := by
    rw [written, ← decode_utf8_eq_some.1 h, sheetNaming]
  rw [written_eq, charsetRule_eq hname,
    ← flatMap_utf8EncodeChar (isAscii_ruleChars hname)] at hbytes
  exact isPrefix_of_flatMap hbytes

/-- Decoding byte by byte keeps a rule in ASCII. -/
theorem keepsRule_of_byteChar? {e : Encoding} {read : UInt8 → Option Char}
    (he : byteChar? e = some read) (hname : ∀ b ∈ name, b < 0x80)
    (h : e.decode (sheetNaming name rest) = some text) : KeepsRule name text := by
  rw [decode_of_byteChar? he] at h
  obtain ⟨cs, hcs, rfl⟩ := Option.map_eq_some_iff.1 h
  have hrule : (charsetRule name).mapM read = some (ruleChars name) := by
    rw [charsetRule_eq hname]
    exact mapM_map_eq_some fun c hc => byteChar?_of_isAscii he (isAscii_ruleChars hname c hc)
  change (charsetRule name ++ rest).mapM read = some cs at hcs
  rw [List.mapM_append, hrule] at hcs
  obtain ⟨_, ⟨⟩, hcs⟩ := Option.bind_eq_some_iff.1 hcs
  obtain ⟨ds, -, ⟨⟩⟩ := Option.bind_eq_some_iff.1 hcs
  rw [KeepsRule, String.toList_ofList]
  exact List.prefix_append _ _

/-- Decoding as UTF-16 pairs the bytes of the rule up, which destroys it. -/
theorem not_keepsRule_of_utf16le
    (h : Encoding.utf16le.decode (sheetNaming name rest) = some text) : ¬KeepsRule name text := by
  rintro ⟨cs, hcs⟩
  obtain ⟨r, hr⟩ : ∃ r, (sheetNaming name rest).data.toList = 0x40 :: 0x63 :: r := ⟨_, rfl⟩
  have hhead := head?_of_decode_utf16le hr h
  rw [← hcs] at hhead
  exact absurd (Option.some.inj hhead) (by decide)

/-- A sheet that starts with a rule is decoded as the name in it says. -/
theorem decodeSheet_sheetNaming [Codecs] (path : String) (hne : name ≠ []) (hquote : 0x22 ∉ name) :
    (decodeSheet path (sheetNaming name rest)).1 =
      match Charset.ofLabel name with
      | .known e => e.decoder (sheetNaming name rest)
      | .other d => d (sheetNaming name rest)
      | .unknown => Encoding.utf8.decoder (sheetNaming name rest)
      | .noName => .error .malformed := by
  have hlabel : charsetLabel? (sheetNaming name rest).data.toList = some name :=
    charsetLabel?_eq_some_iff.2 ⟨hne, hquote, rest, rfl⟩
  unfold decodeSheet
  rw [show afterBytes? byteOrderMark (sheetNaming name rest).data.toList = none from rfl, hlabel]
  dsimp only
  cases Charset.ofLabel name <;> rfl

end Read

/-- A sheet with a name that no encoding has is read as UTF-8, unless the name cannot be looked up
while the sheet is UTF-8. The rule stays at the start of what is read, unless it names UTF-16 and
the sheet is UTF-16, or it names another encoding that does not keep it. -/
theorem decodeSheet_charsetRule [Codecs] (path : String) {name : List UInt8} (rest : List UInt8)
    (hne : name ≠ []) (hquote : 0x22 ∉ name) :
    ((Charset.ofLabel name).decoder? = none →
      ((decodeSheet path (sheetNaming name rest)).1 =
          Encoding.utf8.decoder (sheetNaming name rest) ↔
        CanBeLookedUp name ∨ Encoding.utf8.decode (sheetNaming name rest) = none)) ∧
    ((∀ text, (decodeSheet path (sheetNaming name rest)).1 = .ok text → KeepsRule name text) ↔
      (Charset.ofLabel name = .known .utf16le →
        Encoding.utf16le.decode (sheetNaming name rest) = none) ∧
      ∀ d, Charset.ofLabel name = .other d →
        ∀ text, d (sheetNaming name rest) = .ok text → KeepsRule name text) := by
  have hread := @decodeSheet_sheetNaming name rest _ path hne hquote
  cases hname : Charset.ofLabel name with
  -- An unknown name is in ASCII, and so is the rule, which UTF-8 keeps.
  | unknown =>
    rw [hname] at hread
    have hlookup : CanBeLookedUp name := not_not.1 fun hnot => by
      cases (ofLabel_eq_noName_iff.2 hnot).symm.trans hname
    rw [hread]
    refine ⟨fun _ => iff_of_true rfl (Or.inl hlookup), iff_of_true (fun text htext => ?_) ?_⟩
    · exact keepsRule_of_utf8 (fun b hb => (hlookup b hb).1) (Encoding.decoder_eq_ok_iff.1 htext)
    · exact ⟨nofun, nofun⟩
  -- A name that cannot be looked up has nothing read from the sheet.
  | noName =>
    rw [hname] at hread
    have hlookup := ofLabel_eq_noName_iff.1 hname
    rw [hread]
    refine ⟨fun _ => ?_, iff_of_true nofun ⟨nofun, nofun⟩⟩
    rw [or_iff_right hlookup, Encoding.decoder]
    cases Encoding.utf8.decode (sheetNaming name rest) <;> simp
  | other d =>
    rw [hname] at hread
    rw [hread]
    refine ⟨nofun, fun h => ⟨nofun, ?_⟩, fun h => h.2 d rfl⟩
    rintro _ ⟨⟩
    exact h
  | known e =>
    rw [hname] at hread
    have hascii : ∀ b ∈ name, b < 0x80 := lt_of_ofLabel_ne (by simp [hname])
    rw [hread]
    simp only [Encoding.decoder_eq_ok_iff]
    refine ⟨nofun, ?_⟩
    rw [and_iff_left nofun]
    -- All encodings that are spelled out but UTF-16 read a byte of ASCII as its character.
    cases e with
    | utf8 => exact iff_of_true (fun text => keepsRule_of_utf8 hascii) nofun
    | ascii => exact iff_of_true (fun text => keepsRule_of_byteChar? (e := .ascii) rfl hascii) nofun
    | latin1 =>
      exact iff_of_true (fun text => keepsRule_of_byteChar? (e := .latin1) rfl hascii) nofun
    | windows1252 =>
      exact iff_of_true (fun text => keepsRule_of_byteChar? (e := .windows1252) rfl hascii) nofun
    | utf16le =>
      rw [Option.eq_none_iff_forall_ne_some]
      exact ⟨fun h _ text htext => not_keepsRule_of_utf16le htext (h text htext),
        fun h text htext => absurd htext (h rfl text)⟩

attribute [local instance] Codecs.none

/-- A name that no encoding has. -/
def unknownName : List UInt8 := asciiBytes "z"

theorem ofLabel_unknownName : Charset.ofLabel unknownName = .unknown := by
  have hchars : unknownName.mapM Encoding.asciiChar? = some ['z'] := by decide +kernel
  have hname : (Text.trim ['z']).map Char.toLower = ['z'] := by decide +kernel
  have hnone : Encoding.ofLabel? ['z'] = none := by decide +kernel
  rw [Charset.ofLabel, hchars]
  dsimp only
  rw [if_neg (by decide), hname, hnone]
  rfl

/-- A name that no encoding has is read as UTF-8, and the rule is kept. -/
theorem decodeSheet_charsetRule_unknownName :
    (decodeSheet "a.css" (sheetNaming unknownName [])).1 = .ok "@charset \"z\";" ∧
      KeepsRule unknownName "@charset \"z\";" := by
  obtain ⟨hutf8, hkeeps⟩ := @decodeSheet_charsetRule _ "a.css" unknownName [] (by decide +kernel)
    (by decide +kernel)
  rw [ofLabel_unknownName] at hutf8 hkeeps
  have hdecode : Encoding.utf8.decoder (sheetNaming unknownName []) = .ok "@charset \"z\";" :=
    Encoding.decoder_eq_ok_iff.2 (decode_utf8_eq_some.2 (by decide +kernel))
  have hread := (hutf8 rfl).2 (Or.inl (by decide +kernel))
  rw [hdecode] at hread
  exact ⟨hread, hkeeps.2 ⟨nofun, nofun⟩ _ hread⟩

/-- A name outside ASCII, in UTF-8. -/
def foreignName : List UInt8 := [0xc3, 0xa9]

/-- A sheet with a name outside ASCII is not decoded at all. -/
theorem not_asUtf8_foreignName : (Charset.ofLabel foreignName).decoder? = none ∧
    (decodeSheet "input.css" (sheetNaming foreignName [])).1 ≠
      Encoding.utf8.decoder (sheetNaming foreignName []) := by
  have hname : Charset.ofLabel foreignName = .noName :=
    ofLabel_eq_noName_iff.2 (by decide +kernel)
  have hdecode : Encoding.utf8.decoder (sheetNaming foreignName []) = .ok "@charset \"é\";" :=
    Encoding.decoder_eq_ok_iff.2 (decode_utf8_eq_some.2 (by decide +kernel))
  rw [decodeSheet_sheetNaming "input.css" (by decide +kernel) (by decide +kernel), hname, hdecode]
  exact ⟨rfl, nofun⟩

/-- The name of UTF-16. -/
def wideName : List UInt8 := asciiBytes "utf-16le"

theorem ofLabel_wideName : Charset.ofLabel wideName = .known .utf16le := by
  have hchars : wideName.mapM Encoding.asciiChar? = some "utf-16le".toList := by decide +kernel
  have hname : (Text.trim "utf-16le".toList).map Char.toLower = "utf-16le".toList := by
    decide +kernel
  have hknown : Encoding.ofLabel? "utf-16le".toList = some .utf16le := by decide +kernel
  have hzero : ¬"utf-16le".toList.contains '\x00' = true := by decide +kernel
  rw [Charset.ofLabel, hchars]
  dsimp only
  rw [if_neg hzero, hname, hknown]

/-- The rule for UTF-16 is not kept by the encoding that it names. -/
theorem not_keepsRule_wideName : ∃ text,
    (decodeSheet "input.css" (sheetNaming wideName [])).1 = .ok text ∧
      ¬KeepsRule wideName text := by
  have hdecode : (Encoding.utf16le.decode (sheetNaming wideName [])).isSome = true := by
    decide +kernel
  obtain ⟨text, htext⟩ := Option.isSome_iff_exists.1 hdecode
  refine ⟨text, ?_, not_keepsRule_of_utf16le htext⟩
  rw [decodeSheet_sheetNaming "input.css" (by decide +kernel) (by decide +kernel),
    ofLabel_wideName]
  exact Encoding.decoder_eq_ok_iff.2 htext

end PixelUnit.Sheet
