import Taomni.Encoding.Workspace

/-!
# Opening and saving a Unicode file

Reference: `src-tauri/src/workspace/encoding.rs`.

For UTF-8 and UTF-16 the byte order mark taken off by the decoder is the one the encoder puts back,
and the payload is coded without loss. An encoded text starts with the mark of its own encoding only
if its first character is U+FEFF.
-/

namespace Taomni.Encoding

open List

variable {rs : EncodingRs}

/-! ## UTF-8 of strings -/

theorem fromUtf8_utf8Bytes (text : String) : fromUtf8 (utf8Bytes text) = some text := by
  have hvalid : ByteArray.IsValidUTF8 ⟨(utf8Bytes text).toArray⟩ := text.isValidUTF8
  rw [fromUtf8, String.fromUTF8?, dif_pos hvalid]
  rfl

variable {text : String}

variable {bytes : List UInt8}

theorem utf8Bytes_of_fromUtf8 (h : fromUtf8 bytes = some text) : utf8Bytes text = bytes := by
  rw [fromUtf8, String.fromUTF8?] at h
  split at h
  · obtain rfl := Option.some.inj h
    rfl
  · cases h

theorem utf8Bytes_append (s t : String) : utf8Bytes (s ++ t) = utf8Bytes s ++ utf8Bytes t := by
  simp [utf8Bytes]

/-- A text whose bytes come first comes first itself. -/
theorem toList_prefix_of_utf8Bytes {s t : String} (h : utf8Bytes s <+: utf8Bytes t) :
    s.toList <+: t.toList := by
  obtain ⟨rest, hrest⟩ := h
  refine isPrefix_of_utf8Encode_append_eq_utf8Encode ⟨rest.toArray⟩ ?_
  rw [String.utf8Encode_toList, String.utf8Encode_toList]
  refine ByteArray.ext (Array.toList_inj.mp ?_)
  exact hrest

/-- The bytes of a text start with the byte order mark only if the text starts with U+FEFF. -/
theorem head?_of_utf8Bom_prefix (h : utf8Bom <+: utf8Bytes text) :
    text.toList.head? = some (Char.ofNat 0xFEFF) := by
  have hmark : utf8Bytes (String.ofList [Char.ofNat 0xFEFF]) = utf8Bom := by decide
  obtain ⟨tail, htail⟩ := toList_prefix_of_utf8Bytes (hmark ▸ h)
  rw [← htail]
  rfl

/-! ## UTF-16 of strings -/

/-- The first unit of a text is the byte order mark only if the text starts with U+FEFF. -/
theorem head?_of_encodeUtf16_cons {cs : List Char} {rest : List UInt16}
    (h : encodeUtf16 cs = 0xFEFF :: rest) : cs.head? = some (Char.ofNat 0xFEFF) := by
  have hdecode := decodeUtf16_encodeUtf16 cs
  rw [h] at hdecode
  cases rest with
  | nil =>
    obtain rfl := Option.some.inj hdecode
    rfl
  | cons v rest =>
    rw [decodeUtf16, if_neg (by decide)] at hdecode
    obtain ⟨tail, -, rfl⟩ := Option.map_eq_some_iff.mp hdecode
    rfl

/-- The byte order mark of UTF-16. -/
def utf16Bom (order : ByteOrder) : List UInt8 := unitBytes order 0xFEFF

theorem utf16Bom_little : utf16Bom .little = utf16leBom := by decide

theorem utf16Bom_big : utf16Bom .big = utf16beBom := by decide

theorem head?_of_utf16Bom_prefix {order : ByteOrder} {cs : List Char}
    (h : utf16Bom order <+: (encodeUtf16 cs).flatMap (unitBytes order)) :
    cs.head? = some (Char.ofNat 0xFEFF) := by
  obtain ⟨rest, hrest⟩ := h
  have hunits := bytesToUnits_flatMap_unitBytes order (encodeUtf16 cs)
  rw [← hrest, utf16Bom, bytesToUnits_unitBytes] at hunits
  obtain ⟨tail, -, htail⟩ := Option.map_eq_some_iff.mp hunits
  exact head?_of_encodeUtf16_cons htail.symm

/-! ## The Unicode encodings -/

def IsUnicode (rs : EncodingRs) (encoding : rs.Enc) : Prop :=
  encoding = rs.utf8 ∨ encoding = rs.utf16le ∨ encoding = rs.utf16be

/-- The byte order mark of a Unicode encoding. -/
def bomOf (rs : EncodingRs) (encoding : rs.Enc) : List UInt8 :=
  if encoding = rs.utf8 then utf8Bom
  else if encoding = rs.utf16le then utf16leBom
  else if encoding = rs.utf16be then utf16beBom
  else []

theorem bomOf_utf8 : bomOf rs rs.utf8 = utf8Bom := if_pos rfl

theorem bomOf_utf16le (laws : EncodingLaws rs) : bomOf rs rs.utf16le = utf16leBom := by
  rw [bomOf, if_neg laws.utf8_ne_utf16le.symm, if_pos rfl]

theorem bomOf_utf16be (laws : EncodingLaws rs) : bomOf rs rs.utf16be = utf16beBom := by
  rw [bomOf, if_neg laws.utf8_ne_utf16be.symm, if_neg laws.utf16le_ne_utf16be.symm, if_pos rfl]

theorem encodePayload_utf8 (laws : EncodingLaws rs) (text : String) :
    encodePayload rs text rs.utf8 = .ok (utf8Bytes text) := by
  have hne : ¬ (rs.utf8 = rs.utf16le ∨ rs.utf8 = rs.utf16be) := by
    rintro (h | h)
    · exact laws.utf8_ne_utf16le h
    · exact laws.utf8_ne_utf16be h
  rw [encodePayload, if_neg hne, laws.encode_utf8]
  rfl

theorem encodePayload_utf16le (text : String) : encodePayload rs text rs.utf16le
      = .ok ((encodeUtf16 text.toList).flatMap (unitBytes .little)) := by
  rw [encodePayload, if_pos (Or.inl rfl), if_pos rfl]

theorem encodePayload_utf16be (laws : EncodingLaws rs) (text : String) :
    encodePayload rs text rs.utf16be = .ok ((encodeUtf16 text.toList).flatMap (unitBytes .big)) := by
  rw [encodePayload, if_pos (Or.inr rfl), if_neg laws.utf16le_ne_utf16be.symm]

variable {payload : List UInt8}

/-- What strict UTF-16 decoding accepts is coded back to the same bytes. -/
theorem flatMap_of_decodeUtf16 {order : ByteOrder}
    (h : ((bytesToUnits order payload).bind decodeUtf16).map String.ofList = some text) :
    (encodeUtf16 text.toList).flatMap (unitBytes order) = payload := by
  obtain ⟨cs, hcs, rfl⟩ := Option.map_eq_some_iff.mp h
  obtain ⟨us, hus, hdecode⟩ := Option.bind_eq_some_iff.mp hcs
  rw [String.toList_ofList, encodeUtf16_of_decodeUtf16 hdecode,
    flatMap_unitBytes_of_bytesToUnits hus]

theorem decodeUtf16_of_flatMap (order : ByteOrder) (text : String) :
    ((bytesToUnits order ((encodeUtf16 text.toList).flatMap (unitBytes order))).bind
      decodeUtf16).map String.ofList = some text := by
  rw [bytesToUnits_flatMap_unitBytes, Option.bind_some, decodeUtf16_encodeUtf16, Option.map_some,
    String.ofList_toList]

variable {encoding : rs.Enc}

theorem encodePayload_of_decode (laws : EncodingLaws rs) (hunicode : IsUnicode rs encoding)
    (h : rs.decode encoding payload = some text) : encodePayload rs text encoding = .ok payload := by
  rcases hunicode with rfl | rfl | rfl
  · rw [laws.decode_utf8] at h
    rw [encodePayload_utf8 laws, utf8Bytes_of_fromUtf8 h]
  · rw [laws.decode_utf16le] at h
    rw [encodePayload_utf16le, flatMap_of_decodeUtf16 h]
  · rw [laws.decode_utf16be] at h
    rw [encodePayload_utf16be laws, flatMap_of_decodeUtf16 h]

/-- A Unicode encoding represents every text, and the payload decodes to the text again. -/
theorem exists_encodePayload (laws : EncodingLaws rs)
    (hunicode : IsUnicode rs encoding) (text : String) :
    ∃ payload, encodePayload rs text encoding = .ok payload ∧ rs.decode encoding payload = some text ∧
      (bomOf rs encoding <+: payload → text.toList.head? = some (Char.ofNat 0xFEFF)) := by
  rcases hunicode with rfl | rfl | rfl
  · refine ⟨_, encodePayload_utf8 laws text, ?_, ?_⟩
    · rw [laws.decode_utf8, fromUtf8_utf8Bytes]
    · rw [bomOf_utf8]
      exact head?_of_utf8Bom_prefix
  · refine ⟨_, encodePayload_utf16le text, ?_, ?_⟩
    · rw [laws.decode_utf16le, decodeUtf16_of_flatMap]
    · rw [bomOf_utf16le laws, ← utf16Bom_little]
      exact head?_of_utf16Bom_prefix
  · refine ⟨_, encodePayload_utf16be laws text, ?_, ?_⟩
    · rw [laws.decode_utf16be, decodeUtf16_of_flatMap]
    · rw [bomOf_utf16be laws, ← utf16Bom_big]
      exact head?_of_utf16Bom_prefix

/-! ## Byte order marks -/

/-- The mark in front of the payload, when there is one. -/
def withBom (rs : EncodingRs) (encoding : rs.Enc) (bom : Bool) (payload : List UInt8) : List UInt8 :=
  if bom then bomOf rs encoding ++ payload else payload

variable {label : String}

theorem encodeWorkspaceText_eq (laws : EncodingLaws rs)
    (hlabel : encodingForLabel rs label = .ok encoding) (hunicode : IsUnicode rs encoding)
    (h : encodePayload rs text encoding = .ok payload)
    (bom : Bool) : encodeWorkspaceText rs text label bom = .ok (withBom rs encoding bom payload) := by
  rw [encodeWorkspaceText, hlabel]
  dsimp only
  rw [h]
  dsimp only
  cases bom with
  | false =>
    simp only [Bool.false_eq_true, false_and, if_false]
    rfl
  | true =>
    simp only [true_and]
    rcases hunicode with rfl | rfl | rfl
    · rw [if_pos rfl, withBom, if_pos rfl, bomOf_utf8]
    · rw [if_neg laws.utf8_ne_utf16le.symm, if_pos rfl, withBom, if_pos rfl, bomOf_utf16le laws]
    · rw [if_neg laws.utf8_ne_utf16be.symm, if_neg laws.utf16le_ne_utf16be.symm, if_pos rfl,
        withBom, if_pos rfl, bomOf_utf16be laws]

private theorem append_drop_of_isPrefixOf {mark : List UInt8} (h : mark.isPrefixOf bytes) :
    mark ++ bytes.drop mark.length = bytes := by
  obtain ⟨rest, rfl⟩ := isPrefixOf_iff_prefix.mp h
  rw [drop_left]

/-- Detection takes off the mark of the encoding it finds, and nothing else. -/
theorem withBom_detectedPayload (laws : EncodingLaws rs) (bytes : List UInt8) :
    withBom rs (detectedPayload rs bytes).1 (detectedPayload rs bytes).2.2
      (detectedPayload rs bytes).2.1 = bytes := by
  rw [detectedPayload]
  split
  · next h =>
    rw [withBom, if_pos rfl, bomOf_utf8]
    exact append_drop_of_isPrefixOf h
  split
  · next h =>
    rw [withBom, if_pos rfl, bomOf_utf16le laws]
    exact append_drop_of_isPrefixOf h
  split
  · next h =>
    rw [withBom, if_pos rfl, bomOf_utf16be laws]
    exact append_drop_of_isPrefixOf h
  split
  · rfl
  split <;> rfl

/-- A request takes off the mark of the encoding it asks for, when it is there. -/
theorem requestedPayload_eq (laws : EncodingLaws rs)
    (hlabel : encodingForLabel rs label = .ok encoding) (hunicode : IsUnicode rs encoding)
    (bytes : List UInt8) : requestedPayload rs bytes label
      = .ok (if (bomOf rs encoding).isPrefixOf bytes then
          (encoding, bytes.drop (bomOf rs encoding).length, true) else (encoding, bytes, false)) := by
  rw [requestedPayload, hlabel]
  dsimp only
  rcases hunicode with rfl | rfl | rfl
  · rw [bomOf_utf8]
    simp only [true_and, laws.utf8_ne_utf16le, laws.utf8_ne_utf16be, false_and, if_false]
    split <;> rfl
  · rw [bomOf_utf16le laws]
    simp only [true_and, laws.utf8_ne_utf16le.symm, laws.utf16le_ne_utf16be, false_and, if_false]
    split <;> rfl
  · rw [bomOf_utf16be laws]
    simp only [true_and, laws.utf8_ne_utf16be.symm, laws.utf16le_ne_utf16be.symm, false_and,
      if_false]
    split <;> rfl

/-- What was encoded with or without a mark is recognised so. -/
theorem requestedPayload_withBom (laws : EncodingLaws rs)
    (hlabel : encodingForLabel rs label = .ok encoding) (hunicode : IsUnicode rs encoding)
    (hpayload : ¬ bomOf rs encoding <+: payload) (bom : Bool) :
    requestedPayload rs (withBom rs encoding bom payload) label = .ok (encoding, payload, bom) := by
  rw [requestedPayload_eq laws hlabel hunicode]
  cases bom with
  | false =>
    rw [withBom, if_neg Bool.false_ne_true, if_neg]
    rwa [List.isPrefixOf_iff_prefix]
  | true =>
    rw [withBom, if_pos rfl, if_pos (List.isPrefixOf_iff_prefix.mpr (prefix_append _ _)),
      drop_left]

/-! ## The two round trips -/

/-- A decoded file is the text of its payload under the name of its encoding. -/
theorem decode_of_decodePayload {requested bom bom' : Bool} {name : String}
    (h : decodePayload rs bytes requested encoding payload bom = .ok (text, name, bom')) :
    rs.decode encoding payload = some text ∧ rs.name encoding = name ∧ bom = bom' := by
  rw [decodePayload] at h
  split at h
  · cases h
  · next text' hdecode =>
    split at h
    · cases h
    · cases h
      exact ⟨hdecode, rfl, rfl⟩

private theorem normalizeLabel_utf8 : normalizeLabel "UTF-8" = "UTF-8" := by decide

private theorem normalizeLabel_utf16le : normalizeLabel "UTF-16LE" = "UTF-16LE" := by decide

private theorem normalizeLabel_utf16be : normalizeLabel "UTF-16BE" = "UTF-16BE" := by decide

/-- The name of a Unicode encoding is a label of it. -/
theorem encodingForLabel_name (laws : EncodingLaws rs) (hunicode : IsUnicode rs encoding) :
    encodingForLabel rs (rs.name encoding) = .ok encoding := by
  rcases hunicode with rfl | rfl | rfl
  · rw [laws.name_utf8, encodingForLabel, normalizeLabel_utf8, laws.forLabel_utf8]
  · rw [laws.name_utf16le, encodingForLabel, normalizeLabel_utf16le, laws.forLabel_utf16le]
  · rw [laws.name_utf16be, encodingForLabel, normalizeLabel_utf16be, laws.forLabel_utf16be]

theorem isUnicode_of_name (laws : EncodingLaws rs)
    (h : rs.name encoding ∈ ["UTF-8", "UTF-16LE", "UTF-16BE"]) : IsUnicode rs encoding := by
  rw [mem_cons, mem_cons, mem_singleton] at h
  rcases h with h | h | h
  · exact .inl (laws.name_injective (h.trans laws.name_utf8.symm))
  · exact .inr (.inl (laws.name_injective (h.trans laws.name_utf16le.symm)))
  · exact .inr (.inr (laws.name_injective (h.trans laws.name_utf16be.symm)))

/-- An unmodified file is saved as the same bytes. -/
theorem encode_of_decodeWorkspaceBytes (laws : EncodingLaws rs)
    {name : String} {bom : Bool} (h : decodeWorkspaceBytes rs bytes none = .ok (text, name, bom))
    (hname : name ∈ ["UTF-8", "UTF-16LE", "UTF-16BE"]) :
    encodeWorkspaceText rs text name bom = .ok bytes := by
  obtain ⟨hdecode, rfl, hbom⟩ := decode_of_decodePayload h
  have hunicode := isUnicode_of_name laws hname
  have hencode := encodePayload_of_decode laws hunicode hdecode
  rw [encodeWorkspaceText_eq laws (encodingForLabel_name laws hunicode) hunicode hencode, ← hbom]
  exact congrArg _ (withBom_detectedPayload laws bytes)

/-- A saved text that is opened again under the label it was saved with is the same text. -/
theorem decode_of_encodeWorkspaceText (laws : EncodingLaws rs)
    (hlabel : encodingForLabel rs label = .ok encoding) (hunicode : IsUnicode rs encoding)
    (htext : text.toList.head? ≠ some (Char.ofNat 0xFEFF)) (bom : Bool) :
    ∃ bytes, encodeWorkspaceText rs text label bom = .ok bytes ∧
      ∀ {text' name' bom'}, decodeWorkspaceBytes rs bytes (some label) = .ok (text', name', bom') →
        text' = text ∧ bom' = bom := by
  obtain ⟨payload, hencode, hdecode, hmark⟩ := exists_encodePayload laws hunicode text
  refine ⟨_, encodeWorkspaceText_eq laws hlabel hunicode hencode bom, ?_⟩
  intro text' name' bom' h
  rw [decodeWorkspaceBytes, requestedPayload_withBom laws hlabel hunicode (mt hmark htext)] at h
  obtain ⟨hdecode', -, hbom⟩ := decode_of_decodePayload h
  rw [hdecode] at hdecode'
  exact ⟨(Option.some.inj hdecode').symm, hbom.symm⟩

/-- Opening and saving, and saving and opening, for the Unicode encodings. -/
theorem unicode_roundTrip (rs : EncodingRs) (laws : EncodingLaws rs) :
    (∀ bytes text name bom, decodeWorkspaceBytes rs bytes none = .ok (text, name, bom) →
      name ∈ ["UTF-8", "UTF-16LE", "UTF-16BE"] → encodeWorkspaceText rs text name bom = .ok bytes) ∧
    (∀ text label encoding bom, encodingForLabel rs label = .ok encoding → IsUnicode rs encoding →
      text.toList.head? ≠ some (Char.ofNat 0xFEFF) →
      ∃ bytes, encodeWorkspaceText rs text label bom = .ok bytes ∧ ∀ text' name' bom',
          decodeWorkspaceBytes rs bytes (some label) = .ok (text', name', bom') →
            text' = text ∧ bom' = bom) := by
  refine ⟨fun bytes text name bom h hname => encode_of_decodeWorkspaceBytes laws h hname, ?_⟩
  intro text label encoding bom hlabel hunicode htext
  obtain ⟨bytes, hencode, hdecode⟩ :=
    decode_of_encodeWorkspaceText laws hlabel hunicode htext bom
  exact ⟨bytes, hencode, fun text' name' bom' h => hdecode h⟩

inductive UnicodeEncoding where
  | utf8 | utf16le | utf16be
deriving DecidableEq

/-- The parameter with the Unicode encodings only. -/
def unicodeRs : EncodingRs where
  Enc := UnicodeEncoding
  decEq := inferInstance
  utf8 := .utf8
  utf16le := .utf16le
  utf16be := .utf16be
  name
    | .utf8 => "UTF-8"
    | .utf16le => "UTF-16LE"
    | .utf16be => "UTF-16BE"
  forLabel
    | "UTF-8" => some .utf8
    | "UTF-16LE" => some .utf16le
    | "UTF-16BE" => some .utf16be
    | _ => none
  decode
    | .utf8, bytes => fromUtf8 bytes
    | .utf16le, bytes => ((bytesToUnits .little bytes).bind decodeUtf16).map String.ofList
    | .utf16be, bytes => ((bytesToUnits .big bytes).bind decodeUtf16).map String.ofList
  encode _ text := (utf8Bytes text, false)
  guess _ := .utf8

theorem unicodeRs_laws : EncodingLaws unicodeRs where
  utf8_ne_utf16le := UnicodeEncoding.noConfusion
  utf8_ne_utf16be := UnicodeEncoding.noConfusion
  utf16le_ne_utf16be := UnicodeEncoding.noConfusion
  name_injective := by
    intro a b h
    cases a <;> cases b <;> first | rfl | exact absurd h (by decide)
  name_utf8 := rfl
  name_utf16le := rfl
  name_utf16be := rfl
  forLabel_utf8 := rfl
  forLabel_utf16le := rfl
  forLabel_utf16be := rfl
  decode_utf8 _ := rfl
  decode_utf16le _ := rfl
  decode_utf16be _ := rfl
  encode_utf8 _ := rfl

/-- A surrogate pair behind a byte order mark. -/
theorem unicode_roundTrip_surrogates : encodeWorkspaceText unicodeRs "😀" "UTF-16LE" true
      = .ok [0xFF, 0xFE, 0x3D, 0xD8, 0x00, 0xDE] ∧
    ∃ bytes, encodeWorkspaceText unicodeRs "a" "UTF-8" false = .ok bytes ∧
      ∀ text' name' bom', decodeWorkspaceBytes unicodeRs bytes (some "UTF-8")
        = .ok (text', name', bom') → text' = "a" ∧ bom' = false :=
  ⟨(unicode_roundTrip unicodeRs unicodeRs_laws).1 [0xFF, 0xFE, 0x3D, 0xD8, 0x00, 0xDE] "😀"
      "UTF-16LE" true (by decide) (by decide),
    (unicode_roundTrip unicodeRs unicodeRs_laws).2 "a" "UTF-8" UnicodeEncoding.utf8 false
      (by decide) (.inl rfl) (by decide)⟩

end Taomni.Encoding
