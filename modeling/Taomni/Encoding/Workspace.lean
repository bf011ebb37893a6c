import Taomni.Common.Fallible
import Taomni.Common.Utf16

/-!
# Workspace text encodings

Reference: `src-tauri/src/workspace/encoding.rs`.

Bytes are lists of `UInt8`; a Rust string is a `String`, whose UTF-8 bytes are those of the standard
library. The encodings of `encoding_rs` and the detector of `chardetng` are a parameter (`EncodingRs`),
of which `EncodingLaws` says what is relied on.
-/

namespace Taomni.Encoding

/-- `as_bytes`. -/
def utf8Bytes (text : String) : List UInt8 := text.toUTF8.data.toList

/-- `std::str::from_utf8`. -/
def fromUtf8 (bytes : List UInt8) : Option String := String.fromUTF8? ⟨bytes.toArray⟩

/-! ## The encodings -/

/-- `Encoding` of `encoding_rs` (`Enc`) with what the workspace uses of it, and the guess of the detector.
`encode` also says whether a character was not representable. -/
structure EncodingRs where
  Enc : Type
  decEq : DecidableEq Enc
  utf8 : Enc
  utf16le : Enc
  utf16be : Enc
  name : Enc → String
  forLabel : String → Option Enc
  decode : Enc → List UInt8 → Option String
  encode : Enc → String → List UInt8 × Bool
  guess : List UInt8 → Enc

instance (rs : EncodingRs) : DecidableEq rs.Enc := rs.decEq

/-- The Unicode encodings are three, known by their names, and code as Unicode says. Decoding is
without byte order marks and without replacement. -/
structure EncodingLaws (rs : EncodingRs) : Prop where
  utf8_ne_utf16le : rs.utf8 ≠ rs.utf16le
  utf8_ne_utf16be : rs.utf8 ≠ rs.utf16be
  utf16le_ne_utf16be : rs.utf16le ≠ rs.utf16be
  name_injective : Function.Injective rs.name
  name_utf8 : rs.name rs.utf8 = "UTF-8"
  name_utf16le : rs.name rs.utf16le = "UTF-16LE"
  name_utf16be : rs.name rs.utf16be = "UTF-16BE"
  forLabel_utf8 : rs.forLabel "UTF-8" = some rs.utf8
  forLabel_utf16le : rs.forLabel "UTF-16LE" = some rs.utf16le
  forLabel_utf16be : rs.forLabel "UTF-16BE" = some rs.utf16be
  decode_utf8 : ∀ bytes, rs.decode rs.utf8 bytes = fromUtf8 bytes
  decode_utf16le : ∀ bytes, rs.decode rs.utf16le bytes
    = ((bytesToUnits .little bytes).bind decodeUtf16).map String.ofList
  decode_utf16be : ∀ bytes, rs.decode rs.utf16be bytes
    = ((bytesToUnits .big bytes).bind decodeUtf16).map String.ofList
  encode_utf8 : ∀ text, rs.encode rs.utf8 text = (utf8Bytes text, false)

/-! ## Labels -/

/-- `char::is_whitespace`. -/
def isWhitespace (c : Char) : Bool :=
  (9 ≤ c.toNat && c.toNat ≤ 13) || c.toNat = 0x20 || c.toNat = 0x85 || c.toNat = 0xA0
    || c.toNat = 0x1680 || (0x2000 ≤ c.toNat && c.toNat ≤ 0x200A) || c.toNat = 0x2028
    || c.toNat = 0x2029 || c.toNat = 0x202F || c.toNat = 0x205F || c.toNat = 0x3000

/-- `label.trim().replace('_', "-")`. -/
def normalizeLabel (label : String) : String :=
  let trimmed := ((label.toList.dropWhile isWhitespace).reverse.dropWhile isWhitespace).reverse
  String.ofList (trimmed.map fun c => if c = '_' then '-' else c)

def encodingForLabel (rs : EncodingRs) (label : String) : Except String rs.Enc :=
  match rs.forLabel (normalizeLabel label) with
  | some encoding => .ok encoding
  | none => .error s!"Unsupported text encoding: {label}"

/-! ## Detection -/

/-- The numbers of zero bytes at even and at odd positions of the pairs. -/
def countZeroes : List UInt8 → ℕ × ℕ
  | a :: b :: rest =>
      let (even, odd) := countZeroes rest
      ((if a = 0 then 1 else 0) + even, (if b = 0 then 1 else 0) + odd)
  | _ => (0, 0)

def detectUtf16WithoutBom (rs : EncodingRs) (bytes : List UInt8) : Option rs.Enc :=
  if bytes.length < 2 ∨ bytes.length % 2 ≠ 0 then none
  else
    let (evenZeroes, oddZeroes) := countZeroes bytes
    let total := bytes.length / 2
    if oddZeroes * 3 ≥ total * 2 then some rs.utf16le
    else if evenZeroes * 3 ≥ total * 2 then some rs.utf16be
    else none

def looksBinaryBytes (bytes : List UInt8) : Bool :=
  if bytes = [] then false
  else
    let controls := bytes.countP fun byte => byte = 0 || byte < 0x09 || (byte > 0x0D && byte < 0x20)
    controls * 100 > bytes.length * 2

/-- `char::is_control`. -/
def isControl (c : Char) : Bool := c.toNat ≤ 0x1F || (0x7F ≤ c.toNat && c.toNat ≤ 0x9F)

def looksSuspiciousLegacyBytes (bytes : List UInt8) (text : String) : Bool :=
  let hasTextShape := bytes.any fun byte =>
    (0x20 ≤ byte && byte ≤ 0x7E) || byte = 9 || byte = 10 || byte = 13
  if bytes = [] then false
  else if bytes.length ≤ 4 && bytes.all (· ≥ 0x80) then true
  else if bytes.length < 16 && !hasTextShape then true
  else text.toList.all isControl

/-! ## Decoding and encoding -/

def utf8Bom : List UInt8 := [0xEF, 0xBB, 0xBF]

def utf16leBom : List UInt8 := [0xFF, 0xFE]

def utf16beBom : List UInt8 := [0xFE, 0xFF]

/-- The encoding of a request, the payload and whether a byte order mark was taken off. -/
def requestedPayload (rs : EncodingRs) (bytes : List UInt8) (label : String) :
    Except String (rs.Enc × List UInt8 × Bool) :=
  match encodingForLabel rs label with
  | .error message => .error message
  | .ok encoding =>
      if encoding = rs.utf8 ∧ utf8Bom.isPrefixOf bytes then .ok (encoding, bytes.drop 3, true)
      else if encoding = rs.utf16le ∧ utf16leBom.isPrefixOf bytes then
        .ok (encoding, bytes.drop 2, true)
      else if encoding = rs.utf16be ∧ utf16beBom.isPrefixOf bytes then
        .ok (encoding, bytes.drop 2, true)
      else .ok (encoding, bytes, false)

/-- The same without a request: from the byte order mark, the distribution of zero bytes, the
validity as UTF-8, or the detector. -/
def detectedPayload (rs : EncodingRs) (bytes : List UInt8) : rs.Enc × List UInt8 × Bool :=
  if utf8Bom.isPrefixOf bytes then (rs.utf8, bytes.drop 3, true)
  else if utf16leBom.isPrefixOf bytes then (rs.utf16le, bytes.drop 2, true)
  else if utf16beBom.isPrefixOf bytes then (rs.utf16be, bytes.drop 2, true)
  else
    match detectUtf16WithoutBom rs bytes with
    | some encoding => (encoding, bytes, false)
    | none =>
        if (fromUtf8 bytes).isSome then (rs.utf8, bytes, false) else (rs.guess bytes, bytes, false)

/-- `decode_workspace_bytes` once the encoding and the payload are known. -/
def decodePayload (rs : EncodingRs) (bytes : List UInt8) (requested : Bool) (encoding : rs.Enc)
    (payload : List UInt8) (bom : Bool) : Except String (String × String × Bool) :=
  match rs.decode encoding payload with
  | none =>
      let name := rs.name encoding
      .error s!"File cannot be decoded as {name} without data loss"
  | some text =>
      if encoding ≠ rs.utf16le && encoding ≠ rs.utf16be && (looksBinaryBytes bytes
          || (!requested && encoding ≠ rs.utf8 && looksSuspiciousLegacyBytes bytes text)) then
        .error "File appears to be binary; open it in a binary-capable viewer"
      else .ok (text, rs.name encoding, bom)

/-- `decode_workspace_bytes`: the text, the name of its encoding and whether it had a byte order
mark. -/
def decodeWorkspaceBytes (rs : EncodingRs) (bytes : List UInt8) (requestedEncoding : Option String) :
    Except String (String × String × Bool) :=
  match requestedEncoding with
  | some label =>
      match requestedPayload rs bytes label with
      | .error message => .error message
      | .ok (encoding, payload, bom) => decodePayload rs bytes true encoding payload bom
  | none =>
      let (encoding, payload, bom) := detectedPayload rs bytes
      decodePayload rs bytes false encoding payload bom

/-- The bytes of the text without a byte order mark. -/
def encodePayload (rs : EncodingRs) (contents : String) (encoding : rs.Enc) :
    Except String (List UInt8) :=
  if encoding = rs.utf16le ∨ encoding = rs.utf16be then
    let order := if encoding = rs.utf16le then ByteOrder.little else .big
    .ok ((encodeUtf16 contents.toList).flatMap (unitBytes order))
  else
    let (encoded, hadErrors) := rs.encode encoding contents
    let name := rs.name encoding
    if hadErrors then .error s!"Text contains characters not representable in {name}"
    else .ok encoded

/-- `encode_workspace_text`. -/
def encodeWorkspaceText (rs : EncodingRs) (contents label : String) (bom : Bool) :
    Except String (List UInt8) :=
  match encodingForLabel rs label with
  | .error message => .error message
  | .ok encoding =>
      match encodePayload rs contents encoding with
      | .error message => .error message
      | .ok bytes =>
          if bom ∧ encoding = rs.utf8 then .ok (utf8Bom ++ bytes)
          else if bom ∧ encoding = rs.utf16le then .ok (utf16leBom ++ bytes)
          else if bom ∧ encoding = rs.utf16be then .ok (utf16beBom ++ bytes)
          else .ok bytes

/-!
# Windows-1252

The label table of the web, which `encoding_rs` follows, has no encoding of its own for ISO-8859-1
or US-ASCII: both labels mean windows-1252. `Windows1252Laws` says what is relied on.
-/

/-- The characters of the bytes from 0x80 to 0x9F. Five of them are the control characters of the
same number; the other controls of the range have no byte. -/
def windows1252C1 : List ℕ :=
  [0x20AC, 0x81, 0x201A, 0x0192, 0x201E, 0x2026, 0x2020, 0x2021, 0x02C6, 0x2030, 0x0160, 0x2039,
    0x0152, 0x8D, 0x017D, 0x8F, 0x90, 0x2018, 0x2019, 0x201C, 0x201D, 0x2022, 0x2013, 0x2014, 0x02DC,
    0x2122, 0x0161, 0x203A, 0x0153, 0x9D, 0x017E, 0x0178]

/-- The byte of a character, if it has one. -/
def windows1252Byte (c : Char) : Option UInt8 :=
  if c.toNat < 0x80 ∨ 0xA0 ≤ c.toNat ∧ c.toNat ≤ 0xFF then some (UInt8.ofNat c.toNat)
  else (windows1252C1.idxOf? c.toNat).map fun i => UInt8.ofNat (0x80 + i)

/-- The character of a byte. -/
def windows1252Char (byte : UInt8) : Char :=
  if 0x80 ≤ byte.toNat ∧ byte.toNat < 0xA0 then Char.ofNat (windows1252C1.getD (byte.toNat - 0x80) 0)
  else Char.ofNat byte.toNat

/-- `windows1252` is the encoding of both labels. It encodes by its table, and reports an error for a
text with a character outside it. -/
structure Windows1252Laws (rs : EncodingRs) (windows1252 : rs.Enc) : Prop where
  ne_utf8 : windows1252 ≠ rs.utf8
  ne_utf16le : windows1252 ≠ rs.utf16le
  ne_utf16be : windows1252 ≠ rs.utf16be
  forLabel_latin1 : rs.forLabel "ISO-8859-1" = some windows1252
  forLabel_ascii : rs.forLabel "US-ASCII" = some windows1252
  encode_mapped : ∀ text bytes, text.toList.mapM windows1252Byte = some bytes →
    rs.encode windows1252 text = (bytes, false)
  encode_unmapped : ∀ text, (∃ c ∈ text.toList, windows1252Byte c = none) →
    (rs.encode windows1252 text).2 = true

/-- Up to U+00FF, a character that has a byte has its own number as the byte. -/
theorem windows1252Byte_of_le {c : Char} (hc : c.toNat ≤ 0xFF) (hbyte : windows1252Byte c ≠ none) :
    windows1252Byte c = some (UInt8.ofNat c.toNat) := by
  rw [windows1252Byte] at hbyte ⊢
  split
  · rfl
  · next hrange =>
    rw [if_neg hrange] at hbyte
    have htable : ∀ i < 32, windows1252C1.idxOf? (0x80 + i) = none ∨
        windows1252C1.idxOf? (0x80 + i) = some i := by decide
    have hnat : 0x80 + (c.toNat - 0x80) = c.toNat := by omega
    have hentry := htable (c.toNat - 0x80) (by omega)
    rw [hnat] at hentry
    rcases hentry with hnone | hsome
    · rw [hnone] at hbyte
      exact absurd rfl hbyte
    · rw [hsome, Option.map_some, hnat]

/-! ## The parameter with windows-1252 -/

inductive WebEncoding where
  | utf8 | utf16le | utf16be | windows1252
deriving DecidableEq

/-- The Unicode encodings and windows-1252, under the labels a save policy uses. A character without
a byte is written as a numeric reference, as the encoder does it. -/
def webRs : EncodingRs where
  Enc := WebEncoding
  decEq := inferInstance
  utf8 := .utf8
  utf16le := .utf16le
  utf16be := .utf16be
  name
    | .utf8 => "UTF-8"
    | .utf16le => "UTF-16LE"
    | .utf16be => "UTF-16BE"
    | .windows1252 => "windows-1252"
  forLabel
    | "UTF-8" => some .utf8
    | "UTF-16LE" => some .utf16le
    | "UTF-16BE" => some .utf16be
    | "ISO-8859-1" => some .windows1252
    | "US-ASCII" => some .windows1252
    | _ => none
  decode
    | .utf8, bytes => fromUtf8 bytes
    | .utf16le, bytes => ((bytesToUnits .little bytes).bind decodeUtf16).map String.ofList
    | .utf16be, bytes => ((bytesToUnits .big bytes).bind decodeUtf16).map String.ofList
    | .windows1252, bytes => some (String.ofList (bytes.map windows1252Char))
  encode
    | .windows1252, text =>
        match text.toList.mapM windows1252Byte with
        | some bytes => (bytes, false)
        | none => (text.toList.flatMap fun c =>
            let number := c.toNat
            (windows1252Byte c).elim (utf8Bytes s!"&#{number};") fun byte => [byte], true)
    | _, text => (utf8Bytes text, false)
  guess _ := .utf8

theorem webRs_laws : EncodingLaws webRs where
  utf8_ne_utf16le := WebEncoding.noConfusion
  utf8_ne_utf16be := WebEncoding.noConfusion
  utf16le_ne_utf16be := WebEncoding.noConfusion
  name_injective := by
    intro a b h
    cases a <;> cases b <;> first | rfl | exact absurd h (by decide)
  name_utf8 := rfl
  name_utf16le := rfl
  name_utf16be := rfl
  forLabel_utf8 := rfl
  forLabel_utf16le := rfl
  forLabel_utf16be := rfl
  decode_utf8 _ := rfl
  decode_utf16le _ := rfl
  decode_utf16be _ := rfl
  encode_utf8 _ := rfl

theorem webRs_windows1252 : Windows1252Laws webRs WebEncoding.windows1252 where
  ne_utf8 := WebEncoding.noConfusion
  ne_utf16le := WebEncoding.noConfusion
  ne_utf16be := WebEncoding.noConfusion
  forLabel_latin1 := rfl
  forLabel_ascii := rfl
  encode_mapped text bytes h := by simp only [webRs, h]
  encode_unmapped text h := by simp only [webRs, mapM_eq_none h]

end Taomni.Encoding
