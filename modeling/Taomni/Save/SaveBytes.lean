import Taomni.Common.Record
import Taomni.Encoding.Workspace

/-!
# Errors of the workspace writer

Reference: `src/lib/editor/workspace/writeModel.ts`.

A rejection is any value of the runtime. `parseWorkspaceWriteError` turns it into a typed error; a
`WorkspaceHashMismatchError` is a `WorkspaceWriteError` of kind `hashMismatch` whose two hashes are
also its `expected` and `actual`.
-/

namespace Taomni.Save

open JsString (ascii)

/-! ## Values of the runtime -/

/-- A value as the parser sees it: of a number and of anything else that is not a string, `text` is
what `String` makes of it. -/
inductive JsValue where
  | undefined
  | null
  | string (s : JsString)
  | number (n : JsNumber) (text : JsString)
  | other (text : JsString)
deriving DecidableEq

namespace JsValue

/-- `String(value)`. -/
def text : JsValue → JsString
  | undefined => ascii "undefined"
  | null => ascii "null"
  | string s => s
  | number _ text => text
  | other text => text

/-- `typeof value === "string" ? value : undefined`. -/
def string? : JsValue → Option JsString
  | string s => some s
  | _ => none

/-- `typeof value === "number" ? value : undefined`. -/
def number? : JsValue → Option JsNumber
  | number n _ => some n
  | _ => none

/-- `value ?? fallback`. -/
def orElse (value fallback : JsValue) : JsValue :=
  match value with
  | undefined | null => fallback
  | _ => value

end JsValue

/-! ## Typed errors -/

inductive WorkspaceWriteErrorKind where
  | hashMismatch | encoding | permission | io
deriving DecidableEq

inductive WorkspaceWriteEffect where
  | none | unknown
deriving DecidableEq

structure WorkspaceWriteError where
  kind : WorkspaceWriteErrorKind
  message : JsString
  expectedHash : JsValue := .undefined
  actualHash : JsValue := .undefined
  effect : Option WorkspaceWriteEffect := .none
  writtenHash : Option JsString := .none
  writtenByteLength : Option JsNumber := .none
  intentHash : Option JsString := .none
  intentByteLength : Option JsNumber := .none
  oldHash : Option JsString := .none
deriving DecidableEq

def workspaceHashMismatchError (message : JsString) (expected actual : JsValue) :
    WorkspaceWriteError where
  kind := .hashMismatch
  message := message
  expectedHash := expected
  actualHash := actual

/-- A value that a promise rejects with. `error` is an `Error` that is not a `WorkspaceWriteError`,
`object` any other object, with what `String` makes of it. -/
inductive Rejection where
  | typed (err : WorkspaceWriteError)
  | error (message : JsString) (fields : Record JsValue)
  | object (fields : Record JsValue) (text : JsString)
  | value (v : JsValue)
deriving DecidableEq

namespace Rejection

/-- A property of the value, `undefined` when it has none. The `message` of an `Error` is its own. -/
def property (key : String) : Rejection → JsValue
  | typed _ => .undefined
  | error message fields =>
      if key = "message" then .string message else (fields.get? key).getD .undefined
  | object fields _ => (fields.get? key).getD .undefined
  | value _ => .undefined

/-- `msg` of the parser. -/
def message : Rejection → JsString
  | typed err => err.message
  | error message _ => message
  | object fields text =>
      match fields.get? "message" with
      | some v => v.text
      | none => text
  | value v => v.text

end Rejection

/-! ## The pattern of the two hashes -/

/-- `\s`. -/
def isJsSpace (u : UInt16) : Bool :=
  (9 ≤ u && u ≤ 13) || u = 0x20 || u = 0xA0 || u = 0x1680 || (0x2000 ≤ u && u ≤ 0x200A)
    || u = 0x2028 || u = 0x2029 || u = 0x202F || u = 0x205F || u = 0x3000 || u = 0xFEFF

/-- `[,\s]`. -/
def isHashSeparator (u : UInt16) : Bool := u = 0x2C || isJsSpace u

/-- `[^\s,;]`. -/
def isHashUnit (u : UInt16) : Bool := !isJsSpace u && u != 0x2C && u != 0x3B

def lowerAscii (u : UInt16) : UInt16 := if 0x41 ≤ u && u ≤ 0x5A then u + 0x20 else u

/-- The rest of the text after a lower-case word, whatever the case of its letters in the text. -/
def stripWord (word text : JsString) : Option JsString :=
  if word.isPrefixOf (text.map lowerAscii) then some (text.drop word.length) else none

/-- The rest of the text after one or more units that satisfy `p`, all of them. -/
def stripSome (p : UInt16 → Bool) (text : JsString) : Option JsString :=
  let rest := text.dropWhile p
  if rest.length = text.length then none else some rest

/-- The match at the start of the text. No part of the pattern can start with a unit that the part
before it repeats, so the longest repetition is the only one that can succeed. -/
def matchHashesHere (text : JsString) : Option (JsString × JsString) := do
  let rest ← stripWord (ascii "expected hash") text
  let first ← stripSome isJsSpace rest
  let rest ← stripSome isHashUnit first
  let rest ← stripSome isHashSeparator rest
  let rest ← stripWord (ascii "found") rest
  let second ← stripSome isJsSpace rest
  let _ ← stripSome isHashUnit second
  return (first.takeWhile isHashUnit, second.takeWhile isHashUnit)

/-- `msg.match(/expected hash\s+([^\s,;]+)[,\s]+found\s+([^\s,;]+)/i)`. -/
def matchHashes (text : JsString) : Option (JsString × JsString) :=
  text.tails.findSome? matchHashesHere

/-! ## The parser -/

/-- `text.includes(part)`. -/
def includes (text part : JsString) : Bool := text.tails.any part.isPrefixOf

def hashMismatchPrefix : JsString := ascii "hash-mismatch:"

def isWorkspaceHashMismatchError : Rejection → Bool
  | .typed err => err.kind = .hashMismatch
  | .error message fields =>
      (fields.get? "kind").getD .undefined = .string (ascii "hash-mismatch")
        || hashMismatchPrefix.isPrefixOf message
  | .object fields _ => (fields.get? "kind").getD .undefined = .string (ascii "hash-mismatch")
  | .value _ => false

/-- A matched hash, `undefined` without a match. -/
def matchedHash (hash : Option JsString) : JsValue := (hash.map JsValue.string).getD .undefined

/-- The error of a rejection that is not typed, by its text alone. -/
def writeErrorOfMessage (msg : JsString) : WorkspaceWriteError :=
  if hashMismatchPrefix.isPrefixOf msg then
    workspaceHashMismatchError msg
      ((matchedHash ((matchHashes msg).map Prod.fst)).orElse (.string []))
      ((matchedHash ((matchHashes msg).map Prod.snd)).orElse (.string []))
  else if includes msg (ascii "not representable") || includes msg (ascii "encoding") then
    { kind := .encoding, message := msg }
  else if includes msg (ascii "permission denied") || includes msg (ascii "PermissionDenied") then
    { kind := .permission, message := msg }
  else { kind := .io, message := msg }

/-- `kind` when it is one of the four. -/
def kindOfString (s : JsString) : Option WorkspaceWriteErrorKind :=
  if s = ascii "hash-mismatch" then some .hashMismatch
  else if s = ascii "encoding" then some .encoding
  else if s = ascii "permission" then some .permission
  else if s = ascii "io" then some .io
  else none

/-- `raw.effect === "none" || raw.effect === "unknown" ? raw.effect : undefined`. -/
def effectOfValue (v : JsValue) : Option WorkspaceWriteEffect :=
  if v = .string (ascii "none") then some .none
  else if v = .string (ascii "unknown") then some .unknown
  else .none

/-- The kind of a rejection by its properties, when it is one of the four. -/
def kindOfFields (err : Rejection) : Option WorkspaceWriteErrorKind :=
  (err.property "kind").string?.bind kindOfString

/-- The error of an object by its properties, when its kind is one of the four. -/
def writeErrorOfFields (err : Rejection) : Option WorkspaceWriteError :=
  match kindOfFields err with
  | none => none
  | some kind =>
      let message := ((err.property "message").string?).getD err.message
      let hashes := matchHashes err.message
      if kind = .hashMismatch then
        some (workspaceHashMismatchError message
          (.string ((err.property "expectedHash").orElse
            ((matchedHash (hashes.map Prod.fst)).orElse (.string []))).text)
          (.string ((err.property "actualHash").orElse
            ((matchedHash (hashes.map Prod.snd)).orElse (.string []))).text))
      else
        some {
          kind := kind
          message := message
          effect := effectOfValue (err.property "effect")
          writtenHash := (err.property "writtenHash").string?
          writtenByteLength := (err.property "writtenByteLength").number?
          intentHash := (err.property "intentHash").string?
          intentByteLength := (err.property "intentByteLength").number?
          oldHash := (err.property "oldHash").string? }

def parseWorkspaceWriteError (err : Rejection) : WorkspaceWriteError :=
  match err with
  | .typed err => err
  | err =>
      if isWorkspaceHashMismatchError err then
        let hashes := matchHashes err.message
        workspaceHashMismatchError err.message
          (((err.property "expectedHash").orElse ((err.property "expected").orElse
            (matchedHash (hashes.map Prod.fst)))).orElse (.string []))
          (((err.property "actualHash").orElse ((err.property "actual").orElse
            (matchedHash (hashes.map Prod.snd)))).orElse (.string []))
      else
        match writeErrorOfFields err with
        | some parsed => parsed
        | none => writeErrorOfMessage err.message

/-! ## What a rejection says of the disk -/

/-- A hash mismatch, by its type or its kind, or by the prefix of its text where it has no kind. -/
def IsHashMismatch : Rejection → Prop
  | .typed err => err.kind = .hashMismatch
  | err => isWorkspaceHashMismatchError err ∨
      kindOfFields err = none ∧ hashMismatchPrefix.isPrefixOf err.message

instance : DecidablePred IsHashMismatch
  | .typed err => inferInstanceAs (Decidable (err.kind = .hashMismatch))
  | .error message fields =>
      inferInstanceAs (Decidable (isWorkspaceHashMismatchError (.error message fields) ∨
        kindOfFields (.error message fields) = none ∧ hashMismatchPrefix.isPrefixOf message))
  | .object fields text =>
      inferInstanceAs (Decidable (isWorkspaceHashMismatchError (.object fields text) ∨
        kindOfFields (.object fields text) = none ∧
          hashMismatchPrefix.isPrefixOf (Rejection.object fields text).message))
  | .value v =>
      inferInstanceAs (Decidable (isWorkspaceHashMismatchError (.value v) ∨
        kindOfFields (.value v) = none ∧ hashMismatchPrefix.isPrefixOf v.text))

/-- The effect that the rejection itself states. -/
def statedEffect : Rejection → Option WorkspaceWriteEffect
  | .typed err => err.effect
  | err => effectOfValue (err.property "effect")

/-- The rejection proves that no byte was written. -/
def ProvesZeroEffect (err : Rejection) : Prop :=
  IsHashMismatch err ∨ statedEffect err = some .none

/-- The rejection states an unknown effect where the parser keeps it: on a typed error, or beside one
of the four kinds. -/
def StatesUnknownEffect (err : Rejection) : Prop :=
  statedEffect err = some .unknown ∧ ((∃ e, err = .typed e) ∨ kindOfFields err ≠ none)

instance : DecidablePred ProvesZeroEffect := fun _ => inferInstanceAs (Decidable (_ ∨ _))

theorem kindOfString_eq_hashMismatch {s : JsString}
    (h : kindOfString s = some .hashMismatch) : s = ascii "hash-mismatch" := by
  rw [kindOfString] at h
  split at h
  · assumption
  split at h
  · cases h
  split at h
  · cases h
  split at h <;> cases h

variable {err : Rejection}

/-- An object of kind `hash-mismatch` is a hash mismatch before its properties are read. -/
theorem isWorkspaceHashMismatchError_of_kind
    (h : kindOfFields err = some .hashMismatch) : isWorkspaceHashMismatchError err := by
  obtain ⟨s, hs, hkind⟩ := Option.bind_eq_some_iff.mp h
  rw [kindOfString_eq_hashMismatch hkind] at hs
  have hstring : ∀ v : JsValue, v.string? = some (ascii "hash-mismatch") →
      v = .string (ascii "hash-mismatch") := by
    intro v hv
    cases v <;> cases hv
    rfl
  cases err with
  | typed err => cases hs
  | error message fields =>
    have hfield := hstring _ hs
    rw [Rejection.property, if_neg (by decide)] at hfield
    rw [isWorkspaceHashMismatchError, decide_eq_true hfield, Bool.true_or]
  | object fields text => exact decide_eq_true (hstring _ hs)
  | value v => cases hs

theorem writeErrorOfFields_spec (h : ¬ isWorkspaceHashMismatchError err) :
    (kindOfFields err = none ∧ writeErrorOfFields err = none) ∨
      ∃ parsed, kindOfFields err = some parsed.kind ∧ writeErrorOfFields err = some parsed ∧
        parsed.kind ≠ .hashMismatch ∧ parsed.effect = effectOfValue (err.property "effect") := by
  rw [writeErrorOfFields]
  split
  · next hkind => exact .inl ⟨hkind, rfl⟩
  · next kind hkind =>
    have hne : kind ≠ .hashMismatch := fun heq =>
      h (isWorkspaceHashMismatchError_of_kind (heq ▸ hkind))
    refine .inr ⟨_, ?_, if_neg hne, hne, rfl⟩
    exact hkind

theorem writeErrorOfMessage_kind (msg : JsString) :
    (writeErrorOfMessage msg).kind = .hashMismatch ↔ hashMismatchPrefix.isPrefixOf msg := by
  rw [writeErrorOfMessage]
  split
  · next h => exact iff_of_true rfl h
  next h =>
  split
  · exact iff_of_false WorkspaceWriteErrorKind.noConfusion h
  split <;> exact iff_of_false WorkspaceWriteErrorKind.noConfusion h

theorem writeErrorOfMessage_effect (msg : JsString) : (writeErrorOfMessage msg).effect = none := by
  rw [writeErrorOfMessage]
  split
  · rfl
  split
  · rfl
  split <;> rfl

/-- The parser on a rejection that is not typed. -/
theorem parseWorkspaceWriteError_untyped (h : ∀ e, err ≠ .typed e) :
    (isWorkspaceHashMismatchError err ∧ (parseWorkspaceWriteError err).kind = .hashMismatch) ∨
      ¬ isWorkspaceHashMismatchError err ∧ parseWorkspaceWriteError err
          = (writeErrorOfFields err).getD (writeErrorOfMessage err.message) := by
  by_cases hmismatch : isWorkspaceHashMismatchError err
  · refine .inl ⟨hmismatch, ?_⟩
    rw [parseWorkspaceWriteError, if_pos hmismatch]
    · rfl
    · exact h
  · refine .inr ⟨hmismatch, ?_⟩
    rw [parseWorkspaceWriteError, if_neg hmismatch]
    · cases writeErrorOfFields err <;> rfl
    · exact h

private theorem isHashMismatch_untyped (h : ∀ e, err ≠ .typed e) :
    IsHashMismatch err ↔ isWorkspaceHashMismatchError err ∨
      kindOfFields err = none ∧ hashMismatchPrefix.isPrefixOf err.message := by
  cases err with
  | typed err => exact absurd rfl (h err)
  | error message fields => rfl
  | object fields text => rfl
  | value v => rfl

private theorem statedEffect_untyped (h : ∀ e, err ≠ .typed e) :
    statedEffect err = effectOfValue (err.property "effect") := by
  cases err with
  | typed err => exact absurd rfl (h err)
  | error message fields => rfl
  | object fields text => rfl
  | value v => rfl

/-- The parsed kind is a hash mismatch exactly for hash mismatches. -/
theorem parseWorkspaceWriteError_kind (err : Rejection) :
    (parseWorkspaceWriteError err).kind = .hashMismatch ↔ IsHashMismatch err := by
  by_cases htyped : ∃ e, err = .typed e
  · obtain ⟨e, rfl⟩ := htyped
    rfl
  have huntyped : ∀ e, err ≠ .typed e := fun e he => htyped ⟨e, he⟩
  rw [isHashMismatch_untyped huntyped]
  rcases parseWorkspaceWriteError_untyped huntyped with ⟨hmismatch, hkind⟩ | ⟨hmismatch, hparse⟩
  · exact iff_of_true hkind (.inl hmismatch)
  rw [hparse]
  rcases writeErrorOfFields_spec hmismatch with ⟨hkind, hfields⟩ | ⟨e, hkind, hfields, hne, -⟩
  · rw [hfields, Option.getD_none, writeErrorOfMessage_kind]
    exact ⟨fun h => .inr ⟨hkind, h⟩, fun h => (h.resolve_left hmismatch).2⟩
  · rw [hfields, Option.getD_some]
    refine iff_of_false hne ?_
    rintro (h | ⟨h, -⟩)
    · exact hmismatch h
    · rw [hkind] at h
      cases h

/-- Beside a hash mismatch the parsed effect is unknown exactly where the rejection says so in a place
that the parser reads. -/
theorem parseWorkspaceWriteError_effect (h : ¬ IsHashMismatch err) :
    (parseWorkspaceWriteError err).effect = some .unknown ↔ StatesUnknownEffect err := by
  by_cases htyped : ∃ e, err = .typed e
  · exact (and_iff_left (.inl htyped)).symm.trans
      (and_congr_left fun _ => by obtain ⟨e, rfl⟩ := htyped; rfl)
  have huntyped : ∀ e, err ≠ .typed e := fun e he => htyped ⟨e, he⟩
  rw [isHashMismatch_untyped huntyped] at h
  obtain ⟨hmismatch, hparse⟩ := (parseWorkspaceWriteError_untyped huntyped).resolve_left
    fun hmismatch => h (.inl hmismatch.1)
  rw [hparse, StatesUnknownEffect, statedEffect_untyped huntyped, or_iff_right htyped]
  rcases writeErrorOfFields_spec hmismatch with ⟨hkind, hfields⟩ | ⟨e, hkind, hfields, -, heffect⟩
  · rw [hfields, Option.getD_none, writeErrorOfMessage_effect, hkind]
    exact iff_of_false (Option.some_ne_none _).symm fun hstated => hstated.2 rfl
  · rw [hfields, Option.getD_some, heffect, hkind]
    exact (and_iff_left (Option.some_ne_none _)).symm

/-!
# Prepared saves and their bytes

Reference: `src/components/editor/workspace/saveCommit.ts`.

A prepared save is written only if the buffer is still the one it was prepared from, and only as the
bytes of its encoding. The hash functions are a parameter.
-/

open JsString (ascii lf cr)

/-! ## Prepared saves -/

inductive SaveEol where
  | lf | crlf | cr
deriving DecidableEq

structure SaveCommitPolicy where
  eol : SaveEol
  encoding : String
  bom : Bool
deriving DecidableEq

structure PreparedSave where
  transactionId : String
  workspaceId : String
  fileKey : String
  filePath : String
  text : JsString
  bufferRevision : ℕ
  styleGeneration : ℕ
  expectedDiskHash : Option String
  policy : SaveCommitPolicy
deriving DecidableEq

structure PreparedSaveBoundary where
  filePath : String
  documentRevision : ℕ
  styleGeneration : ℕ
deriving DecidableEq

/-- The reason to cancel, or `none` when the save may go to the writer. -/
def validatePreparedSaveBoundary (prepared : PreparedSave) (live : Option PreparedSaveBoundary) :
    Option String :=
  match live with
  | none => some "Open buffer was closed before write"
  | some live =>
      if live.filePath ≠ prepared.filePath then some "File path changed during save preparation"
      else if live.documentRevision ≠ prepared.bufferRevision then
        some (s!"Buffer revision changed ({prepared.bufferRevision} -> {live.documentRevision})"
          ++ " during save preparation")
      else if live.styleGeneration ≠ prepared.styleGeneration then
        some (s!"Style generation changed ({prepared.styleGeneration} -> {live.styleGeneration})"
          ++ " during save preparation")
      else none

/-! ## Bytes -/

/-- `text.replace(/\r\n/g, "\n").replace(/\r/g, "\n")`. -/
def lfText : JsString → JsString
  | [] => []
  | [u] => if u = cr then [lf] else [u]
  | u :: v :: rest =>
      if u = cr then (if v = lf then lf :: lfText rest else lf :: lfText (v :: rest))
      else u :: lfText (v :: rest)

def prepareSaveTextForWriter (text : JsString) (policy : SaveCommitPolicy) : JsString :=
  let withoutBom := if text.head? = some 0xFEFF then text.tail else text
  match policy.eol with
  | .crlf => (lfText withoutBom).flatMap fun u => if u = lf then [cr, lf] else [u]
  | .cr => (lfText withoutBom).map fun u => if u = lf then cr else u
  | .lf => lfText withoutBom

def isSurrogate (u : UInt16) : Bool := 0xD800 ≤ u.toNat && u.toNat < 0xE000

/-- The characters of a string, a lone surrogate replaced by U+FFFD. -/
def usvString : JsString → List Char
  | [] => []
  | [u] => [if isSurrogate u then Char.ofNat 0xFFFD else Char.ofNat u.toNat]
  | u :: v :: rest =>
      if isSurrogate u && u.toNat < 0xDC00 && isSurrogate v && 0xDC00 ≤ v.toNat then
        Char.ofNat (0x10000 + (u.toNat - 0xD800) * 0x400 + (v.toNat - 0xDC00)) :: usvString rest
      else (if isSurrogate u then Char.ofNat 0xFFFD else Char.ofNat u.toNat) :: usvString (v :: rest)

/-- `new TextEncoder().encode(text)`. -/
def textEncoderEncode (text : JsString) : List UInt8 :=
  Encoding.utf8Bytes (String.ofList (usvString text))

/-- `toUpperCase` as far as a comparison with an ASCII name can see: the two characters outside ASCII
whose upper case is one ASCII letter that occurs in a name are mapped as well. -/
def upperChar (c : Char) : Char :=
  if c = 'ı' then 'I' else if c = 'ſ' then 'S' else c.toUpper

/-- `(policy.encoding || "UTF-8").toUpperCase()`. -/
def encodingName (policy : SaveCommitPolicy) : String :=
  if policy.encoding = "" then "UTF-8" else policy.encoding.map upperChar

/-- One byte for each unit up to `limit`. -/
def encodeSingleByte (limit : ℕ) (name : String) (text : JsString) :
    Except WorkspaceWriteError (List UInt8) :=
  match text.findIdx? fun u => limit < u.toNat with
  | some i =>
      .error {
        kind := .encoding
        message := ascii "Character '" ++ text[i]?.toList ++ ascii "' at position "
          ++ ascii (toString i) ++ ascii " cannot be represented in " ++ ascii name ++ ascii "."
        effect := some .none }
  | none => .ok (text.map fun u => u.toUInt8)

/-- `rawBytes` of `encodeSaveBytes`. -/
def rawBytes (logicalText : JsString) (policy : SaveCommitPolicy) :
    Except WorkspaceWriteError (List UInt8) :=
  let encoding := encodingName policy
  if encoding = "UTF-8" then
    .ok ((if policy.bom then Encoding.utf8Bom else []) ++ textEncoderEncode logicalText)
  else if encoding = "ISO-8859-1" ∨ encoding = "LATIN1" then
    encodeSingleByte 255 "Latin-1" logicalText
  else if encoding = "US-ASCII" ∨ encoding = "ASCII" then
    encodeSingleByte 127 "US-ASCII" logicalText
  else if encoding = "UTF-16LE" then
    .ok ((if policy.bom then Encoding.utf16leBom else [])
      ++ logicalText.flatMap (unitBytes .little))
  else if encoding = "UTF-16BE" then
    .ok ((if policy.bom then Encoding.utf16beBom else []) ++ logicalText.flatMap (unitBytes .big))
  else .ok (textEncoderEncode logicalText)

/-- `sha256Hex` and `sha256HexBytes`. -/
structure Sha256 where
  hexOfText : JsString → String
  hexOfBytes : List UInt8 → String

structure EncodedSaveBytes where
  bytes : List UInt8
  textSha256 : String
  bytesSha256 : String
  byteLength : ℕ
deriving DecidableEq

def encodeSaveBytes (sha256 : Sha256) (text : JsString) (policy : SaveCommitPolicy) :
    Except WorkspaceWriteError EncodedSaveBytes :=
  let logicalText := prepareSaveTextForWriter text policy
  match rawBytes logicalText policy with
  | .error err => .error err
  | .ok bytes =>
      .ok {
        bytes := bytes
        textSha256 := sha256.hexOfText logicalText
        bytesSha256 := sha256.hexOfBytes bytes
        byteLength := bytes.length }

/-- What cannot be encoded is a failure of kind `encoding` that touched nothing. -/
theorem encodeSaveBytes_error {sha256 : Sha256} {text : JsString} {policy : SaveCommitPolicy}
    {err : WorkspaceWriteError} (h : encodeSaveBytes sha256 text policy = .error err) :
    err.kind = .encoding ∧ err.effect = some .none := by
  have hsingle : ∀ limit name s,
      encodeSingleByte limit name s = .error err → err.kind = .encoding ∧ err.effect = some .none := by
    intro limit name s hs
    rw [encodeSingleByte] at hs
    split at hs
    · obtain rfl := Except.error.inj hs
      exact ⟨rfl, rfl⟩
    · cases hs
  rw [encodeSaveBytes] at h
  split at h
  · next err' hraw =>
    obtain rfl := Except.error.inj h
    rw [rawBytes] at hraw
    split at hraw
    · cases hraw
    split at hraw
    · exact hsingle _ _ _ hraw
    split at hraw
    · exact hsingle _ _ _ hraw
    split at hraw
    · cases hraw
    split at hraw <;> cases hraw
  · cases h

end Taomni.Save
