import Mathlib.Algebra.Group.Nat.Defs
import Taomni.Encoding.Workspace

/-!
# Extended clipboard messages

Reference: `src-tauri/src/vnc/clipboard.rs`, and the limits it uses of `src-tauri/src/vnc/limits.rs`.

Sizes are natural numbers, so the overflow checks of `usize` additions are left out. zlib is a
parameter (`Zlib`): a deflater, and an inflater that is called with what is left of its input until it
is through.
-/

namespace Taomni.Vnc

open Encoding (utf8Bytes fromUtf8)

/-! ## Formats -/

def actionCaps : UInt32 := 0x01000000
def actionRequest : UInt32 := 0x02000000
def actionPeek : UInt32 := 0x04000000
def actionNotify : UInt32 := 0x08000000
def actionProvide : UInt32 := 0x10000000
def actionMask : UInt32 := 0xFF000000

def formatText : UInt32 := 0x00000001
def formatRtf : UInt32 := 0x00000002
def formatHtml : UInt32 := 0x00000004
def formatMask : UInt32 := 0x0000FFFF

/-- The values of `bit` in the loops `while bit & FORMAT_MASK != 0 { … bit <<= 1 }`. -/
def formatBits : List UInt32 := (List.range 16).map fun i => UInt32.ofNat (1 <<< i)

@[ext] structure ClipboardFormats where
  text : Option String := none
  html : Option String := none
  rtf : Option String := none
deriving DecidableEq

namespace ClipboardFormats

/-- `format_mask`. -/
def mask (data : ClipboardFormats) : UInt32 :=
  (if data.text.isSome then formatText else 0) ||| (if data.rtf.isSome then formatRtf else 0) |||
    (if data.html.isSome then formatHtml else 0)

/-- The string of a format. -/
def get (data : ClipboardFormats) (bit : UInt32) : Option String :=
  if bit = formatText then data.text
  else if bit = formatRtf then data.rtf
  else if bit = formatHtml then data.html
  else none

/-- Formats that are not supported are dropped. -/
def set (data : ClipboardFormats) (bit : UInt32) (s : String) : ClipboardFormats :=
  if bit = formatText then { data with text := some s }
  else if bit = formatRtf then { data with rtf := some s }
  else if bit = formatHtml then { data with html := some s }
  else data

end ClipboardFormats

inductive ExtendedClipboardMsg where
  | caps (formats actions : UInt32) (sizes : List ℕ)
  | request (formats : UInt32)
  | peek
  | notify (formats : UInt32)
  | provide (formats : UInt32) (formatsData : ClipboardFormats)
deriving DecidableEq

/-- The limits of `DecodeLimits` that clipboard messages meet. -/
structure DecodeLimits where
  maxCompressedRectBytes : ℕ
  maxClipboardFormatBytes : ℕ
  maxClipboardDecompressedBytes : ℕ

def DecodeLimits.default : DecodeLimits where
  maxCompressedRectBytes := 64 * 1024 * 1024
  maxClipboardFormatBytes := 16 * 1024 * 1024
  maxClipboardDecompressedBytes := 32 * 1024 * 1024

def DecodeLimits.clipboardBytes (limits : DecodeLimits) (len : ℕ) : Except String Unit :=
  if limits.maxClipboardFormatBytes < len then .error "clipboard format exceeds configured limit"
  else .ok ()

/-! ## Numbers and text -/

/-- `u32::to_be_bytes`. -/
def beBytes (n : ℕ) : List UInt8 :=
  [UInt8.ofNat (n / 2 ^ 24), UInt8.ofNat (n / 2 ^ 16), UInt8.ofNat (n / 2 ^ 8), UInt8.ofNat n]

/-- `u32::from_be_bytes`. -/
def beNat (a b c d : UInt8) : ℕ :=
  a.toNat * 2 ^ 24 + b.toNat * 2 ^ 16 + c.toNat * 2 ^ 8 + d.toNat

def normalizeTextNewlines : List Char → List Char
  | [] => []
  | '\r' :: '\n' :: rest => '\r' :: '\n' :: normalizeTextNewlines rest
  | '\r' :: rest => '\r' :: '\n' :: normalizeTextNewlines rest
  | '\n' :: rest => '\r' :: '\n' :: normalizeTextNewlines rest
  | c :: rest => c :: normalizeTextNewlines rest

def denormalizeTextNewlines : List Char → List Char
  | [] => []
  | '\r' :: '\n' :: rest => '\n' :: denormalizeTextNewlines rest
  | '\r' :: rest => '\n' :: denormalizeTextNewlines rest
  | c :: rest => c :: denormalizeTextNewlines rest

/-- The character that starts with byte `b`, if `rest` goes on with it, and how many bytes of `rest`
belong to it, or else to the longest beginning of a character. -/
def utf8Head (b : UInt8) (rest : List UInt8) : Option Char × ℕ :=
  let tail (i lo hi : ℕ) : Option ℕ :=
    rest[i]?.bind fun c => if lo ≤ c.toNat ∧ c.toNat ≤ hi then some (c.toNat % 64) else none
  let lead := b.toNat
  if lead < 0x80 then (some (Char.ofNat lead), 0)
  else if 0xC2 ≤ lead ∧ lead ≤ 0xDF then
    match tail 0 0x80 0xBF with
    | some x => (some (Char.ofNat (lead % 32 * 64 + x)), 1)
    | none => (none, 0)
  else if 0xE0 ≤ lead ∧ lead ≤ 0xEF then
    match tail 0 (if lead = 0xE0 then 0xA0 else 0x80) (if lead = 0xED then 0x9F else 0xBF) with
    | some x =>
      match tail 1 0x80 0xBF with
      | some y => (some (Char.ofNat (lead % 16 * 4096 + x * 64 + y)), 2)
      | none => (none, 1)
    | none => (none, 0)
  else if 0xF0 ≤ lead ∧ lead ≤ 0xF4 then
    match tail 0 (if lead = 0xF0 then 0x90 else 0x80) (if lead = 0xF4 then 0x8F else 0xBF) with
    | some x =>
      match tail 1 0x80 0xBF with
      | some y =>
        match tail 2 0x80 0xBF with
        | some z => (some (Char.ofNat (lead % 8 * 262144 + x * 4096 + y * 64 + z)), 3)
        | none => (none, 2)
      | none => (none, 1)
    | none => (none, 0)
  else (none, 0)

/-- Decoding with U+FFFD for what is no character; the first argument counts bytes to pass over. -/
def replaceInvalid : ℕ → List UInt8 → List Char
  | _, [] => []
  | skip + 1, _ :: rest => replaceInvalid skip rest
  | 0, b :: rest =>
    (utf8Head b rest).1.getD (Char.ofNat 0xFFFD) :: replaceInvalid (utf8Head b rest).2 rest

/-- `String::from_utf8_lossy`: valid bytes are taken as they are. -/
def fromUtf8Lossy (bytes : List UInt8) : String :=
  (fromUtf8 bytes).getD (String.ofList (replaceInvalid 0 bytes))

/-! ## zlib -/

/-- What one call of the inflater did: the state after it, bytes consumed, bytes produced, and whether
the stream has ended. -/
structure InflateStep (State : Type) where
  state : State
  used : ℕ
  out : List UInt8
  streamEnd : Bool

/-- `ZlibEncoder`, and `Decompress::decompress` on the rest of its input with room for some bytes. -/
structure Zlib where
  deflate : List UInt8 → Except String (List UInt8)
  State : Type
  start : State
  decompress : State → List UInt8 → ℕ → Except String (InflateStep State)
  used_le : ∀ state input room step, decompress state input room = .ok step →
    step.used ≤ input.length

section Messages

variable (z : Zlib)

/-- The room of one call. -/
def inflateChunk : ℕ := 8192

/-- The loop of `inflate_provide`. Every pass consumes or produces a byte. -/
def inflateLoop (payload : List UInt8) (maxBytes : ℕ) :
    ℕ → z.State → ℕ → List UInt8 → Except String (List UInt8)
  | 0, _, _, _ => .error "extended clipboard inflate: no progress"
  | fuel + 1, state, consumed, decoded =>
    match z.decompress state (payload.drop consumed) inflateChunk with
    | .error e => .error ("extended clipboard inflate: " ++ e)
    | .ok step =>
      if maxBytes < decoded.length + step.out.length then
        .error "extended clipboard decompressed body exceeds configured limit"
      else if step.streamEnd then
        if consumed + step.used ≠ payload.length then
          .error "extended clipboard inflate: trailing compressed data"
        else .ok (decoded ++ step.out)
      else if step.out.length = 0 ∧ step.used = 0 then
        if consumed + step.used = payload.length ∧ [0, 0, 0xFF, 0xFF] <:+ payload then .ok decoded
        else .error "extended clipboard inflate: incomplete deflate stream"
      else inflateLoop payload maxBytes fuel step.state (consumed + step.used) (decoded ++ step.out)

def inflateProvide (payload : List UInt8) (maxBytes : ℕ) : Except String (List UInt8) :=
  inflateLoop z payload maxBytes (payload.length + maxBytes + 1) z.start 0 []

/-- More fuel changes nothing. -/
theorem inflateLoop_fuel {payload : List UInt8} {maxBytes fuel consumed : ℕ} {decoded : List UInt8}
    (state : z.State) (hconsumed : consumed ≤ payload.length)
    (h : (payload.length - consumed) + (maxBytes - decoded.length) < fuel) (more : ℕ) :
    inflateLoop z payload maxBytes (fuel + more) state consumed decoded =
      inflateLoop z payload maxBytes fuel state consumed decoded := by
  induction fuel generalizing state consumed decoded with
  | zero => omega
  | succ fuel ih =>
    rw [Nat.add_right_comm, inflateLoop, inflateLoop]
    cases hstep : z.decompress state (payload.drop consumed) inflateChunk with
    | error e => rfl
    | ok step =>
      have hused := z.used_le _ _ _ _ hstep
      rw [List.length_drop] at hused
      dsimp only
      split
      · rfl
      split
      · rfl
      split
      · rfl
      · rw [ih step.state (by omega) (by rw [List.length_append]; omega)]

/-! ## Parsing -/

/-- The sizes of a `caps` body: one for each format. -/
def parseSizes (formats : UInt32) : List UInt32 → List UInt8 → Except String (List ℕ)
  | [], _ => .ok []
  | bit :: bits, payload =>
    if formats &&& bit ≠ 0 then
      match payload with
      | a :: b :: c :: d :: payload => do
        let sizes ← parseSizes formats bits payload
        return beNat a b c d :: sizes
      | _ => .error "truncated extended clipboard capabilities"
    else parseSizes formats bits payload

/-- The string in the bytes of a format: without its NUL, text with plain newlines. -/
def formatString (bit : UInt32) (raw : List UInt8) : String :=
  let s := fromUtf8Lossy (if [0] <:+ raw then raw.dropLast else raw)
  if bit = formatText then String.ofList (denormalizeTextNewlines s.toList) else s

/-- The formats of a `provide` body, and what is left of its decompressed data. -/
def parseFormats (limits : DecodeLimits) (formats : UInt32) :
    List UInt32 → List UInt8 → ClipboardFormats → Except String (ClipboardFormats × List UInt8)
  | [], rest, data => .ok (data, rest)
  | bit :: bits, rest, data =>
    if formats &&& bit ≠ 0 then
      match rest with
      | a :: b :: c :: d :: rest => do
        let len := beNat a b c d
        limits.clipboardBytes len
        if rest.length < len then .error "truncated extended clipboard data"
        else
          let data := data.set bit (formatString bit (rest.take len))
          parseFormats limits formats bits (rest.drop len) data
      | _ => .error "truncated extended clipboard length"
    else parseFormats limits formats bits rest data

def parseProvide (limits : DecodeLimits) (formats : UInt32) (payload : List UInt8) :
    Except String ClipboardFormats :=
  if limits.maxCompressedRectBytes < payload.length then
    .error "extended clipboard compressed body exceeds configured limit"
  else do
    let decoded ← inflateProvide z payload limits.maxClipboardDecompressedBytes
    let (data, rest) ← parseFormats limits formats formatBits decoded {}
    if rest ≠ [] then .error "extended clipboard data exceeds declared format lengths"
    else return data

def parseExtendedBodyWithLimits (body : List UInt8) (limits : DecodeLimits) :
    Except String (Option ExtendedClipboardMsg) :=
  match body with
  | a :: b :: c :: d :: payload =>
    let flags := UInt32.ofNat (beNat a b c d)
    let action := flags &&& actionMask
    let formats := flags &&& formatMask
    if action &&& actionCaps ≠ 0 then
      (parseSizes formats formatBits payload).map fun sizes => some (.caps formats action sizes)
    else if action = actionRequest then .ok (some (.request formats))
    else if action = actionPeek then .ok (some .peek)
    else if action = actionNotify then .ok (some (.notify formats))
    else if action = actionProvide then
      (parseProvide z limits formats payload).map fun data => some (.provide formats data)
    else .ok none
  | _ => .error "truncated extended clipboard header"

/-- `parse_extended_body`: the production limits, and errors as nothing. -/
def parseExtendedBody (body : List UInt8) : Option ExtendedClipboardMsg :=
  match parseExtendedBodyWithLimits z body .default with
  | .ok message => message
  | .error _ => none

/-! ## Building -/

/-- The string as it is sent: text with CRLF newlines. -/
def packedString (bit : UInt32) (s : String) : String :=
  if bit = formatText then String.ofList (normalizeTextNewlines s.toList) else s

/-- Length and bytes of a format, with a NUL. -/
def formatChunk (limits : DecodeLimits) (bit : UInt32) (s : String) :
    Except String (List UInt8) := do
  limits.clipboardBytes (utf8Bytes s).length
  let buf := utf8Bytes (packedString bit s) ++ [0]
  limits.clipboardBytes buf.length
  if 2 ^ 32 ≤ buf.length then .error "clipboard format length exceeds RFB limit"
  else return beBytes buf.length ++ buf

/-- The chunks of all formats there are. -/
def providePayload (limits : DecodeLimits) (data : ClipboardFormats) :
    List UInt32 → Except String (List UInt8)
  | [] => .ok []
  | bit :: bits =>
    match data.get bit with
    | some s => do
      let chunk ← formatChunk limits bit s
      let payload ← providePayload limits data bits
      return chunk ++ payload
    | none => providePayload limits data bits

def buildProvideBody (data : ClipboardFormats) : Except String (List UInt8) := do
  let payload ← providePayload .default data formatBits
  if DecodeLimits.default.maxClipboardDecompressedBytes < payload.length then
    .error "clipboard payload exceeds configured aggregate limit"
  else
    let compressed ← z.deflate payload
    if DecodeLimits.default.maxCompressedRectBytes < compressed.length then
      .error "compressed clipboard payload exceeds configured limit"
    else return beBytes (actionProvide ||| data.mask).toNat ++ compressed

end Messages

end Taomni.Vnc
