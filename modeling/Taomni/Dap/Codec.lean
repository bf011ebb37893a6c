import Mathlib.Algebra.Group.Nat.Defs
import Taomni.Agent.CommandLine
import Taomni.Common.Incremental
import Taomni.Encoding.Workspace

/-!
# Frames of the debug adapter protocol

Reference: `src-tauri/src/dap/codec.rs` and the read loop of `reader.rs`.

`serde_json` is a parameter: `toVec` writes a message and `fromSlice` reads one. The loops carry fuel;
`none` means that they have not returned. Arithmetic on `usize` that overflows and slices out of range
panic.
-/

namespace Taomni.Dap

open Agent (Text trim)
open Encoding (utf8Bytes fromUtf8)

abbrev Bytes := List UInt8

/-- Numbers of type `usize` are below. -/
def usizeLimit : ℕ := 2 ^ 64

/-! ## Headers -/

def headerText (len : ℕ) : String := s!"Content-Length: {len}\r\n\r\n"

def findSubsequence (needle : Bytes) : Bytes → Option ℕ
  | [] => if needle.isPrefixOf [] then some 0 else none
  | b :: haystack =>
    if needle.isPrefixOf (b :: haystack) then some 0
    else (findSubsequence needle haystack).map (· + 1)

def crlfCrlf : Bytes := [13, 10, 13, 10]

/-- `text.split("\r\n")`. -/
def splitCrlf : Text → List Text
  | [] => [[]]
  | '\r' :: '\n' :: text => [] :: splitCrlf text
  | c :: text =>
    match splitCrlf text with
    | [] => [[c]]
    | line :: lines => (c :: line) :: lines

/-- `line.split_once(':')`. -/
def splitOnce (c : Char) (line : Text) : Option (Text × Text) :=
  if line.contains c then some (line.takeWhile (· != c), (line.dropWhile (· != c)).drop 1) else none

/-- `str::parse::<usize>`: digits after an optional sign, of a number that fits. -/
def parseUsize (s : Text) : Option ℕ :=
  let digits := if s.head? = some '+' then s.drop 1 else s
  if digits.isEmpty then none
  else if !digits.all Char.isDigit then none
  else
    let n := Nat.ofDigitChars 10 digits 0
    if n < usizeLimit then some n else none

def contentLengthOf : List Text → Option ℕ
  | [] => none
  | line :: lines =>
    match splitOnce ':' line with
    | none => contentLengthOf lines
    | some (key, value) =>
      if (trim key).map Char.toLower = "Content-Length".toList.map Char.toLower then
        parseUsize (trim value)
      else contentLengthOf lines

def parseContentLength (header : Bytes) : Option ℕ :=
  (fromUtf8 header).bind fun text => contentLengthOf (splitCrlf text.toList)

/-! ## The decoder -/

section

variable {V : Type} (toVec : V → Bytes) (fromSlice : Bytes → Option V)

def encodeMessage (message : V) : Bytes :=
  utf8Bytes (headerText (toVec message).length) ++ toVec message

/-- One round of the loop of `next_message`. -/
def round (buffer : Bytes) : Round UInt8 V :=
  match findSubsequence crlfCrlf buffer with
  | none => .more
  | some headerEnd =>
    let bodyStart := headerEnd + 4
    match parseContentLength (buffer.take headerEnd) with
    | none => .skip (buffer.drop bodyStart)
    | some len =>
      -- the sum overflows
      if usizeLimit ≤ bodyStart + len then .fault
      else if buffer.length < bodyStart + len then .more
      else
        match fromSlice ((buffer.drop bodyStart).take len) with
        | some value => .item value (buffer.drop (bodyStart + len))
        | none => .skip (buffer.drop (bodyStart + len))

inductive Outcome (V : Type) where
  | message (value : V)
  | pending
  | panicked
deriving DecidableEq

/-- `next_message`, and the buffer after it. -/
def nextMessage : ℕ → Bytes → Option (Outcome V × Bytes)
  | 0, _ => none
  | fuel + 1, buffer =>
    match round fromSlice buffer with
    | .more => some (.pending, buffer)
    | .skip rest => nextMessage fuel rest
    | .item value rest => some (.message value, rest)
    | .fault => some (.panicked, buffer)

/-- What a reader got: the messages, the buffer, and whether the decoder panicked. -/
structure Got (V : Type) where
  messages : List V
  buffer : Bytes
  panicked : Bool
deriving DecidableEq

/-- `while let Some(message) = decoder.next_message()`. -/
def drainMessages : ℕ → Bytes → Option (Got V)
  | 0, _ => none
  | fuel + 1, buffer =>
    match nextMessage fromSlice (buffer.length + 1) buffer with
    | none => none
    | some (.pending, rest) => some ⟨[], rest, false⟩
    | some (.panicked, rest) => some ⟨[], rest, true⟩
    | some (.message value, rest) =>
      (drainMessages fuel rest).map fun got => { got with messages := value :: got.messages }

/-- The read loop: each chunk is pushed and the decoder is drained. -/
def readChunks : List Bytes → Bytes → Option (Got V)
  | [], buffer => some ⟨[], buffer, false⟩
  | chunk :: chunks, buffer =>
    match drainMessages fromSlice ((buffer ++ chunk).length + 1) (buffer ++ chunk) with
    | none => none
    | some got =>
      if got.panicked then some got
      else (readChunks chunks got.buffer).map fun more =>
        { more with messages := got.messages ++ more.messages }

end

end Taomni.Dap
