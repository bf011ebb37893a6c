import Taomni.Common.ByteFields
import Taomni.Encoding.RoundTrip

/-!
# Wire frames

Reference: `wire` of `src-tauri/src/lanchat/protocol.rs`.

`Envelope::decode` is a parameter. A string is read from its bytes or refused. The outer option of
`decodeFrame` says whether an index is out of bounds, which panics.
-/

namespace Taomni.Lanchat

open List
open Encoding
open Option (bind_eq_bind bind_eq_some_iff bind_some)

abbrev Bytes := List UInt8

/-- JSON control envelope follows. -/
def TAG_CONTROL : UInt8 := 0x00

/-- Raw binary file piece follows. -/
def TAG_PIECE : UInt8 := 0x01

/-- Real-time media frame follows. -/
def TAG_MEDIA : UInt8 := 0x02

structure MediaFrame where
  session : String
  stream : String
  kind : UInt8
  seq : UInt32
  ts : Int64
  data : Bytes
deriving DecidableEq

/-- A decoded inbound frame. -/
inductive Frame (ε : Type) where
  | control (env : ε)
  | piece (fileId : String) (piece : UInt32) (data : Bytes)
  | media (frame : MediaFrame)

/-! ## Encoding -/

/-- `put_u32`. -/
def putU32 (n : UInt32) : Bytes := bigEndianBytes 4 n.toNat

/-- `put_i64`. -/
def putI64 (n : Int64) : Bytes := bigEndianBytes 8 n.toUInt64.toNat

/-- A length byte and a text. -/
def putLabel (label : String) : Bytes :=
  let bytes := utf8Bytes label
  UInt8.ofNat bytes.length :: bytes

/-- `[TAG_PIECE][u8 fileId_len][fileId][u32 BE pieceIndex][data]`. -/
def framePiece (fileId : String) (piece : UInt32) (data : Bytes) : Bytes :=
  [TAG_PIECE] ++ (putLabel fileId ++ (putU32 piece ++ data))

/-- `[TAG_MEDIA][u8 sLen][session][u8 stLen][stream][u8 kind][u32 BE seq][i64 BE ts][data]`. -/
def frameMedia (frame : MediaFrame) : Bytes :=
  [TAG_MEDIA] ++ (putLabel frame.session ++ (putLabel frame.stream ++ ([frame.kind] ++
    (putU32 frame.seq ++ (putI64 frame.ts ++ frame.data)))))

/-! ## Decoding -/

section

variable (buf : Bytes)

/-- A length byte at an offset, and the text after it with where it ends. -/
def getLabel (start : ℕ) : Option (String × ℕ) := do
  let len ← buf[start]?
  let stop := start + 1 + len.toNat
  let label ← fromUtf8 (← getRange buf (start + 1) stop)
  some (label, stop)

/-- `u32::from_be_bytes`. -/
def getU32 (start : ℕ) : Option UInt32 := do
  let bytes ← getRange buf start (start + 4)
  some (UInt32.ofNat (bigEndianNat bytes))

/-- `i64::from_be_bytes`. -/
def getI64 (start : ℕ) : Option Int64 := do
  let bytes ← getRange buf start (start + 8)
  some (UInt64.ofNat (bigEndianNat bytes)).toInt64

def decodePiece {ε : Type} : Option (Frame ε) := do
  let (id, idEnd) ← getLabel buf 1
  let piece ← getU32 buf idEnd
  let data ← getRange buf (idEnd + 4) buf.length
  some (.piece id piece data)

def decodeMedia {ε : Type} : Option (Frame ε) := do
  let (session, sEnd) ← getLabel buf 1
  let (stream, stEnd) ← getLabel buf sEnd
  let kind ← buf[stEnd]?
  let seqStart := stEnd + 1
  let seq ← getU32 buf seqStart
  let seqEnd := seqStart + 4
  let ts ← getI64 buf seqEnd
  let tsEnd := seqEnd + 8
  let data ← getRange buf tsEnd buf.length
  some (.media { session, stream, kind, seq, ts, data })

/-- The rest of a message from an offset on; beyond the end panics. -/
def indexFrom (start : ℕ) : Option Bytes := if start ≤ buf.length then some (buf.drop start) else none

variable {ε : Type} (decodeEnvelope : Bytes → Option ε)

/-- `decode_frame`. -/
def decodeFrame : Option (Option (Frame ε)) :=
  match buf[0]? with
  | none => some none
  | some tag =>
    if tag = TAG_CONTROL then (indexFrom buf 1).map fun json => (decodeEnvelope json).map .control
    else if tag = TAG_PIECE then some (decodePiece buf)
    else if tag = TAG_MEDIA then some (decodeMedia buf)
    else some none

end

/-!
# Wire frames are read as they are written

Each field is read where the fields before it end, and those fields are the bytes up to there. So a frame is
read back, and what is read of a message writes it again.
-/

/-! ## Fields -/

variable {start : ℕ}

section Fields

variable {buf front rest : Bytes}

theorem length_putLabel (label : String) : (putLabel label).length = 1 + (utf8Bytes label).length := by
  rw [putLabel, length_cons, Nat.add_comm]

theorem length_putU32 (n : UInt32) : (putU32 n).length = 4 := length_bigEndianBytes 4 _

theorem length_putI64 (n : Int64) : (putI64 n).length = 8 := length_bigEndianBytes 8 _

theorem getElem?_append_cons (front : Bytes) (b : UInt8) (rest : Bytes)
    (h : start = front.length) : (front ++ b :: rest)[start]? = some b := by
  rw [h, getElem?_append_right le_rfl, Nat.sub_self]
  rfl

theorem getLabel_putLabel {label : String} (hlabel : (utf8Bytes label).length ≤ 255)
    (front rest : Bytes) (h : start = front.length) : getLabel (front ++ (putLabel label ++ rest)) start
      = some (label, start + (putLabel label).length) := by
  have hlen : (UInt8.ofNat (utf8Bytes label).length).toNat = (utf8Bytes label).length :=
    UInt8.toNat_ofNat_of_lt' (Nat.lt_succ_of_le hlabel)
  have hfield : getRange (front ++ (putLabel label ++ rest)) (start + 1)
      (start + 1 + (utf8Bytes label).length) = some (utf8Bytes label) := by
    have hsplit : front ++ (putLabel label ++ rest)
        = (front ++ [UInt8.ofNat (utf8Bytes label).length]) ++ (utf8Bytes label ++ rest) := by
      rw [putLabel, append_assoc]
      rfl
    rw [hsplit]
    exact getRange_append _ _ _ (by rw [length_append, h]; rfl) rfl
  have hbyte : (front ++ (putLabel label ++ rest))[start]?
      = some (UInt8.ofNat (utf8Bytes label).length) := getElem?_append_cons front _ _ h
  rw [getLabel, hbyte]
  simp only [bind_eq_bind, bind_some, hlen, hfield, fromUtf8_utf8Bytes]
  rw [length_putLabel, Nat.add_assoc]

/-- A label that is read stands there as it is written. -/
theorem getLabel_eq_some {label : String} {stop : ℕ} (h : getLabel buf start = some (label, stop)) :
    (utf8Bytes label).length ≤ 255 ∧ start ≤ stop ∧ stop ≤ buf.length ∧
      slice buf start stop = putLabel label := by
  obtain ⟨len, hlen, h⟩ := bind_eq_some_iff.mp h
  obtain ⟨field, hfield, h⟩ := bind_eq_some_iff.mp h
  obtain ⟨text, htext, h⟩ := bind_eq_some_iff.mp h
  obtain ⟨rfl, rfl⟩ := Prod.mk.inj (Option.some.inj h)
  have hlength := length_of_getRange hfield
  obtain ⟨⟨-, hstop⟩, hslice⟩ := getRange_eq_some.mp hfield
  have hbytes := utf8Bytes_of_fromUtf8 htext
  have hle : field.length = len.toNat := by omega
  have hbound : len.toNat < 256 := len.toNat_lt
  refine ⟨by rw [hbytes]; omega, by omega, hstop, ?_⟩
  rw [← slice_append buf (Nat.le_succ start) (by omega), slice_succ hlen, hslice, putLabel, hbytes, hle,
    UInt8.ofNat_toNat]
  rfl

theorem getU32_putU32 (n : UInt32) (front rest : Bytes) (h : start = front.length) :
    getU32 (front ++ (putU32 n ++ rest)) start = some n := by
  have hfield := getRange_append front (putU32 n) rest h (by rw [length_putU32])
  rw [getU32, hfield, bind_eq_bind, bind_some, putU32,
    bigEndianNat_bigEndianBytes n.toNat_lt, UInt32.ofNat_toNat]

theorem getU32_eq_some {n : UInt32} (h : getU32 buf start = some n) :
    start + 4 ≤ buf.length ∧ slice buf start (start + 4) = putU32 n := by
  obtain ⟨field, hfield, h⟩ := bind_eq_some_iff.mp h
  obtain rfl := Option.some.inj h
  have hlength : field.length = 4 := by
    rw [length_of_getRange hfield]
    omega
  obtain ⟨⟨-, hstop⟩, hslice⟩ := getRange_eq_some.mp hfield
  have hlt := bigEndianNat_lt field
  have hback := bigEndianBytes_bigEndianNat field
  rw [hlength] at hlt hback
  refine ⟨hstop, ?_⟩
  rw [hslice, putU32, UInt32.toNat_ofNat_of_lt' hlt, hback]

theorem getI64_putI64 (n : Int64) (front rest : Bytes) (h : start = front.length) :
    getI64 (front ++ (putI64 n ++ rest)) start = some n := by
  have hfield := getRange_append front (putI64 n) rest h (by rw [length_putI64])
  rw [getI64, hfield, bind_eq_bind, bind_some, putI64,
    bigEndianNat_bigEndianBytes n.toUInt64.toNat_lt, UInt64.ofNat_toNat, Int64.toInt64_toUInt64]

theorem getI64_eq_some {n : Int64} (h : getI64 buf start = some n) :
    start + 8 ≤ buf.length ∧ slice buf start (start + 8) = putI64 n := by
  obtain ⟨field, hfield, h⟩ := bind_eq_some_iff.mp h
  obtain rfl := Option.some.inj h
  have hlength : field.length = 8 := by
    rw [length_of_getRange hfield]
    omega
  obtain ⟨⟨-, hstop⟩, hslice⟩ := getRange_eq_some.mp hfield
  have hlt := bigEndianNat_lt field
  have hback := bigEndianBytes_bigEndianNat field
  rw [hlength] at hlt hback
  refine ⟨hstop, ?_⟩
  rw [hslice, putI64, UInt64.toUInt64_toInt64, UInt64.toNat_ofNat_of_lt' hlt, hback]

end Fields

/-! ## Frames -/

/-- The payload is the rest. -/
theorem getRange_rest (front data : Bytes) (h : start = front.length) :
    getRange (front ++ data) start (front ++ data).length = some data := by
  subst h
  have hrest := getRange_append front data [] rfl rfl
  rwa [append_nil, ← length_append] at hrest

section Frames

variable {ε : Type}

theorem decodePiece_framePiece {fileId : String} (h : (utf8Bytes fileId).length ≤ 255) (piece : UInt32)
    (data : Bytes) :
    decodePiece (framePiece fileId piece data) = some (.piece fileId piece data : Frame ε) := by
  have hid : getLabel (framePiece fileId piece data) 1 = some (fileId, 1 + (putLabel fileId).length) :=
    getLabel_putLabel h [TAG_PIECE] (putU32 piece ++ data) rfl
  have hpiece : getU32 (framePiece fileId piece data) (1 + (putLabel fileId).length) = some piece := by
    have hread := getU32_putU32 piece ([TAG_PIECE] ++ putLabel fileId) data rfl
    rwa [append_assoc, length_append] at hread
  have hdata : getRange (framePiece fileId piece data) (1 + (putLabel fileId).length + 4)
      (framePiece fileId piece data).length = some data := by
    have hread := getRange_rest (([TAG_PIECE] ++ putLabel fileId) ++ putU32 piece) data rfl
    rwa [length_append, length_append, length_putU32, append_assoc, append_assoc]
      at hread
  rw [decodePiece, hid]
  simp only [bind_eq_bind, bind_some, hpiece, hdata]

variable {buf : Bytes}

theorem framePiece_of_decodePiece {fileId : String} {piece : UInt32} {data : Bytes}
    (htag : buf[0]? = some TAG_PIECE) (h : decodePiece buf = some (.piece fileId piece data : Frame ε)) :
    (utf8Bytes fileId).length ≤ 255 ∧ framePiece fileId piece data = buf := by
  obtain ⟨⟨id, idEnd⟩, hid, h⟩ := bind_eq_some_iff.mp h
  obtain ⟨n, hn, h⟩ := bind_eq_some_iff.mp h
  obtain ⟨bytes, hbytes, h⟩ := bind_eq_some_iff.mp h
  obtain ⟨rfl, rfl, rfl⟩ := Frame.piece.inj (Option.some.inj h)
  obtain ⟨hlabel, hstart, hstop, hlabelAt⟩ := getLabel_eq_some hid
  obtain ⟨hend, hpieceAt⟩ := getU32_eq_some hn
  obtain ⟨⟨hle, -⟩, hdata⟩ := getRange_eq_some.mp hbytes
  refine ⟨hlabel, ?_⟩
  rw [framePiece, ← slice_succ htag, ← hlabelAt, ← hpieceAt, ← hdata, slice_append buf (by omega) hle,
    slice_append buf hstart (by omega), slice_append buf (by omega) (by omega), slice_length_drop,
    drop_zero]

theorem decodeMedia_frameMedia {frame : MediaFrame} (hsession : (utf8Bytes frame.session).length ≤ 255)
    (hstream : (utf8Bytes frame.stream).length ≤ 255) :
    decodeMedia (frameMedia frame) = some (.media frame : Frame ε) := by
  obtain ⟨session, stream, kind, seq, ts, data⟩ := frame
  dsimp only at hsession hstream
  have hfirst : getLabel (frameMedia ⟨session, stream, kind, seq, ts, data⟩) 1
      = some (session, 1 + (putLabel session).length) :=
    getLabel_putLabel hsession [TAG_MEDIA] _ rfl
  have hsecond : getLabel (frameMedia ⟨session, stream, kind, seq, ts, data⟩)
      (1 + (putLabel session).length)
      = some (stream, 1 + (putLabel session).length + (putLabel stream).length) := by
    have hread := getLabel_putLabel hstream ([TAG_MEDIA] ++ putLabel session)
      ([kind] ++ (putU32 seq ++ (putI64 ts ++ data))) rfl
    rwa [append_assoc, length_append] at hread
  have hkind : (frameMedia ⟨session, stream, kind, seq, ts, data⟩)[1 + (putLabel session).length
      + (putLabel stream).length]? = some kind := by
    have hread := getElem?_append_cons (([TAG_MEDIA] ++ putLabel session) ++ putLabel stream) kind
      (putU32 seq ++ (putI64 ts ++ data)) rfl
    rwa [length_append, length_append, append_assoc, append_assoc] at hread
  have hseq : getU32 (frameMedia ⟨session, stream, kind, seq, ts, data⟩)
      (1 + (putLabel session).length + (putLabel stream).length + 1) = some seq := by
    have hread := getU32_putU32 seq ((([TAG_MEDIA] ++ putLabel session) ++ putLabel stream) ++ [kind])
      (putI64 ts ++ data) rfl
    rwa [length_append, length_append, length_append, append_assoc,
      append_assoc, append_assoc] at hread
  have hts : getI64 (frameMedia ⟨session, stream, kind, seq, ts, data⟩)
      (1 + (putLabel session).length + (putLabel stream).length + 1 + 4) = some ts := by
    have hread := getI64_putI64 ts
      (((([TAG_MEDIA] ++ putLabel session) ++ putLabel stream) ++ [kind]) ++ putU32 seq) data rfl
    rwa [length_append, length_append, length_append, length_append, length_putU32,
      append_assoc, append_assoc, append_assoc, append_assoc] at hread
  have hdata : getRange (frameMedia ⟨session, stream, kind, seq, ts, data⟩)
      (1 + (putLabel session).length + (putLabel stream).length + 1 + 4 + 8)
      (frameMedia ⟨session, stream, kind, seq, ts, data⟩).length = some data := by
    have hread := getRange_rest
      ((((([TAG_MEDIA] ++ putLabel session) ++ putLabel stream) ++ [kind]) ++ putU32 seq) ++ putI64 ts)
      data rfl
    rwa [length_append, length_append, length_append, length_append,
      length_append, length_putU32, length_putI64, append_assoc, append_assoc,
      append_assoc, append_assoc, append_assoc] at hread
  rw [decodeMedia, hfirst]
  simp only [bind_eq_bind, bind_some, hsecond, hkind, hseq, hts, hdata]

theorem frameMedia_of_decodeMedia {frame : MediaFrame} (htag : buf[0]? = some TAG_MEDIA)
    (h : decodeMedia buf = some (.media frame : Frame ε)) :
    ((utf8Bytes frame.session).length ≤ 255 ∧ (utf8Bytes frame.stream).length ≤ 255) ∧
      frameMedia frame = buf := by
  obtain ⟨⟨session, sEnd⟩, hsession, h⟩ := bind_eq_some_iff.mp h
  obtain ⟨⟨stream, stEnd⟩, hstream, h⟩ := bind_eq_some_iff.mp h
  obtain ⟨kind, hkind, h⟩ := bind_eq_some_iff.mp h
  obtain ⟨seq, hseq, h⟩ := bind_eq_some_iff.mp h
  obtain ⟨ts, hts, h⟩ := bind_eq_some_iff.mp h
  obtain ⟨bytes, hbytes, h⟩ := bind_eq_some_iff.mp h
  obtain rfl := Frame.media.inj (Option.some.inj h)
  obtain ⟨hlabel, hstart, hstop, hsessionAt⟩ := getLabel_eq_some hsession
  obtain ⟨hlabel', hstart', hstop', hstreamAt⟩ := getLabel_eq_some hstream
  obtain ⟨hend, hseqAt⟩ := getU32_eq_some hseq
  obtain ⟨hend', htsAt⟩ := getI64_eq_some hts
  obtain ⟨⟨hle, -⟩, hdata⟩ := getRange_eq_some.mp hbytes
  refine ⟨⟨hlabel, hlabel'⟩, ?_⟩
  rw [frameMedia, ← slice_succ htag, ← hsessionAt, ← hstreamAt, ← slice_succ hkind, ← hseqAt, ← htsAt,
    ← hdata, slice_append buf (by omega) hle, slice_append buf (by omega) (by omega),
    slice_append buf (by omega) (by omega), slice_append buf hstart' (by omega),
    slice_append buf hstart (by omega), slice_append buf (by omega) (by omega), slice_length_drop,
    drop_zero]

/-! ## All messages -/

variable (decodeEnvelope : Bytes → Option ε)

theorem decodeFrame_of_piece (h : buf[0]? = some TAG_PIECE) :
    decodeFrame buf decodeEnvelope = some (decodePiece buf) := by
  rw [decodeFrame, h]
  rfl

theorem decodeFrame_of_media (h : buf[0]? = some TAG_MEDIA) :
    decodeFrame buf decodeEnvelope = some (decodeMedia buf) := by
  rw [decodeFrame, h]
  rfl

theorem decodePiece_ne_media (frame : MediaFrame) : decodePiece buf ≠ some (.media frame : Frame ε) := by
  intro h
  obtain ⟨⟨id, idEnd⟩, -, h⟩ := bind_eq_some_iff.mp h
  obtain ⟨n, -, h⟩ := bind_eq_some_iff.mp h
  obtain ⟨bytes, -, h⟩ := bind_eq_some_iff.mp h
  cases h

theorem decodeMedia_ne_piece (fileId : String) (piece : UInt32) (data : Bytes) :
    decodeMedia buf ≠ some (.piece fileId piece data : Frame ε) := by
  intro h
  obtain ⟨⟨session, sEnd⟩, -, h⟩ := bind_eq_some_iff.mp h
  obtain ⟨⟨stream, stEnd⟩, -, h⟩ := bind_eq_some_iff.mp h
  obtain ⟨kind, -, h⟩ := bind_eq_some_iff.mp h
  obtain ⟨seq, -, h⟩ := bind_eq_some_iff.mp h
  obtain ⟨ts, -, h⟩ := bind_eq_some_iff.mp h
  obtain ⟨bytes, -, h⟩ := bind_eq_some_iff.mp h
  cases h

/-- The frames a message can be, and what is not one. -/
theorem decodeFrame_cases (buf : Bytes) : (∃ frame?, decodeFrame buf decodeEnvelope = some frame? ∧
      ∀ frame ∈ frame?, ∃ env, frame = Frame.control env) ∨
    buf[0]? = some TAG_PIECE ∧ decodeFrame buf decodeEnvelope = some (decodePiece buf) ∨
    buf[0]? = some TAG_MEDIA ∧ decodeFrame buf decodeEnvelope = some (decodeMedia buf) := by
  cases htag : buf[0]? with
  | none =>
    refine .inl ⟨none, ?_, nofun⟩
    rw [decodeFrame, htag]
  | some tag =>
    by_cases hpiece : tag = TAG_PIECE
    · subst hpiece
      exact .inr (.inl ⟨rfl, decodeFrame_of_piece decodeEnvelope htag⟩)
    by_cases hmedia : tag = TAG_MEDIA
    · subst hmedia
      exact .inr (.inr ⟨rfl, decodeFrame_of_media decodeEnvelope htag⟩)
    left
    rw [decodeFrame, htag]
    by_cases hcontrol : tag = TAG_CONTROL
    · have hlength : 1 ≤ buf.length := (List.getElem?_eq_some_iff.mp htag).1
      refine ⟨(decodeEnvelope (buf.drop 1)).map .control, ?_, fun frame hframe => ?_⟩
      · dsimp only
        rw [if_pos hcontrol, indexFrom, if_pos hlength, Option.map_some]
      · obtain ⟨env, -, rfl⟩ := Option.map_eq_some_iff.mp hframe
        exact ⟨env, rfl⟩
    · refine ⟨none, ?_, nofun⟩
      dsimp only
      rw [if_neg hcontrol, if_neg hpiece, if_neg hmedia]

/-- Frames are read as they are written, a message that is read as a frame is the one that is written for
it, and no message is read out of bounds. -/
theorem wire_frames_decode_uniquely : (∀ fileId piece data, (utf8Bytes fileId).length ≤ 255 →
      decodeFrame (framePiece fileId piece data) decodeEnvelope
        = some (some (.piece fileId piece data))) ∧ (∀ frame : MediaFrame,
      (utf8Bytes frame.session).length ≤ 255 ∧ (utf8Bytes frame.stream).length ≤ 255 →
      decodeFrame (frameMedia frame) decodeEnvelope = some (some (.media frame))) ∧
    ∀ buf : Bytes, decodeFrame buf decodeEnvelope ≠ none ∧
      (∀ fileId piece data, decodeFrame buf decodeEnvelope = some (some (.piece fileId piece data)) →
        (utf8Bytes fileId).length ≤ 255 ∧ framePiece fileId piece data = buf) ∧
      ∀ frame, decodeFrame buf decodeEnvelope = some (some (.media frame)) →
        ((utf8Bytes frame.session).length ≤ 255 ∧ (utf8Bytes frame.stream).length ≤ 255) ∧
          frameMedia frame = buf := by
  refine ⟨fun fileId piece data h => ?_, fun frame h => ?_, fun buf => ?_⟩
  · rw [decodeFrame_of_piece decodeEnvelope rfl, decodePiece_framePiece h]
  · rw [decodeFrame_of_media decodeEnvelope rfl, decodeMedia_frameMedia h.1 h.2]
  · rcases decodeFrame_cases decodeEnvelope buf with
      ⟨frame?, heq, hcontrol⟩ | ⟨htag, heq⟩ | ⟨htag, heq⟩ <;> rw [heq]
    · refine ⟨nofun, fun fileId piece data h => ?_, fun frame h => ?_⟩
      · obtain ⟨env, hframe⟩ := hcontrol _ (Option.some.inj h)
        cases hframe
      · obtain ⟨env, hframe⟩ := hcontrol _ (Option.some.inj h)
        cases hframe
    · refine ⟨nofun, fun fileId piece data h => ?_, fun frame h => ?_⟩
      · exact framePiece_of_decodePiece htag (Option.some.inj h)
      · exact absurd (Option.some.inj h) (decodePiece_ne_media frame)
    · refine ⟨nofun, fun fileId piece data h => ?_, fun frame h => ?_⟩
      · exact absurd (Option.some.inj h) (decodeMedia_ne_piece fileId piece data)
      · exact frameMedia_of_decodeMedia htag (Option.some.inj h)

/-- An empty payload, and labels of more bytes than characters. -/
theorem wire_frames_decode_uniquely_call : let frame : MediaFrame := ⟨"é", "cam", 1, 99, -1, []⟩
    decodeFrame (frameMedia frame) (fun _ => (none : Option Unit)) = some (some (.media frame)) ∧
      decodeFrame (framePiece "é" 42 []) (fun _ => (none : Option Unit))
        = some (some (.piece "é" 42 [])) := by
  intro frame
  obtain ⟨hpiece, hmedia, -⟩ := wire_frames_decode_uniquely fun _ => (none : Option Unit)
  exact ⟨hmedia frame (by decide), hpiece "é" 42 [] (by decide)⟩

end Frames

end Taomni.Lanchat
