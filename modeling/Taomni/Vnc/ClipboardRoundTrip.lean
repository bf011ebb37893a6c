import Taomni.Encoding.RoundTrip
import Taomni.Vnc.Clipboard

/-!
# Clipboard round trip

Reference: `build_provide_body` and `parse_extended_body` of `src-tauri/src/vnc/clipboard.rs`.

What a builder packs is what a parser takes apart: both walk the format bits in order, and a chunk is as
long as it says (`parseFormats_providePayload`). Conversely data that parses is a sequence of such
chunks (`exists_chunks_of_parseFormats`). Of zlib it is used that inflating what was deflated, call by
call, gives the data back (`InflateUndoesDeflate`).
-/

namespace Taomni.Vnc

open List
open Encoding (utf8Bytes fromUtf8 fromUtf8_utf8Bytes)

/-! ## Newlines -/

/-- The carriage returns of CRLF are dropped. -/
def dropCrBeforeLf : List Char → List Char
  | [] => []
  | '\r' :: '\n' :: rest => '\n' :: dropCrBeforeLf rest
  | c :: rest => c :: dropCrBeforeLf rest

/-- Text with every CRLF or CR turned into LF. -/
def lineFeeds (s : String) : String :=
  String.ofList ((dropCrBeforeLf s.toList).map fun c => if c = '\r' then '\n' else c)

theorem denormalizeTextNewlines_eq (cs : List Char) : denormalizeTextNewlines cs =
    (dropCrBeforeLf cs).map fun c => if c = '\r' then '\n' else c := by
  fun_induction denormalizeTextNewlines cs with
  | case1 => rfl
  | case2 rest ih => rw [dropCrBeforeLf, map_cons, ih, if_neg (by decide)]
  | case3 rest hlf ih =>
    rw [dropCrBeforeLf, map_cons, ih, if_pos rfl]
    exact fun _ _ => hlf _
  | case4 c rest hcrlf hcr ih =>
    rw [dropCrBeforeLf, map_cons, ih, if_neg hcr]
    exact fun _ h => absurd h hcr

theorem denormalize_normalize (cs : List Char) :
    denormalizeTextNewlines (normalizeTextNewlines cs) = denormalizeTextNewlines cs := by
  fun_induction normalizeTextNewlines cs with
  | case1 => rfl
  | case2 rest ih => rw [denormalizeTextNewlines, denormalizeTextNewlines, ih]
  | case3 rest hlf ih =>
    rw [denormalizeTextNewlines, denormalizeTextNewlines, ih]
    exact hlf
  | case4 rest ih =>
    rw [denormalizeTextNewlines, denormalizeTextNewlines, ih]
    · exact fun _ h => absurd h (by decide)
    · exact fun h => absurd h (by decide)
  | case5 c rest hcrlf hcr hlf ih =>
    rw [denormalizeTextNewlines, denormalizeTextNewlines, ih]
    · exact fun _ h => absurd h hcr
    · exact hcr
    · exact fun _ h => absurd h hcr
    · exact hcr

theorem ofList_denormalize_normalize (s : String) :
    String.ofList (denormalizeTextNewlines (normalizeTextNewlines s.toList)) = lineFeeds s := by
  rw [denormalize_normalize, denormalizeTextNewlines_eq, lineFeeds]

/-! ## Numbers and strings as bytes -/

theorem beNat_lt (a b c d : UInt8) : beNat a b c d < 2 ^ 32 := by
  have ha := a.toNat_lt
  have hb := b.toNat_lt
  have hc := c.toNat_lt
  have hd := d.toNat_lt
  rw [beNat]
  omega

theorem beNat_beBytes {n : ℕ} (h : n < 2 ^ 32) : beNat (UInt8.ofNat (n / 2 ^ 24))
    (UInt8.ofNat (n / 2 ^ 16)) (UInt8.ofNat (n / 2 ^ 8)) (UInt8.ofNat n) = n := by
  rw [beNat, UInt8.toNat_ofNat', UInt8.toNat_ofNat', UInt8.toNat_ofNat', UInt8.toNat_ofNat']
  omega

theorem beBytes_beNat (a b c d : UInt8) : beBytes (beNat a b c d) = [a, b, c, d] := by
  have ha := a.toNat_lt
  have hb := b.toNat_lt
  have hc := c.toNat_lt
  have hd := d.toNat_lt
  have hbyte {n : ℕ} {x : UInt8} (h : n % 256 = x.toNat) : UInt8.ofNat n = x :=
    UInt8.toNat_inj.mp ((UInt8.toNat_ofNat' (n := n)).trans h)
  rw [beBytes, hbyte (x := a), hbyte (x := b), hbyte (x := c), hbyte (x := d)] <;>
    · rw [beNat]
      omega

theorem fromUtf8Lossy_utf8Bytes (s : String) : fromUtf8Lossy (utf8Bytes s) = s := by
  rw [fromUtf8Lossy, fromUtf8_utf8Bytes, Option.getD_some]

/-- A parser gets back the string of a chunk, with its newlines plain if it is text. -/
theorem formatString_append_nul (bit : UInt32) (s : String) : formatString bit (utf8Bytes s ++ [0]) =
      if bit = formatText then String.ofList (denormalizeTextNewlines s.toList) else s := by
  rw [formatString, if_pos (suffix_append _ _), dropLast_concat, fromUtf8Lossy_utf8Bytes]

/-! ## Chunks -/

/-- What the receiver makes of the string of a format. -/
def received (bit : UInt32) (s : String) : String := if bit = formatText then lineFeeds s else s

variable {limits : DecodeLimits}

variable {bit : UInt32}

/-- The bytes a format is packed in: its length and they make the chunk. -/
theorem exists_of_formatChunk {s : String}
    {chunk : List UInt8} (h : formatChunk limits bit s = .ok chunk) :
    ∃ buf, chunk = beBytes buf.length ++ buf ∧ buf.length < 2 ^ 32 ∧
      limits.clipboardBytes buf.length = .ok () ∧ formatString bit buf = received bit s := by
  rw [formatChunk] at h
  obtain ⟨-, -, h⟩ := exists_of_bind_eq_ok h
  obtain ⟨⟨⟩, hlimit, h⟩ := exists_of_bind_eq_ok h
  split at h
  · cases h
  · next hlength =>
    cases h
    refine ⟨_, rfl, Nat.not_le.mp hlength, hlimit, ?_⟩
    rw [formatString_append_nul, packedString, received]
    by_cases htext : bit = formatText
    · rw [if_pos htext, if_pos htext, if_pos htext, String.toList_ofList,
        ofList_denormalize_normalize]
    · rw [if_neg htext, if_neg htext, if_neg htext]

variable {formats : UInt32}

/-- A chunk at the front is parsed and taken off. -/
theorem parseFormats_chunk (bits : List UInt32)
    (hbit : formats &&& bit ≠ 0) {buf : List UInt8} (hlength : buf.length < 2 ^ 32)
    (hlimit : limits.clipboardBytes buf.length = .ok ()) (rest : List UInt8) (data : ClipboardFormats) :
    parseFormats limits formats (bit :: bits) (beBytes buf.length ++ buf ++ rest) data =
      parseFormats limits formats bits rest (data.set bit (formatString bit buf)) := by
  change parseFormats limits formats (bit :: bits) (UInt8.ofNat _ :: UInt8.ofNat _ ::
    UInt8.ofNat _ :: UInt8.ofNat _ :: (buf ++ rest)) data = _
  rw [parseFormats, if_pos hbit, beNat_beBytes hlength]
  dsimp only
  rw [hlimit]
  change (if (buf ++ rest).length < buf.length then _ else parseFormats limits formats bits
    ((buf ++ rest).drop buf.length)
    (data.set bit (formatString bit ((buf ++ rest).take buf.length)))) = _
  rw [if_neg (by rw [length_append]; omega), drop_left, take_left]

theorem parseFormats_skip (bits : List UInt32)
    (hbit : ¬ formats &&& bit ≠ 0) (rest : List UInt8) (data : ClipboardFormats) :
    parseFormats limits formats (bit :: bits) rest data =
      parseFormats limits formats bits rest data := by
  rw [parseFormats.eq_def]
  exact if_neg hbit

/-- What the parser has gathered after a bit. -/
def receive (sent gathered : ClipboardFormats) (bit : UInt32) : ClipboardFormats :=
  ((sent.get bit).map fun s => gathered.set bit (received bit s)).getD gathered

/-- The parser takes apart what the builder has packed. -/
theorem parseFormats_providePayload {sent : ClipboardFormats} {bits : List UInt32}
    (hmask : ∀ bit ∈ bits, formats &&& bit ≠ 0 ↔ (sent.get bit).isSome) {payload : List UInt8}
    (h : providePayload limits sent bits = .ok payload) (gathered : ClipboardFormats) :
    parseFormats limits formats bits payload gathered =
      .ok (bits.foldl (receive sent) gathered, []) := by
  induction bits generalizing payload gathered with
  | nil =>
    cases h
    rfl
  | cons bit bits ih =>
    have hbit := hmask bit mem_cons_self
    have htail := fun b hb => hmask b (mem_cons_of_mem bit hb)
    rw [providePayload] at h
    rw [foldl_cons, receive]
    cases hget : sent.get bit with
    | some s =>
      rw [hget] at h hbit
      obtain ⟨chunk, hchunk, h⟩ := exists_of_bind_eq_ok h
      obtain ⟨rest, hrest, h⟩ := exists_of_bind_eq_ok h
      cases h
      obtain ⟨buf, rfl, hlength, hlimit, hstring⟩ := exists_of_formatChunk hchunk
      rw [parseFormats_chunk bits (hbit.mpr rfl) hlength hlimit, hstring, ih htail hrest]
      rfl
    | none =>
      rw [hget] at h hbit
      rw [parseFormats_skip bits fun hne => absurd (hbit.mp hne) (by decide), ih htail h]
      rfl

variable (data : ClipboardFormats)

/-- The formats of a message stand in its mask. -/
private theorem mask_and_ne_zero :
    ∀ bit ∈ formatBits, data.mask &&& bit ≠ 0 ↔ (data.get bit).isSome := by
  have hget (bit : UInt32) : (data.get bit).isSome = if bit = formatText then data.text.isSome
      else if bit = formatRtf then data.rtf.isSome
      else if bit = formatHtml then data.html.isSome else false := by
    rw [ClipboardFormats.get, apply_ite Option.isSome, apply_ite Option.isSome,
      apply_ite Option.isSome]
    rfl
  simp only [hget, ClipboardFormats.mask, formatBits, forall_mem_map]
  generalize data.text.isSome = text, data.rtf.isSome = rtf, data.html.isSome = html
  revert text rtf html
  decide

theorem foldl_receive (sent : ClipboardFormats) : formatBits.foldl (receive sent) {} =
    { text := sent.text.map lineFeeds, html := sent.html, rtf := sent.rtf } := by
  obtain ⟨text, html, rtf⟩ := sent
  cases text <;> cases html <;> cases rtf <;> rfl

/-- Data that parses is the sequence of the chunks of its formats, followed by what is left. -/
theorem exists_chunks_of_parseFormats
    {bits : List UInt32} {decoded rest : List UInt8} {gathered data : ClipboardFormats}
    (h : parseFormats limits formats bits decoded gathered = .ok (data, rest)) :
    ∃ chunks : List (UInt32 × List UInt8),
      chunks.map Prod.fst = bits.filter (fun bit => formats &&& bit ≠ 0) ∧
      (∀ chunk ∈ chunks, chunk.2.length < 2 ^ 32) ∧
      decoded = (chunks.flatMap fun chunk => beBytes chunk.2.length ++ chunk.2) ++ rest := by
  induction bits generalizing decoded gathered with
  | nil =>
    cases h
    exact ⟨[], rfl, fun _ hchunk => absurd hchunk not_mem_nil, rfl⟩
  | cons bit bits ih =>
    rw [parseFormats.eq_def] at h
    dsimp only at h
    split at h
    · next hbit =>
      split at h
      · next a b c d tail =>
        obtain ⟨-, -, h⟩ := exists_of_bind_eq_ok h
        split at h
        · cases h
        · next hlength =>
          obtain ⟨chunks, hbits, hsmall, hrest⟩ := ih h
          have hlen : (tail.take (beNat a b c d)).length = beNat a b c d :=
            length_take_of_le (Nat.not_lt.mp hlength)
          refine ⟨(bit, tail.take (beNat a b c d)) :: chunks, ?_, ?_, ?_⟩
          · rw [map_cons, hbits, filter_cons, if_pos (decide_eq_true hbit)]
          · refine forall_mem_cons.mpr ⟨?_, hsmall⟩
            rw [hlen]
            exact beNat_lt a b c d
          · rw [flatMap_cons, hlen, beBytes_beNat, append_assoc, append_assoc,
              ← hrest, take_append_drop]
            rfl
      · cases h
    · next hbit =>
      obtain ⟨chunks, hbits, hsmall, hrest⟩ := ih h
      refine ⟨chunks, ?_, hsmall, hrest⟩
      rw [hbits, filter_cons, if_neg fun hdecide => hbit (of_decide_eq_true hdecide)]

/-! ## zlib -/

namespace Zlib

/-- Called again and again on what is left of `input`, the inflater makes progress, and has produced
`data` when it comes to the end of its stream and of its input. -/
inductive Inflates (z : Zlib) : z.State → List UInt8 → List UInt8 → Prop
  | finish {state : z.State} {input : List UInt8} {step : InflateStep z.State}
      (hstep : z.decompress state input inflateChunk = .ok step) (hend : step.streamEnd = true)
      (hused : step.used = input.length) : Inflates z state input step.out
  | more {state : z.State} {input data : List UInt8} {step : InflateStep z.State}
      (hstep : z.decompress state input inflateChunk = .ok step) (hend : step.streamEnd = false)
      (hprogress : step.out ≠ [] ∨ step.used ≠ 0)
      (hrest : Inflates z step.state (input.drop step.used) data) :
      Inflates z state input (step.out ++ data)

/-- zlib inflate undoes deflate. -/
def InflateUndoesDeflate (z : Zlib) : Prop :=
  ∀ data compressed, z.deflate data = .ok compressed → z.Inflates z.start compressed data

end Zlib

variable {z : Zlib}

/-- The loop collects what the inflater produces, if that is within the limit. -/
private theorem inflateLoop_of_inflates {payload : List UInt8} {maxBytes : ℕ}
    {state : z.State} {input data : List UInt8} (h : z.Inflates state input data) {fuel consumed : ℕ}
    {decoded : List UInt8} (hinput : input = payload.drop consumed)
    (hconsumed : consumed ≤ payload.length) (hmax : decoded.length + data.length ≤ maxBytes)
    (hfuel : input.length + data.length < fuel) :
    inflateLoop z payload maxBytes fuel state consumed decoded = .ok (decoded ++ data) := by
  induction h generalizing fuel consumed decoded with
  | @finish state input step hstep hend hused =>
    obtain ⟨fuel, rfl⟩ := Nat.exists_eq_add_of_lt (Nat.zero_lt_of_lt hfuel)
    have hlength : consumed + step.used = payload.length := by
      rw [hused, hinput, length_drop]
      omega
    rw [Nat.zero_add, inflateLoop, ← hinput, hstep]
    dsimp only
    rw [if_neg (Nat.not_lt.mpr hmax), if_pos hend, if_neg (not_not_intro hlength)]
  | @more state input data step hstep hend hprogress hrest ih =>
    obtain ⟨fuel, rfl⟩ := Nat.exists_eq_add_of_lt (Nat.zero_lt_of_lt hfuel)
    have hused := z.used_le _ _ _ _ hstep
    rw [length_append] at hmax hfuel
    rw [hinput, length_drop] at hused hfuel
    have hmoved : step.out.length ≠ 0 ∨ step.used ≠ 0 :=
      hprogress.imp_left fun h h' => h (length_eq_zero_iff.mp h')
    rw [Nat.zero_add, inflateLoop, ← hinput, hstep]
    dsimp only
    rw [if_neg (by omega), if_neg (by rw [hend]; decide), if_neg (by omega),
      ih (by rw [hinput, drop_drop]) (by omega)
        (by rw [length_append]; omega)
        (by rw [hinput, drop_drop, length_drop]; omega),
      append_assoc]

theorem inflateProvide_of_deflate (hz : z.InflateUndoesDeflate)
    {data compressed : List UInt8} (h : z.deflate data = .ok compressed) {maxBytes : ℕ}
    (hmax : data.length ≤ maxBytes) : inflateProvide z compressed maxBytes = .ok data := by
  rw [inflateProvide, inflateLoop_of_inflates (hz data compressed h) rfl (Nat.zero_le _)
    (by simpa using hmax) (by omega)]
  rfl

/-! ## The round trip -/

/-- Action and formats are read back from the flags of a `provide` body. -/
private theorem flags_provide : (actionProvide ||| data.mask) &&& actionMask = actionProvide ∧
      (actionProvide ||| data.mask) &&& formatMask = data.mask := by
  rw [ClipboardFormats.mask]
  generalize data.text.isSome = text, data.rtf.isSome = rtf, data.html.isSome = html
  revert text rtf html
  decide

/-- A body with the flags of a `provide` message is parsed as one. -/
private theorem parseExtendedBodyWithLimits_provide (z : Zlib) (data : ClipboardFormats)
    (payload : List UInt8) (limits : DecodeLimits) :
    parseExtendedBodyWithLimits z (beBytes (actionProvide ||| data.mask).toNat ++ payload) limits =
      (parseProvide z limits data.mask payload).map fun received =>
        some (.provide data.mask received) := by
  obtain ⟨haction, hformats⟩ := flags_provide data
  change parseExtendedBodyWithLimits z (_ :: _ :: _ :: _ :: payload) limits = _
  rw [parseExtendedBodyWithLimits, beNat_beBytes (UInt32.toNat_lt _), UInt32.ofNat_toNat]
  rw [haction, hformats]
  rfl

private theorem parseProvide_of_build (hz : z.InflateUndoesDeflate)
    {data : ClipboardFormats} {body : List UInt8} (h : buildProvideBody z data = .ok body) :
    parseExtendedBodyWithLimits z body .default = .ok (some (.provide data.mask
      { text := data.text.map lineFeeds, html := data.html, rtf := data.rtf })) := by
  rw [buildProvideBody] at h
  obtain ⟨payload, hpayload, h⟩ := exists_of_bind_eq_ok h
  split at h
  · cases h
  next hmax =>
  obtain ⟨compressed, hdeflate, h⟩ := exists_of_bind_eq_ok h
  split at h
  · cases h
  next hcompressed =>
  cases h
  rw [parseExtendedBodyWithLimits_provide, parseProvide, if_neg hcompressed,
    inflateProvide_of_deflate hz hdeflate (Nat.not_lt.mp hmax)]
  change Except.map _ (parseFormats .default data.mask formatBits payload {} >>= _) = _
  rw [parseFormats_providePayload (mask_and_ne_zero data) hpayload, foldl_receive]
  rfl

private theorem exists_of_map_eq_ok {α β : Type} {x : Except String α} {f : α → β} {b : β}
    (h : x.map f = .ok b) : ∃ a, x = .ok a ∧ f a = b := by
  cases x with
  | error e => cases h
  | ok a => exact ⟨a, rfl, Except.ok.inj h⟩

/-- Only a body with the `provide` action is parsed as such a message. -/
private theorem parseProvide_of_parse {body : List UInt8} {data : ClipboardFormats}
    (h : parseExtendedBodyWithLimits z body limits = .ok (some (.provide formats data))) :
    parseProvide z limits formats (body.drop 4) = .ok data := by
  rw [parseExtendedBodyWithLimits.eq_def] at h
  split at h
  · dsimp only at h
    split at h
    · obtain ⟨sizes, -, h⟩ := exists_of_map_eq_ok h
      cases h
    split at h
    · cases h
    split at h
    · cases h
    split at h
    · cases h
    split at h
    · obtain ⟨received, hparse, h⟩ := exists_of_map_eq_ok h
      cases h
      exact hparse
    · cases h
  · cases h

/-- What a body is built from is what is parsed from it, but for the newlines of the text; and the data of
a `provide` body that is accepted is made up of the formats' chunks, each as long as it declares. -/
theorem provide_roundTrip (z : Zlib) (hz : z.InflateUndoesDeflate) :
    (∀ data body, buildProvideBody z data = .ok body →
      parseExtendedBody z body = some (.provide data.mask
        { text := data.text.map lineFeeds, html := data.html, rtf := data.rtf })) ∧
    ∀ body limits formats data,
      parseExtendedBodyWithLimits z body limits = .ok (some (.provide formats data)) →
      ∃ (decoded : List UInt8) (chunks : List (UInt32 × List UInt8)),
        inflateProvide z (body.drop 4) limits.maxClipboardDecompressedBytes = .ok decoded ∧
        chunks.map Prod.fst = formatBits.filter (fun bit => formats &&& bit ≠ 0) ∧
        (∀ chunk ∈ chunks, chunk.2.length < 2 ^ 32) ∧
        decoded = chunks.flatMap fun chunk => beBytes chunk.2.length ++ chunk.2 := by
  refine ⟨fun data body h => ?_, fun body limits formats data h => ?_⟩
  · rw [parseExtendedBody, parseProvide_of_build hz h]
  · have hparse := parseProvide_of_parse h
    rw [parseProvide] at hparse
    split at hparse
    · cases hparse
    obtain ⟨decoded, hdecoded, hparse⟩ := exists_of_bind_eq_ok hparse
    obtain ⟨⟨gathered, rest⟩, hformats, hparse⟩ := exists_of_bind_eq_ok hparse
    dsimp only at hparse
    split at hparse
    · cases hparse
    next hrest =>
    obtain ⟨chunks, hbits, hsmall, hchunks⟩ := exists_chunks_of_parseFormats hformats
    rw [not_not.mp hrest, append_nil] at hchunks
    exact ⟨decoded, chunks, hdecoded, hbits, hsmall, hchunks⟩

/-- The zlib stream of the chunk of `"a\r\nb"`. -/
private def crlfStream : List UInt8 :=
  [120, 156, 99, 96, 96, 96, 77, 228, 229, 74, 98, 0, 0, 3, 34, 0, 224]

private def crlfPayload : List UInt8 := [0, 0, 0, 5, 97, 13, 10, 98, 0]

private def storedInflate (input : List UInt8) : InflateStep Unit :=
  ⟨(), input.length, if input = crlfStream then crlfPayload else input.tail, true⟩

/-- A zlib that knows one stream and stores all other data behind a zero byte. -/
private def storedZlib : Zlib where
  deflate data := .ok (if data = crlfPayload then crlfStream else 0 :: data)
  State := Unit
  start := ()
  decompress _ input _ := .ok (storedInflate input)
  used_le _ input _ step h := by
    cases h
    exact Nat.le_refl _

private theorem storedZlib_inflateUndoesDeflate : storedZlib.InflateUndoesDeflate := by
  intro data compressed h
  obtain rfl := Except.ok.inj h
  have hstream : 0 :: data ≠ crlfStream := fun h => absurd (List.cons.inj h).1 (by decide)
  have hout : (storedInflate (if data = crlfPayload then crlfStream else 0 :: data)).out = data := by
    by_cases hdata : data = crlfPayload
    · rw [if_pos hdata, storedInflate, if_pos rfl, hdata]
    · rw [if_neg hdata, storedInflate, if_neg hstream, tail_cons]
  have hfinish : storedZlib.Inflates storedZlib.start
      (if data = crlfPayload then crlfStream else 0 :: data)
      (storedInflate (if data = crlfPayload then crlfStream else 0 :: data)).out :=
    .finish rfl rfl rfl
  rwa [hout] at hfinish

/-- A lone carriage return. -/
theorem provide_roundTrip_cr : parseExtendedBody storedZlib ([16, 0, 0, 1] ++ crlfStream) =
      some (.provide formatText { text := some "a\nb" }) ∧
    ∃ chunks : List (UInt32 × List UInt8), chunks.map Prod.fst = [formatText] ∧
      crlfPayload = chunks.flatMap fun chunk => beBytes chunk.2.length ++ chunk.2 := by
  obtain ⟨hbuild, hparse⟩ := provide_roundTrip storedZlib storedZlib_inflateUndoesDeflate
  have hbody := hbuild { text := some "a\rb" } ([16, 0, 0, 1] ++ crlfStream) (by decide)
  refine ⟨hbody, ?_⟩
  obtain ⟨decoded, chunks, hdecoded, hbits, -, hchunks⟩ := hparse ([16, 0, 0, 1] ++ crlfStream)
    .default formatText { text := some "a\nb" } (by decide)
  have hinflate : inflateProvide storedZlib (([16, 0, 0, 1] ++ crlfStream).drop 4)
      DecodeLimits.default.maxClipboardDecompressedBytes = .ok crlfPayload := by decide
  obtain rfl := Except.ok.inj (hinflate.symm.trans hdecoded)
  exact ⟨chunks, hbits, hchunks⟩

end Taomni.Vnc
