import Taomni.Vnc.TileRegions

/-!
# Tight rectangles

Reference: `src-tauri/src/vnc/tight.rs`, and the limits it uses of `src-tauri/src/vnc/limits.rs`.

zlib is a parameter (`Inflater`), and so is the JPEG decoder. The buffers of the decoder are cleared
before they are used, so its state is the four streams.
-/

namespace Taomni.Vnc

open Decoder

/-- `zlib_rs::Inflate`: a call on some input with room for some output gives the state after it and,
unless it fails, the bytes consumed and the bytes made. -/
structure Inflater where
  State : Type
  start : State
  decompress : State → List UInt8 → ℕ → State × Except String (ℕ × List UInt8)
  used_le : ∀ state input room used made,
    (decompress state input room).2 = .ok (used, made) → used ≤ input.length
  made_le : ∀ state input room used made,
    (decompress state input room).2 = .ok (used, made) → made.length ≤ room

/-- What `DecodeLimits` sets for compressed rectangles. -/
structure RectLimits where
  maxCompressedRectBytes : ℕ
  maxDecompressedRectBytes : ℕ

/-- `compressed_bytes`. -/
def RectLimits.compressedBytes (limits : RectLimits) (len : ℕ) : Except String ℕ :=
  if limits.maxCompressedRectBytes < len then .error "compressed rectangle exceeds configured limit"
  else .ok len

section Tight

variable (z : Inflater) (limits : RectLimits) (conv : PixelConverter) (ioError : String)

/-- `TightDecoder`. -/
abbrev TightState := Fin 4 → z.State

def TightState.new : TightState z := fun _ => z.start

/-- The streams that the control byte resets. -/
def resetStreams (control : UInt8) (state : TightState z) : TightState z := fun index =>
  if control &&& (1 <<< UInt8.ofNat index.val) ≠ 0 then z.start else state index

variable {z}

def tightU8 (state : TightState z) (what : String) : RectDecoder (TightState z) UInt8 :=
  next (.error s!"tight: {what}: {ioError}" state)

def tightBytes (count : ℕ) (state : TightState z) (what : String) :
    RectDecoder (TightState z) (List UInt8) :=
  Decoder.slice count (.error s!"tight: {what}: {ioError}" state)

/-- 7 bits per byte, little-endian, up to 22 bits. -/
def readCompactLength (state : TightState z) : RectDecoder (TightState z) ℕ := do
  let b0 ← tightU8 ioError state "length"
  let len0 := (b0 &&& 0x7F).toNat
  if b0 &&& 0x80 ≠ 0 then do
    let b1 ← tightU8 ioError state "length"
    let len1 := len0 ||| ((b1 &&& 0x7F).toNat <<< 7)
    if b1 &&& 0x80 ≠ 0 then do
      let b2 ← tightU8 ioError state "length"
      return len1 ||| (b2.toNat <<< 14)
    else return len1
  else return len0

/-- `limits.compressed_bytes` of a length read. -/
def checkCompressed (len : ℕ) (state : TightState z) : RectDecoder (TightState z) Unit :=
  match limits.compressedBytes len with
  | .ok _ => return ()
  | .error e => fail (.error e state)

/-- The inflate loop of `read_basic_data`: state and bytes made, or the error with the state. Every pass
consumes or makes a byte. -/
def inflateData (z : Inflater) (compressed : List UInt8) (dataLen : ℕ) :
    ℕ → z.State → ℕ → List UInt8 → z.State × Except String (List UInt8)
  | 0, state, _, data => (state, .ok data)
  | fuel + 1, state, consumed, data =>
    if data.length < dataLen then
      match z.decompress state (compressed.drop consumed) (dataLen - data.length) with
      | (state, .error e) => (state, .error ("tight: inflate: " ++ e))
      | (state, .ok (used, made)) =>
          if used = 0 ∧ made = [] then (state, .ok data)
          else inflateData z compressed dataLen fuel state (consumed + used) (data ++ made)
    else (state, .ok data)

variable {data : List UInt8}

/-- More fuel changes nothing. -/
theorem inflateData_fuel (z : Inflater) {compressed : List UInt8} {dataLen fuel consumed : ℕ}
    (state : z.State) (hconsumed : consumed ≤ compressed.length)
    (h : (compressed.length - consumed) + (dataLen - data.length) < fuel) (more : ℕ) :
    inflateData z compressed dataLen (fuel + more) state consumed data
      = inflateData z compressed dataLen fuel state consumed data := by
  induction fuel generalizing state consumed data with
  | zero => omega
  | succ fuel ih =>
    rw [Nat.add_right_comm, inflateData, inflateData]
    by_cases hmore : data.length < dataLen
    · rw [if_pos hmore, if_pos hmore]
      have hused := z.used_le state (compressed.drop consumed) (dataLen - data.length)
      generalize z.decompress state (compressed.drop consumed) (dataLen - data.length) = step at hused
      obtain ⟨state', e | ⟨used, made⟩⟩ := step
      · rfl
      · have hused := hused used made rfl
        rw [List.length_drop] at hused
        dsimp only
        by_cases hend : used = 0 ∧ made = []
        · rw [if_pos hend, if_pos hend]
        · have hmade : used = 0 → 0 < made.length := fun hzero =>
            List.length_pos_iff.mpr fun hnil => hend ⟨hzero, hnil⟩
          rw [if_neg hend, if_neg hend, ih state' (by omega) (by rw [List.length_append]; omega)]
    · rw [if_neg hmore, if_neg hmore]

/-- `read_basic_data`: raw when shorter than twelve bytes, otherwise from a stream. -/
def readBasicData (streamId : Fin 4) (dataLen : ℕ) (state : TightState z) :
    RectDecoder (TightState z) (List UInt8 × TightState z) :=
  if dataLen < 12 then do
    let data ← tightBytes ioError dataLen state "raw data"
    return (data, state)
  else do
    let len ← readCompactLength ioError state
    checkCompressed limits len state
    let compressed ← tightBytes ioError len state "zlib data"
    let (stream, made) := inflateData z compressed dataLen (compressed.length + dataLen + 1)
      (state streamId) 0 []
    let state := Function.update state streamId stream
    match made with
    | .error e => fail (.error e state)
    | .ok data =>
        if data.length ≠ dataLen then
          let produced := toString data.length
          fail (.error ("tight: zlib stream " ++ toString streamId.val ++ " produced " ++ produced
            ++ " of " ++ toString dataLen ++ " bytes") state)
        else return (data, state)

/-! ## Filters -/

/-- What the filter needs: its number, the palette, and the bytes of data. -/
structure TightFilter where
  filter : UInt8
  palette : List Rgba
  dataLen : ℕ

/-- The filter of basic compression; without an explicit one it is the copy filter. -/
def readFilterId (compression : UInt8) (state : TightState z) : RectDecoder (TightState z) UInt8 :=
  if compression &&& 0x04 ≠ 0 then tightU8 ioError state "filter id" else pure 0

/-- The filter and its header. -/
def readFilter (width height : ℕ) (compression : UInt8) (state : TightState z) :
    RectDecoder (TightState z) TightFilter := do
  let tpx := tpixelBytes conv
  let filter ← readFilterId ioError compression state
  if filter = 0 then return ⟨filter, [], width * height * tpx⟩
  else if filter = 2 then
    if conv.bytesPerPixel = 1 then
      fail (.error "tight: gradient filter needs a 16 or 32 bpp format" state)
    else return ⟨filter, [], width * height * tpx⟩
  else if filter = 1 then do
    let size ← tightU8 ioError state "palette size"
    let paletteLen := size.toNat + 1
    let raw ← tightBytes ioError (paletteLen * tpx) state "palette"
    -- the chunks of a palette may not be empty
    if tpx = 0 then fail .panic
    else do
      let palette ← ofOption .panic
        ((List.range paletteLen).mapM fun i => tpixel conv ((raw.drop (i * tpx)).take tpx))
      return ⟨filter, palette,
        if paletteLen = 2 then (width + 7) / 8 * height else width * height⟩
  else fail (.error ("tight: unknown filter " ++ toString filter.toNat) state)

/-- Rows of bits, each on fresh bytes. -/
def bitRow (palette : List Rgba) (width : ℕ) (row : List UInt8) : List Rgba :=
  (List.range width).map fun x =>
    palette.getD (((row.getD (x / 8) 0).toNat >>> (7 - x % 8)) &&& 1) ⟨0, 0, 0, 0⟩

def palettePixels (palette : List Rgba) (width height : ℕ) (data : List UInt8) : List Rgba :=
  if palette.length = 2 then
    (List.range height).flatMap fun y => bitRow palette width (data.drop (y * ((width + 7) / 8)))
  else data.map fun index => palette.getD index.toNat ⟨0, 0, 0, 255⟩

/-- The pixels of filtered data; a panic is `none`. -/
def filterPixels (f : TightFilter) (width height : ℕ) (data : List UInt8) : Option (List Rgba) :=
  let tpx := tpixelBytes conv
  if f.filter = 0 then
    if tpx = 3 then some (rgbToRgba data (width * height))
    else conv.convertRow data (width * height)
  else if f.filter = 1 then some (palettePixels f.palette width height data)
  -- a value of no bytes
  else if tpx = 0 ∧ 0 < width * height then none
  else some (applyGradient conv tpx data width height)

/-! ## Rectangles -/

/-- `decode_jpeg`: the pixels, or the error. -/
abbrev JpegDecoder := List UInt8 → ℕ → ℕ → Except String (List PixelWrite)

def jpegRect (jpeg : JpegDecoder) (width height : ℕ) (state : TightState z) :
    RectDecoder (TightState z) (TightState z) := do
  let len ← readCompactLength ioError state
  checkCompressed limits len state
  let data ← tightBytes ioError len state "jpeg data"
  match jpeg data width height with
  | .error e => fail (.error e state)
  | .ok log => do
      write log
      return state

def fillRect (width height : ℕ) (state : TightState z) :
    RectDecoder (TightState z) (TightState z) :=
  if 4 < tpixelBytes conv then fail .panic
  else do
    let src ← tightBytes ioError (tpixelBytes conv) state "fill colour"
    let colour ← ofOption .panic (tpixel conv src)
    write (Tile.spanWrites 0 (List.replicate (width * height) colour))
    return state

def basicRect (width height : ℕ) (compression : UInt8) (state : TightState z) :
    RectDecoder (TightState z) (TightState z) := do
  let f ← readFilter conv ioError width height compression state
  if limits.maxDecompressedRectBytes < f.dataLen then
    fail (.error "tight: decompressed rectangle exceeds configured limit" state)
  else do
    let (data, state) ← readBasicData limits ioError (Fin.ofNat 4 (compression &&& 0x03).toNat)
      f.dataLen state
    let pixels ← ofOption .panic (filterPixels conv f width height data)
    write (Tile.spanWrites 0 pixels)
    return state

/-- The rectangle that the control byte announces. -/
def tightRect (jpeg : JpegDecoder) (width height : ℕ) (state : TightState z) (control : UInt8) :
    RectDecoder (TightState z) (TightState z) :=
  let compression := control >>> 4
  let state := resetStreams z control state
  if compression = 0x08 then fillRect conv ioError width height state
  else if compression = 0x09 then jpegRect limits ioError jpeg width height state
  else if compression &&& 0x08 ≠ 0 then
    fail (.error ("tight: unsupported compression type " ++ toString compression.toNat) state)
  else basicRect limits conv ioError width height compression state

/-- `decode_tight_into`, for a buffer of whole pixels. -/
def decodeTightInto (jpeg : JpegDecoder) (w h : UInt16) (outLen : ℕ) (state : TightState z) :
    RectDecoder (TightState z) (TightState z) :=
  if outLen ≠ w.toNat * h.toNat then
    fail (.error "tight: scratch buffer does not match the rectangle" state)
  else do
    let control ← tightU8 ioError state "compression control"
    tightRect limits conv ioError jpeg w.toNat h.toNat state control

/-! ## What is written -/

theorem confined_tightU8 (state : TightState z) (what : String) :
    Confined ∅ (tightU8 ioError state what) := confined_next _

theorem confined_tightBytes (count : ℕ) (state : TightState z) (what : String) :
    Confined ∅ (tightBytes ioError count state what) := confined_slice _ _

theorem confined_readCompactLength (state : TightState z) :
    Confined ∅ (readCompactLength ioError state) := by
  refine (confined_tightU8 ioError state _).bind fun b0 _ => Confined.ite ?_ (confined_pure _)
  refine (confined_tightU8 ioError state _).bind fun b1 _ => Confined.ite ?_ (confined_pure _)
  exact (confined_tightU8 ioError state _).bind fun _ _ => confined_pure _

theorem confined_checkCompressed (len : ℕ) (state : TightState z) :
    Confined ∅ (checkCompressed limits len state) := by
  rw [checkCompressed]
  split
  · exact confined_pure _
  · exact confined_fail _

theorem confined_readBasicData (streamId : Fin 4) (dataLen : ℕ) (state : TightState z) :
    Confined ∅ (readBasicData limits ioError streamId dataLen state) := by
  refine Confined.ite ?_ ?_
  · exact (confined_tightBytes ioError _ state _).bind fun _ _ => confined_pure _
  · refine (confined_readCompactLength ioError state).bind fun len _ => ?_
    refine (confined_checkCompressed limits len state).bind fun _ _ => ?_
    refine (confined_tightBytes ioError len state _).bind fun compressed _ => ?_
    dsimp only
    split
    · exact confined_fail _
    · exact Confined.ite (confined_fail _) (confined_pure _)

/-- All the data that was asked for. -/
theorem returns_readBasicData {streamId : Fin 4} {dataLen : ℕ} {state : TightState z}
    {data : List UInt8 × TightState z}
    (h : Returns (readBasicData limits ioError streamId dataLen state) data) :
    data.1.length = dataLen := by
  rw [readBasicData] at h
  split at h
  · obtain ⟨raw, hraw, h⟩ := returns_bind h
    rw [returns_pure h]
    exact returns_slice hraw
  · obtain ⟨len, -, h⟩ := returns_bind h
    obtain ⟨-, -, h⟩ := returns_bind h
    obtain ⟨compressed, -, h⟩ := returns_bind h
    dsimp only at h
    split at h
    · exact absurd h not_returns_fail
    · next made hmade =>
      by_cases hlength : made.length ≠ dataLen
      · rw [if_pos hlength] at h
        exact absurd h not_returns_fail
      · rw [if_neg hlength] at h
        rw [returns_pure h]
        exact not_not.mp hlength

theorem confined_readFilterId (compression : UInt8) (state : TightState z) :
    Confined ∅ (readFilterId ioError compression state) :=
  Confined.ite (confined_tightU8 ioError state _) (confined_pure _)

theorem confined_readFilter (width height : ℕ) (compression : UInt8) (state : TightState z) :
    Confined ∅ (readFilter conv ioError width height compression state) := by
  refine (confined_readFilterId ioError compression state).bind fun filter _ => ?_
  refine Confined.ite (confined_pure _) <| Confined.ite (Confined.ite (confined_fail _) (confined_pure _)) ?_
  refine Confined.ite ?_ (confined_fail _)
  refine (confined_tightU8 ioError state _).bind fun size _ => ?_
  refine (confined_tightBytes ioError _ state _).bind fun raw _ => Confined.ite (confined_fail _) ?_
  exact (confined_ofOption _ _).bind fun _ _ => confined_pure _

/-- As much data is asked for as the filter uses. -/
structure TightFilter.Sized (f : TightFilter) (conv : PixelConverter) (width height : ℕ) : Prop where
  copy : f.filter = 0 → f.dataLen = width * height * tpixelBytes conv
  palette : f.filter = 1 → f.palette.length ≠ 2 → f.dataLen = width * height

theorem returns_readFilter {width height : ℕ} {compression : UInt8} {state : TightState z}
    {f : TightFilter} (h : Returns (readFilter conv ioError width height compression state) f) :
    f.Sized conv width height := by
  obtain ⟨filter, -, h⟩ := returns_bind h
  dsimp only at h
  split at h
  · next hcopy =>
    rw [returns_pure h]
    exact ⟨fun _ => rfl, fun hpalette => absurd (hcopy.symm.trans hpalette) (by decide)⟩
  split at h
  · next hgradient =>
    split at h
    · exact absurd h not_returns_fail
    · rw [returns_pure h]
      exact ⟨fun _ => rfl, fun hpalette => absurd (hgradient.symm.trans hpalette) (by decide)⟩
  split at h
  · next hcopy _ _ =>
    obtain ⟨size, -, h⟩ := returns_bind h
    obtain ⟨raw, -, h⟩ := returns_bind h
    split at h
    · exact absurd h not_returns_fail
    · obtain ⟨palette, hpalette, h⟩ := returns_bind h
      have hlength := length_mapM (returns_ofOption hpalette)
      rw [List.length_range] at hlength
      rw [returns_pure h]
      refine ⟨fun hfilter => absurd hfilter hcopy, fun _ hsize => ?_⟩
      exact if_neg (hlength ▸ hsize)
  · exact absurd h not_returns_fail

theorem length_palettePixels {palette : List Rgba} {width height : ℕ}
    (h : palette.length ≠ 2 → data.length = width * height) :
    (palettePixels palette width height data).length = width * height := by
  rw [palettePixels]
  split
  · have hrow : ∀ row, (bitRow palette width row).length = width := fun row => by
      rw [bitRow, List.length_map, List.length_range]
    rw [List.length_flatMap]
    simp only [hrow, List.map_const', List.length_range, List.sum_replicate_nat]
    exact Nat.mul_comm _ _
  · next hsize => rw [List.length_map, h hsize]

/-- Filtered data makes every pixel of the rectangle. -/
theorem length_filterPixels {f : TightFilter} {width height : ℕ}
    {pixels : List Rgba} (hf : f.Sized conv width height) (hdata : data.length = f.dataLen)
    (h : filterPixels conv f width height data = some pixels) : pixels.length = width * height := by
  rw [filterPixels] at h
  split at h
  · next hcopy =>
    split at h
    · rw [← Option.some.inj h, rgbToRgba, List.length_map, List.length_range]
    · next htpx =>
      refine length_convertRow ?_ h
      rw [hdata, hf.copy hcopy, tpixelBytes]
      rw [tpixelBytes] at htpx
      split
      · next hrgb => exact absurd (if_pos hrgb) htpx
      · rfl
  split at h
  · next hpalette =>
    rw [← Option.some.inj h]
    exact length_palettePixels fun hsize => hdata.trans (hf.palette hpalette hsize)
  · split at h
    · cases h
    · rw [← Option.some.inj h, length_applyGradient]

/-- The indices of a whole rectangle. -/
theorem mem_rect_iff {n i : ℕ} {pixels : List Rgba} (h : pixels.length = n) :
    i ∈ {i | i < n} ↔ ∃ w ∈ Tile.spanWrites 0 pixels, w.1 = i := by
  rw [Tile.exists_mem_spanWrites, h, Nat.zero_add, and_iff_right (Nat.zero_le i)]
  rfl

theorem fillRect_paints (width height : ℕ) (state : TightState z) :
    Paints {i | i < width * height} (fillRect conv ioError width height state) := by
  refine Paints.ite (fun _ => paints_fail _) fun _ => ?_
  refine Paints.of_reads (confined_tightBytes ioError _ state _) fun src _ => ?_
  refine Paints.of_reads (confined_ofOption _ _) fun colour _ => ?_
  exact (paints_write fun _ => mem_rect_iff List.length_replicate).then_confined fun _ _ => confined_pure _

theorem basicRect_paints (width height : ℕ) (compression : UInt8) (state : TightState z) :
    Paints {i | i < width * height} (basicRect limits conv ioError width height compression state) := by
  refine Paints.of_reads (confined_readFilter conv ioError width height compression state) fun f hf => ?_
  refine Paints.ite (fun _ => paints_fail _) fun _ => ?_
  refine Paints.of_reads (confined_readBasicData limits ioError _ _ state) ?_
  rintro ⟨data, state'⟩ hdata
  have hlength := returns_readBasicData limits ioError hdata
  refine Paints.of_reads (confined_ofOption _ _) fun pixels hpixels => ?_
  have hpixels := length_filterPixels conv (returns_readFilter conv ioError hf) hlength
    (returns_ofOption hpixels)
  exact (paints_write fun _ => mem_rect_iff hpixels).then_confined fun _ _ => confined_pure _

theorem tightRect_paints (jpeg : JpegDecoder) (width height : ℕ) (state : TightState z)
    {control : UInt8} (hjpeg : control >>> 4 ≠ 0x09) :
    Paints {i | i < width * height} (tightRect limits conv ioError jpeg width height state control) := by
  refine Paints.ite (fun _ => fillRect_paints conv ioError width height _) fun _ => ?_
  refine Paints.ite (fun h => absurd h hjpeg) fun _ => Paints.ite (fun _ => paints_fail _) fun _ => ?_
  exact basicRect_paints limits conv ioError width height _ _

end Tight

/-!
# Scratch buffers

Reference: `src-tauri/src/vnc/encodings/hextile.rs`, `src-tauri/src/vnc/encodings/zrle.rs` and
`src-tauri/src/vnc/tight.rs`.

The buffer a rectangle is decoded into is reused from rectangle to rectangle. A decoder that succeeds
has written every pixel of it, and none writes outside of it.
-/

/-! ## Hextile and Tight -/

section Rectangles

variable {σ : Type} {m : RectDecoder σ σ} {n : ℕ}

/-- What was in the buffer does not matter to a decoder that paints all of it. -/
theorem paint_eq_of_paints {out out' : List Rgba} (h : Paints {i | i < out.length} m)
    {input : List UInt8} {pos : ℕ} {state : σ} (hok : (m input pos).result = .ok state)
    (hlength : out'.length = out.length) : paint out' (m input pos).log = paint out (m input pos).log :=
  (paint_eq_of_covers hlength.symm fun i hi => h.covers input pos state hok i hi).symm

theorem decodeHextileInto_paints (conv : PixelConverter) (ioError : String) (w h : UInt16)
    (outLen : ℕ) (state : HextileState) :
    Paints {i | i < outLen} (decodeHextileInto conv ioError w h outLen state) := by
  by_cases hsize : outLen = w.toNat * h.toNat
  · have hcheck : (checkScratch outLen w h state : RectDecoder HextileState Unit) = pure () :=
      if_neg (not_not.mpr hsize)
    have htiles := hextileTiles_paints conv ioError w.toNat (gridTiles 16 w.toNat h.toNat) state
    rw [iUnion_region (by decide), ← hsize] at htiles
    refine Paints.of_reads ?_ fun _ _ => htiles
    rw [hcheck]
    exact confined_pure _
  · have hcheck : (checkScratch outLen w h state : RectDecoder HextileState Unit)
        = fail (.error "decoder scratch buffer does not match the rectangle" state) := if_pos hsize
    refine Paints.of_reads ?_ fun _ hreturns => ?_
    · rw [hcheck]
      exact confined_fail _
    · rw [hcheck] at hreturns
      exact absurd hreturns not_returns_fail

variable {z : Inflater} (limits : RectLimits) (conv : PixelConverter) (ioError : String)
  (jpeg : JpegDecoder) (w h : UInt16) {outLen : ℕ} {state : TightState z} {input : List UInt8} {pos : ℕ}

/-- Unless it is a JPEG rectangle, a Tight rectangle is what its control byte announces, or nothing. -/
theorem decodeTightInto_cases (hjpeg : ∀ control, input[pos]? = some control → control >>> 4 ≠ 0x09) :
    (∃ m, Paints {i | i < outLen} m ∧
      (decodeTightInto limits conv ioError jpeg w h outLen state input pos).log = (m input (pos + 1)).log ∧
      (decodeTightInto limits conv ioError jpeg w h outLen state input pos).result
        = (m input (pos + 1)).result) ∨
    (decodeTightInto limits conv ioError jpeg w h outLen state input pos).log = [] ∧
      ∃ e, (decodeTightInto limits conv ioError jpeg w h outLen state input pos).result = .error e := by
  rw [decodeTightInto]
  by_cases hsize : outLen = w.toNat * h.toNat
  · rw [if_neg (not_not.mpr hsize)]
    cases hcontrol : input[pos]? with
    | none =>
      right
      obtain ⟨e, hshort⟩ : ∃ e,
          (tightU8 ioError state "compression control" : RectDecoder (TightState z) UInt8) input pos
            = ⟨.error e, pos, []⟩ := ⟨_, by rw [tightU8, next, hcontrol]⟩
      rw [bind_of_error _ (by rw [hshort]), hshort]
      exact ⟨rfl, _, rfl⟩
    | some control =>
      left
      have hread : (tightU8 ioError state "compression control" : RectDecoder (TightState z) UInt8)
          input pos = ⟨.ok control, pos + 1, []⟩ := by
        rw [tightU8, next, hcontrol]
      rw [bind_of_ok _ (by rw [hread]), hread, hsize]
      exact ⟨_, tightRect_paints limits conv ioError jpeg _ _ state (hjpeg control hcontrol), rfl, rfl⟩
  · rw [if_pos hsize]
    exact .inr ⟨rfl, _, rfl⟩

end Rectangles

/-! ## ZRLE -/

section Zrle

variable (conv : PixelConverter) (stride : ℕ) (stream : List UInt8)

/-- The tile loop makes the same writes in every buffer. -/
theorem exists_log_decodeTiles (l : List Tile) (hl : ∀ tile ∈ l, 0 < tile.w) (pos : ℕ) :
    ∃ verdict pos' log, (∀ out, decodeTiles conv stride stream l pos out = (verdict, pos', paint out log)) ∧
      (verdict = .ok () → ∀ i ∈ ⋃ tile ∈ l, tile.region stride, ∃ x ∈ log, x.1 = i) := by
  induction l generalizing pos with
  | nil =>
    refine ⟨.ok (), pos, [], fun out => rfl, fun _ i hi => ?_⟩
    rw [iUnion_nil] at hi
    exact absurd hi (Set.notMem_empty i)
  | cons tile l ih =>
    obtain ⟨htile, hl⟩ := List.forall_mem_cons.mp hl
    cases hresult : (tileDecoder conv stride tile stream pos).result with
    | error e =>
      refine ⟨.error e, (tileDecoder conv stride tile stream pos).pos,
        (tileDecoder conv stride tile stream pos).log, fun out => ?_, nofun⟩
      rw [decodeTiles_of_error (show (zrleDecodeTile conv stride tile stream pos out).1 = .error e from
        hresult), zrleDecodeTile, hresult]
    | ok =>
      obtain ⟨verdict, pos', log, hlog, hcovers⟩ := ih hl (tileDecoder conv stride tile stream pos).pos
      refine ⟨verdict, pos', (tileDecoder conv stride tile stream pos).log ++ log, fun out => ?_,
        fun hok i hi => ?_⟩
      · rw [decodeTiles_of_ok (show (zrleDecodeTile conv stride tile stream pos out).1 = .ok () from
          hresult), paint_append]
        exact hlog _
      · rw [iUnion_cons] at hi
        rcases hi with hi | hi
        · obtain ⟨x, hx, hxi⟩ :=
            (tileDecoder_paints conv stride tile htile).covers stream pos () hresult i hi
          exact ⟨x, List.mem_append_left _ hx, hxi⟩
        · obtain ⟨x, hx, hxi⟩ := hcovers hok i hi
          exact ⟨x, List.mem_append_right _ hx, hxi⟩

/-- The tile loop leaves nothing of the old contents. -/
theorem decodeTiles_independent {rectW rectH pos : ℕ} {out out' : List Rgba}
    (hout : out.length = rectW * rectH) (hlength : out'.length = out.length)
    (hok : (decodeTiles conv rectW stream (tiles rectW rectH) pos out).1 = .ok ()) :
    decodeTiles conv rectW stream (tiles rectW rectH) pos out'
      = decodeTiles conv rectW stream (tiles rectW rectH) pos out := by
  rw [tiles_eq_gridTiles] at hok ⊢
  obtain ⟨verdict, pos', log, hlog, hcovers⟩ := exists_log_decodeTiles conv rectW stream
    (gridTiles 64 rectW rectH) (fun tile htile => (tile_of_mem (by decide) htile).1) pos
  rw [hlog] at hok
  rw [iUnion_region (by decide)] at hcovers
  rw [hlog, hlog, paint_eq_of_covers hlength]
  exact fun i hi => hcovers hok i (hout ▸ hlength ▸ hi)

/-- A tile of the rectangle stays in it. -/
theorem confined_of_tiles {rectW rectH : ℕ} {tile : Tile} (h : tile ∈ tiles rectW rectH) :
    Confined {i | i < rectW * rectH} (tileDecoder conv rectW tile) := by
  rw [tiles_eq_gridTiles] at h
  have hpaints := tileDecoder_paints conv rectW tile (tile_of_mem (by decide) h).1
  refine hpaints.confined.mono ?_
  rw [← iUnion_region (show 0 < 64 by decide) rectW rectH]
  exact Set.subset_biUnion_of_mem (u := fun tile : Tile => tile.region rectW) h

/-- So does the overlapped loop, whatever its schedule. -/
theorem pipelined_independent {rectW rectH : ℕ} {out out' : List Rgba}
    (hout : out.length = rectW * rectH) (hlength : out'.length = out.length)
    (schedule schedule' : Schedule stream.length) {t t' : ℕ}
    (hok : (decodeZrlePipelined conv stream rectW rectH schedule out t).phase = .returned (.ok ()))
    (hok' : (decodeZrlePipelined conv stream rectW rectH schedule' out' t').phase = .returned (.ok ())) :
    (decodeZrlePipelined conv stream rectW rectH schedule' out' t').out
      = (decodeZrlePipelined conv stream rectW rectH schedule out t).out := by
  have hsame : SameOutcome
      ((decodeZrlePipelined conv stream rectW rectH schedule out t).outcome conv rectW stream) _ :=
    outcome_decodeZrlePipelined rectW rectH schedule out t
  have hsame' : SameOutcome
      ((decodeZrlePipelined conv stream rectW rectH schedule' out' t').outcome conv rectW stream) _ :=
    outcome_decodeZrlePipelined rectW rectH schedule' out' t'
  rw [Consumer.outcome, hok] at hsame
  rw [Consumer.outcome, hok'] at hsame'
  have hsequential := decodeTiles_independent conv stream hout hlength hsame.1.symm
  calc (decodeZrlePipelined conv stream rectW rectH schedule' out' t').out
      = (decodeTiles conv rectW stream (tiles rectW rectH) 0 out').2.2 := hsame'.2.2 rfl
    _ = (decodeTiles conv rectW stream (tiles rectW rectH) 0 out).2.2 := by rw [hsequential]
    _ = (decodeZrlePipelined conv stream rectW rectH schedule out t).out := (hsame.2.2 rfl).symm

end Zrle

/-! ## No stale pixels -/

/-- Hextile rectangles, ZRLE tiles decoded one after another or overlapped with inflating, and Tight
rectangles other than JPEG: no write is outside of the buffer, and success leaves contents that do not
depend on the old ones. -/
theorem no_stale_pixels (conv : PixelConverter) (w h : UInt16) (out : List Rgba) :
    (∀ ioError state input pos, let d := decodeHextileInto conv ioError w h out.length state input pos
      (∀ x ∈ d.log, x.1 < out.length) ∧ ∀ state', d.result = .ok state' →
        ∀ out', out'.length = out.length → paint out' d.log = paint out d.log) ∧
    (∀ (z : Inflater) limits ioError jpeg (state : TightState z) input pos,
      (∀ control : UInt8, input[pos]? = some control → control >>> 4 ≠ 0x09) →
      let d := decodeTightInto limits conv ioError jpeg w h out.length state input pos
      (∀ x ∈ d.log, x.1 < out.length) ∧ ∀ state', d.result = .ok state' →
        ∀ out', out'.length = out.length → paint out' d.log = paint out d.log) ∧
    (out.length = w.toNat * h.toNat → ∀ stream : List UInt8,
      (∀ tile ∈ tiles w.toNat h.toNat, ∀ pos,
        ∀ x ∈ (tileDecoder conv w.toNat tile stream pos).log, x.1 < out.length) ∧
      ∀ out', out'.length = out.length →
        (∀ pos, (decodeTiles conv w.toNat stream (tiles w.toNat h.toNat) pos out).1 = .ok () →
          decodeTiles conv w.toNat stream (tiles w.toNat h.toNat) pos out'
            = decodeTiles conv w.toNat stream (tiles w.toNat h.toNat) pos out) ∧
        ∀ (schedule schedule' : Schedule stream.length) t t',
          let c := decodeZrlePipelined conv stream w.toNat h.toNat schedule out t
          let c' := decodeZrlePipelined conv stream w.toNat h.toNat schedule' out' t'
          c.phase = .returned (.ok ()) → c'.phase = .returned (.ok ()) → c'.out = c.out) := by
  refine ⟨fun ioError state input pos => ?_, ?_, fun hout stream => ⟨?_, ?_⟩⟩
  · have hpaints := decodeHextileInto_paints conv ioError w h out.length state
    exact ⟨hpaints.confined input pos, fun state' hok out' => paint_eq_of_paints hpaints hok⟩
  · intro z limits ioError jpeg state input pos hjpeg
    dsimp only
    rcases decodeTightInto_cases limits conv ioError jpeg w h hjpeg with
      ⟨m, hpaints, hlog, hresult⟩ | ⟨hlog, e, hresult⟩
    · rw [hlog, hresult]
      exact ⟨hpaints.confined input (pos + 1), fun state' hok out' => paint_eq_of_paints hpaints hok⟩
    · rw [hlog, hresult]
      exact ⟨fun x hx => absurd hx List.not_mem_nil, nofun⟩
  · intro tile htile pos x hx
    rw [hout]
    exact confined_of_tiles conv htile stream pos x hx
  · intro out' hlength
    refine ⟨fun pos hok => decodeTiles_independent conv stream hout hlength hok, ?_⟩
    intro schedule schedule' t t' c c' hok hok'
    exact pipelined_independent conv stream hout hlength schedule schedule' hok hok'

/-- A run of two red pixels over two different contents. -/
theorem no_stale_pixels_run :
    decodeTiles ⟨.rgb888⟩ 2 [128, 255, 0, 0, 1] (tiles 2 1) 0 (List.replicate 2 ⟨1, 2, 3, 4⟩)
      = (.ok (), 5, [⟨255, 0, 0, 255⟩, ⟨255, 0, 0, 255⟩]) :=
  ((((no_stale_pixels ⟨.rgb888⟩ 2 1 (List.replicate 2 ⟨9, 9, 9, 9⟩)).2.2 rfl
    [128, 255, 0, 0, 1]).2 (List.replicate 2 ⟨1, 2, 3, 4⟩) rfl).1 0 (by decide)).trans (by decide)

end Taomni.Vnc
