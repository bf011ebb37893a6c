import Taomni.Common.Decoder
import Taomni.Vnc.PixelFormat

/-!
# ZRLE tiles

Reference: `src-tauri/src/vnc/encodings/zrle.rs`.

`zrleDecodeTile` reads an inflated stream from a position and paints one tile of the rectangle. The
output is never read, so the tile decoder is a `Decoder` that logs its pixel writes; they are made on
the output in that order. A tile that ends before its stream does fails with an `eof` error, and every
tile decoder is safe to start on a prefix of the stream (`tileDecoder_prefixSafe`).
-/

namespace Taomni.Vnc

open Decoder

/-- One pixel of the output, by index, and its new value. -/
abbrev PixelWrite := ℕ × Rgba

abbrev TileDecoder := Decoder UInt8 String PixelWrite

/-- The tile of size `w × h` at `(x, y)` of the rectangle. -/
structure Tile where
  x : ℕ
  y : ℕ
  w : ℕ
  h : ℕ
deriving DecidableEq, Repr

namespace Tile

def pixelCount (tile : Tile) : ℕ := tile.w * tile.h

/-- The output index of the first pixel of a row of the tile. -/
def rowStart (tile : Tile) (stride row : ℕ) : ℕ := (tile.y + row) * stride + tile.x

/-- The writes of consecutive pixels. -/
def spanWrites (start : ℕ) (colours : List Rgba) : List PixelWrite :=
  colours.zipIdx.map fun c => (start + c.2, c.1)

/-- `fill_block`. -/
def fillBlock (tile : Tile) (stride : ℕ) (colour : Rgba) : List PixelWrite :=
  (List.range tile.h).flatMap fun row =>
    spanWrites (tile.rowStart stride row) (List.replicate tile.w colour)

end Tile

/-- An error that more bytes may cure. -/
def isEof (error : String) : Prop := "zrle: eof".toList <+: error.toList

instance (error : String) : Decidable (isEof error) :=
  inferInstanceAs (Decidable ("zrle: eof".toList <+: error.toList))

section Pixels

variable (conv : PixelConverter)

def readCpixel : TileDecoder Rgba := do
  let src ← Decoder.slice conv.cpixelBytes "zrle: eof cpixel"
  return conv.cpixel src

def readPalette : ℕ → TileDecoder (List Rgba)
  | 0 => return []
  | size + 1 => do
    let colour ← readCpixel conv
    let palette ← readPalette size
    return colour :: palette

/-- Colours that the palette lacks are black. -/
def paletteColour (palette : List Rgba) (idx : ℕ) : Rgba := palette.getD idx ⟨0, 0, 0, 255⟩

/-- Bytes of 255 accumulate, the first byte below ends the length. -/
def runLength : List UInt8 → ℕ → ℕ → Decoded String PixelWrite ℕ
  | [], pos, _ => ⟨.error "zrle: eof run length", pos, []⟩
  | b :: rest, pos, total =>
    if b ≠ 255 then ⟨.ok (total + b.toNat), pos + 1, []⟩
    else runLength rest (pos + 1) (total + b.toNat)

def readZrleRunLength : TileDecoder ℕ := fun input pos => runLength (input.drop pos) pos 1

end Pixels

section Subencodings

variable (conv : PixelConverter) (stride : ℕ) (tile : Tile)

/-! ## Raw tiles -/

def rawRow (src : List UInt8) : List Rgba :=
  if conv.isNative then rgbToRgba src tile.w
  else (List.range tile.w).map fun col =>
    conv.cpixel ((src.drop (col * conv.cpixelBytes)).take conv.cpixelBytes)

def rawTile : TileDecoder Unit := do
  let src ← Decoder.slice (tile.pixelCount * conv.cpixelBytes) "zrle: eof cpixel"
  write <| (List.range tile.h).flatMap fun row =>
    Tile.spanWrites (tile.rowStart stride row)
      (rawRow conv tile (src.drop (row * tile.w * conv.cpixelBytes)))

def solidTile : TileDecoder Unit := do
  let colour ← readCpixel conv
  write (tile.fillBlock stride colour)

/-! ## Packed palettes -/

/-- Bits per pixel of a palette of that size. -/
def packedBits (paletteSize : ℕ) : ℕ :=
  if paletteSize = 2 then 1 else if paletteSize ≤ 4 then 2 else 4

def packedRow (palette : List Rgba) (bpp : ℕ) (packed : List UInt8) : List Rgba :=
  (List.range tile.w).map fun col =>
    let byte := packed.getD (col / (8 / bpp)) 0
    let shift := 8 - (col % (8 / bpp) + 1) * bpp
    paletteColour palette ((byte.toNat >>> shift) &&& ((1 <<< bpp) - 1))

/-- Each row starts on a fresh byte. -/
def packedTile (paletteSize : ℕ) : TileDecoder Unit := do
  let palette ← readPalette conv paletteSize
  let bpp := packedBits paletteSize
  forM (List.range tile.h) fun row => do
    let packed ← Decoder.slice ((tile.w + (8 / bpp - 1)) / (8 / bpp)) "zrle: eof packed"
    write (Tile.spanWrites (tile.rowStart stride row) (packedRow tile palette bpp packed))

/-! ## Run-length encoding -/

/-- Colour and length of a run, plain over CPIXELs or through the palette. The native shortcut of the
plain case reads the three bytes of `readCpixel`. -/
def readRun (plain : Bool) (palette : List Rgba) : TileDecoder (Rgba × ℕ) :=
  if plain then do
    let colour ← readCpixel conv
    let run ← readZrleRunLength
    return (colour, run)
  else do
    let idxByte ← next "zrle: eof paletteRLE idx"
    let colour := paletteColour palette (idxByte &&& 0x7F).toNat
    if idxByte &&& 0x80 ≠ 0 then do
      let run ← readZrleRunLength
      return (colour, run)
    else return (colour, 1)

/-- The inner loop that paints a run row by row: the writes, and row and column after it. Every pass
takes at least a pixel. -/
def fillRun (colour : Rgba) : ℕ → ℕ → ℕ → ℕ → List PixelWrite × ℕ × ℕ
  | 0, _, row, col => ([], row, col)
  | fuel + 1, take, row, col =>
    if 0 < take then
      let span := min take (tile.w - col)
      let writes := Tile.spanWrites (tile.rowStart stride row + col) (List.replicate span colour)
      let after :=
        if col + span = tile.w then fillRun colour fuel (take - span) (row + 1) 0
        else fillRun colour fuel (take - span) row (col + span)
      (writes ++ after.1, after.2)
    else ([], row, col)

/-- The loop over runs. Every pass fills at least a pixel. -/
def rleRuns (plain : Bool) (palette : List Rgba) : ℕ → ℕ → ℕ → ℕ → TileDecoder Unit
  | 0, _, _, _ => return
  | fuel + 1, filled, row, col =>
    if filled < tile.pixelCount then do
      let (colour, runLen) ← readRun conv plain palette
      let take := min runLen (tile.pixelCount - filled)
      let painted := fillRun stride tile colour take take row col
      write painted.1
      rleRuns plain palette fuel (filled + take) painted.2.1 painted.2.2
    else return

def rleTile (subenc : ℕ) : TileDecoder Unit := do
  let palette ← readPalette conv (subenc - 128)
  rleRuns conv stride tile (subenc = 128) palette tile.pixelCount 0 0 0

def tileDecoder : TileDecoder Unit := do
  let subenc ← next "zrle: eof subenc"
  if subenc = 0 then rawTile conv stride tile
  else if subenc = 1 then solidTile conv stride tile
  else if 2 ≤ subenc ∧ subenc ≤ 16 then packedTile conv stride tile subenc.toNat
  else if subenc = 128 ∨ 130 ≤ subenc then rleTile conv stride tile subenc.toNat
  else fail ("zrle: unsupported subencoding " ++ toString subenc.toNat)

/-- Verdict, position and output after one tile. -/
def zrleDecodeTile (buf : List UInt8) (pos : ℕ) (out : List Rgba) :
    Except String Unit × ℕ × List Rgba :=
  ((tileDecoder conv stride tile buf pos).result, (tileDecoder conv stride tile buf pos).pos,
    paint out (tileDecoder conv stride tile buf pos).log)

end Subencodings

/-! ## The loops have enough fuel -/

theorem fillRun_fuel (stride : ℕ) (tile : Tile) (colour : Rgba) {fuel take col : ℕ} (row : ℕ)
    (hcol : col < tile.w) (h : take ≤ fuel) (more : ℕ) :
    fillRun stride tile colour (fuel + more) take row col =
      fillRun stride tile colour fuel take row col := by
  induction fuel generalizing take row col with
  | zero =>
    cases more with
    | zero => rfl
    | succ more => rw [Nat.zero_add, fillRun, fillRun, if_neg (by omega)]
  | succ fuel ih =>
    rw [Nat.add_right_comm, fillRun, fillRun]
    by_cases htake : 0 < take
    · have hspan : 0 < min take (tile.w - col) := by omega
      rw [if_pos htake, if_pos htake]
      dsimp only
      by_cases hend : col + min take (tile.w - col) = tile.w
      · rw [if_pos hend, if_pos hend, ih (row + 1) (Nat.zero_lt_of_lt hcol) (by omega)]
      · rw [if_neg hend, if_neg hend, ih row (by omega) (by omega)]
    · rw [if_neg htake, if_neg htake]

private theorem le_of_runLength_eq_ok {l : List UInt8} {pos total run : ℕ}
    (h : (runLength l pos total).result = .ok run) : total ≤ run := by
  induction l generalizing pos total with
  | nil => cases h
  | cons b l ih =>
    rw [runLength] at h
    split at h
    · cases h
      omega
    · exact Nat.le_trans (by omega) (ih h)

/-- A run is not empty. -/
theorem one_le_of_readRun {conv : PixelConverter} {plain : Bool} {palette : List Rgba}
    {input : List UInt8} {pos : ℕ} {run : Rgba × ℕ}
    (h : (readRun conv plain palette input pos).result = .ok run) : 1 ≤ run.2 := by
  rw [readRun] at h
  split at h
  · obtain ⟨colour, -, h⟩ := bind_result_eq_ok h
    obtain ⟨length, hlength, h⟩ := bind_result_eq_ok h
    cases h
    exact le_of_runLength_eq_ok hlength
  · obtain ⟨idxByte, -, h⟩ := bind_result_eq_ok h
    dsimp only at h
    split at h
    · obtain ⟨length, hlength, h⟩ := bind_result_eq_ok h
      cases h
      exact le_of_runLength_eq_ok hlength
    · cases h
      exact Nat.le_refl 1

theorem rleRuns_fuel (conv : PixelConverter) (stride : ℕ) (tile : Tile) (plain : Bool)
    (palette : List Rgba) {fuel filled : ℕ} (row col : ℕ) (h : tile.pixelCount ≤ filled + fuel)
    (more : ℕ) : rleRuns conv stride tile plain palette (fuel + more) filled row col =
      rleRuns conv stride tile plain palette fuel filled row col := by
  induction fuel generalizing filled row col with
  | zero =>
    cases more with
    | zero => rfl
    | succ more => rw [Nat.zero_add, rleRuns, rleRuns, if_neg (by omega)]
  | succ fuel ih =>
    rw [Nat.add_right_comm, rleRuns, rleRuns]
    by_cases hfilled : filled < tile.pixelCount
    · rw [if_pos hfilled, if_pos hfilled]
      refine bind_congr fun input pos run hrun => ?_
      have hlength := one_le_of_readRun hrun
      dsimp only
      rw [ih _ _ (by omega)]
    · rw [if_neg hfilled, if_neg hfilled]

/-! ## Tiles may start early -/

theorem isEof_append (rest : String) : isEof ("zrle: eof" ++ rest) := by
  rw [isEof, String.toList_append]
  exact List.prefix_append _ _

private theorem prefixSafe_runLength : PrefixSafe isEof readZrleRunLength := by
  rintro available _ ⟨rest, rfl⟩ pos
  rw [readZrleRunLength, readZrleRunLength, List.drop_append]
  generalize available.drop pos = l, rest.drop (pos - available.length) = more, 1 = total
  induction l generalizing pos total with
  | nil => exact .inr ⟨_, rfl, isEof_append " run length", List.nil_prefix⟩
  | cons b l ih =>
    rw [List.cons_append, runLength, runLength]
    split
    · exact .inl rfl
    · exact ih (pos + 1) (total + b.toNat)

section PrefixSafe

variable (conv : PixelConverter) (stride : ℕ) (tile : Tile)

private theorem prefixSafe_readCpixel : PrefixSafe isEof (readCpixel conv) :=
  (prefixSafe_slice _ (isEof_append " cpixel")).bind fun _ => prefixSafe_pure _

private theorem prefixSafe_readPalette (size : ℕ) : PrefixSafe isEof (readPalette conv size) := by
  induction size with
  | zero => exact prefixSafe_pure []
  | succ size ih =>
    exact (prefixSafe_readCpixel conv).bind fun _ => ih.bind fun _ => prefixSafe_pure _

private theorem prefixSafe_readRun (plain : Bool) (palette : List Rgba) :
    PrefixSafe isEof (readRun conv plain palette) := by
  refine PrefixSafe.ite ?_ ?_
  · exact (prefixSafe_readCpixel conv).bind fun _ =>
      prefixSafe_runLength.bind fun _ => prefixSafe_pure _
  · refine (prefixSafe_next (isEof_append " paletteRLE idx")).bind fun _ => PrefixSafe.ite ?_ ?_
    · exact prefixSafe_runLength.bind fun _ => prefixSafe_pure _
    · exact prefixSafe_pure _

private theorem prefixSafe_rleRuns (plain : Bool) (palette : List Rgba) (fuel filled row col : ℕ) :
    PrefixSafe isEof (rleRuns conv stride tile plain palette fuel filled row col) := by
  induction fuel generalizing filled row col with
  | zero => exact prefixSafe_pure _
  | succ fuel ih =>
    refine PrefixSafe.ite ?_ (prefixSafe_pure _)
    exact (prefixSafe_readRun conv plain palette).bind fun _ =>
      (prefixSafe_write _).bind fun _ => ih _ _ _

/-- Whatever the tile, on a prefix of the stream its decoder does what it does on the whole stream or
fails for want of bytes. -/
theorem tileDecoder_prefixSafe : PrefixSafe isEof (tileDecoder conv stride tile) := by
  refine (prefixSafe_next (isEof_append " subenc")).bind fun subenc => ?_
  refine PrefixSafe.ite ?_ <| PrefixSafe.ite ?_ <| PrefixSafe.ite ?_ <|
    PrefixSafe.ite ?_ (prefixSafe_fail _)
  · exact (prefixSafe_slice _ (isEof_append " cpixel")).bind fun _ => prefixSafe_write _
  · exact (prefixSafe_readCpixel conv).bind fun _ => prefixSafe_write _
  · refine (prefixSafe_readPalette conv _).bind fun _ => PrefixSafe.forM _ fun row _ => ?_
    exact (prefixSafe_slice _ (isEof_append " packed")).bind fun _ => prefixSafe_write _
  · exact (prefixSafe_readPalette conv _).bind fun _ => prefixSafe_rleRuns conv stride tile _ _ _ _ _ _

end PrefixSafe

end Taomni.Vnc
