import Mathlib.Data.Fin.VecNotation
import Mathlib.Data.List.Basic
import Mathlib.Data.UInt

/-!
# Pixel formats

Reference: `src-tauri/src/vnc/pixel.rs`, and `rgb_to_rgba` of `src-tauri/src/vnc/encodings/pixels.rs`.

Shifts take their amount modulo the width, as release builds do. `PixelConverter` looks 8- and 16-bit
values up in a table of `value_to_rgba`; the model computes the entry.
-/

namespace Taomni.Vnc

structure PixelFormat where
  bitsPerPixel : UInt8
  depth : UInt8
  bigEndian : Bool
  redMax : UInt16
  greenMax : UInt16
  blueMax : UInt16
  redShift : UInt8
  greenShift : UInt8
  blueShift : UInt8
deriving DecidableEq, Repr

/-- A framebuffer pixel. -/
structure Rgba where
  r : UInt8
  g : UInt8
  b : UInt8
  a : UInt8
deriving DecidableEq, Repr

namespace PixelFormat

/-- 32 bpp, depth 24, little-endian, R at byte 0: the framebuffer layout. -/
def rgb888 : PixelFormat where
  bitsPerPixel := 32
  depth := 24
  bigEndian := false
  redMax := 255
  greenMax := 255
  blueMax := 255
  redShift := 0
  greenShift := 8
  blueShift := 16

/-- 16 bpp, 65 536 colours. -/
def rgb565 : PixelFormat where
  bitsPerPixel := 16
  depth := 16
  bigEndian := false
  redMax := 31
  greenMax := 63
  blueMax := 31
  redShift := 11
  greenShift := 5
  blueShift := 0

def bytesPerPixel (format : PixelFormat) : ℕ := (format.bitsPerPixel / 8).toNat

def isNativeRgba (format : PixelFormat) : Bool := format = rgb888

def colourBits (format : PixelFormat) : UInt32 :=
  (format.redMax.toUInt32 <<< format.redShift.toUInt32) |||
    (format.greenMax.toUInt32 <<< format.greenShift.toUInt32) |||
    (format.blueMax.toUInt32 <<< format.blueShift.toUInt32)

/-- Three bytes for 32 bpp formats whose colour bits fit in the low or high three bytes, otherwise a
full pixel. -/
def cpixelBytes (format : PixelFormat) : ℕ :=
  if format.bitsPerPixel = 32 ∧ format.depth ≤ 24 ∧
      (format.colourBits &&& 0xFF000000 = 0 ∨ format.colourBits &&& 0x000000FF = 0) then 3
  else format.bytesPerPixel

def scale (value : UInt32) (max : UInt16) : UInt8 :=
  if max = 0 then 0
  else (((if value ≤ max.toUInt32 then value else max.toUInt32) * 255 + max.toUInt32 / 2) /
    max.toUInt32).toUInt8

def valueToRgba (format : PixelFormat) (value : UInt32) : Rgba where
  r := scale ((value >>> format.redShift.toUInt32) &&& format.redMax.toUInt32) format.redMax
  g := scale ((value >>> format.greenShift.toUInt32) &&& format.greenMax.toUInt32) format.greenMax
  b := scale ((value >>> format.blueShift.toUInt32) &&& format.blueMax.toUInt32) format.blueMax
  a := 255

end PixelFormat

/-- The little-endian value of up to four bytes. -/
def littleEndian (src : List UInt8) : UInt32 :=
  src.foldr (fun b value => b.toUInt32 ||| (value <<< 8)) 0

/-- `PixelConverter`: it is determined by its format. -/
structure PixelConverter where
  format : PixelFormat
deriving DecidableEq, Repr

namespace PixelConverter

def isNative (conv : PixelConverter) : Bool := conv.format.isNativeRgba

def cpixelBytes (conv : PixelConverter) : ℕ := conv.format.cpixelBytes

def cpixelHigh (conv : PixelConverter) : Bool := conv.format.colourBits &&& 0x000000FF = 0

/-- The first `count` bytes in the format's byte order. -/
def value (conv : PixelConverter) (count : ℕ) (src : List UInt8) : UInt32 :=
  if conv.format.bigEndian then littleEndian (src.take count).reverse
  else littleEndian (src.take count)

/-- Three bytes as an opaque pixel. -/
def opaqueRgb (src : List UInt8) : Rgba := ⟨src.getD 0 0, src.getD 1 0, src.getD 2 0, 255⟩

/-- Convert one PIXEL. -/
def pixel (conv : PixelConverter) (src : List UInt8) : Rgba :=
  if conv.format.bitsPerPixel = 8 then conv.format.valueToRgba (conv.value 1 src)
  else if conv.format.bitsPerPixel = 16 then conv.format.valueToRgba (conv.value 2 src)
  else if conv.isNative then opaqueRgb src
  else conv.format.valueToRgba (conv.value 4 src)

/-- The bytes `pixel` looks at. -/
def pixelReads (conv : PixelConverter) : ℕ :=
  if conv.format.bitsPerPixel = 8 then 1
  else if conv.format.bitsPerPixel = 16 then 2
  else if conv.isNative then 3
  else 4

/-- Convert one PIXEL; an index beyond its bytes panics. -/
def pixel? (conv : PixelConverter) (src : List UInt8) : Option Rgba :=
  if conv.pixelReads ≤ src.length then some (conv.pixel src) else none

def bytesPerPixel (conv : PixelConverter) : ℕ := conv.format.bytesPerPixel

/-- Convert a run of PIXELs into as many pixels of the output; a panic is `none`. -/
def convertRow (conv : PixelConverter) (src : List UInt8) (pixels : ℕ) : Option (List Rgba) :=
  if conv.isNative then
    if src.length = 4 * pixels then
      some ((List.range pixels).map fun i => opaqueRgb (src.drop (4 * i)))
    else none
  else if conv.bytesPerPixel = 0 then none
  else (List.range (min pixels (src.length / conv.bytesPerPixel))).mapM fun i =>
    conv.pixel? ((src.drop (i * conv.bytesPerPixel)).take conv.bytesPerPixel)

/-- Convert one ZRLE CPIXEL. -/
def cpixel (conv : PixelConverter) (src : List UInt8) : Rgba :=
  if conv.isNative then opaqueRgb src
  else if conv.cpixelBytes ≠ 3 then conv.pixel src
  else if conv.cpixelHigh then conv.format.valueToRgba (conv.value 3 src <<< 8)
  else conv.format.valueToRgba (conv.value 3 src)

end PixelConverter

/-- `rgb_to_rgba`: the overlapping loads take three bytes a pixel and set the fourth. -/
def rgbToRgba (src : List UInt8) (pixels : ℕ) : List Rgba :=
  (List.range pixels).map fun i => PixelConverter.opaqueRgb (src.drop (3 * i))

/-!
# The Tight gradient filter

Reference: `apply_gradient`, `tpixel_bytes` and `tpixel` of `src-tauri/src/vnc/tight.rs`.

A pixel is its three components before they are scaled. The two row buffers are swapped after each row
and written whole, so a row is made from the row above alone.
-/

/-- Red, green and blue. -/
abbrev Components := Fin 3 → UInt32

/-- `R, G, B` bytes for 32 bpp depth-24 formats with 8-bit channels. -/
def PixelFormat.tpixelIsRgb (format : PixelFormat) : Bool :=
  format.bitsPerPixel = 32 ∧ format.depth = 24 ∧ format.redMax = 255 ∧ format.greenMax = 255 ∧
    format.blueMax = 255

/-- `tpixel_bytes`. -/
def tpixelBytes (conv : PixelConverter) : ℕ :=
  if conv.format.tpixelIsRgb then 3 else conv.bytesPerPixel

/-- `tpixel`; an index beyond the bytes panics. -/
def tpixel (conv : PixelConverter) (src : List UInt8) : Option Rgba :=
  if conv.format.tpixelIsRgb then
    if 3 ≤ src.length then some (PixelConverter.opaqueRgb src) else none
  else conv.pixel? src

section Gradient

variable (conv : PixelConverter) (tpx : ℕ)

/-- The largest value of each component. -/
def gradientMaxes : Components :=
  if tpx = 3 then ![255, 255, 255]
  else ![conv.format.redMax.toUInt32, conv.format.greenMax.toUInt32, conv.format.blueMax.toUInt32]

/-- Where each component stands in a value. -/
def gradientShifts : Components :=
  if tpx = 3 then ![0, 8, 16]
  else ![conv.format.redShift.toUInt32, conv.format.greenShift.toUInt32,
    conv.format.blueShift.toUInt32]

/-- `read_value`. -/
def readValue (src : List UInt8) : UInt32 :=
  if tpx = 3 then littleEndian (src.take 3)
  else if tpx = 2 then conv.value 2 src
  else conv.value 4 src

/-- `(left + up - up_left).clamp(0, max)`. -/
def predicted (max left up upLeft : UInt32) : UInt32 :=
  let p : ℤ := (left.toNat : ℤ) + up.toNat - upLeft.toNat
  UInt32.ofNat (if p < 0 then 0 else if (max.toNat : ℤ) < p then max.toNat else p.toNat)

/-- A pixel from the value read and its neighbours. -/
def gradientPixel (value : UInt32) (left up upLeft : Components) : Components := fun c =>
  let max := gradientMaxes conv tpx c
  let diff := (value >>> gradientShifts conv tpx c) &&& max
  (predicted max (left c) (up c) (upLeft c) + diff) &&& max

/-- A row, given the row above. -/
def gradientRow : List UInt32 → List Components → Components → Components → List Components
  | value :: values, up :: above, left, upLeft =>
      let pixel := gradientPixel conv tpx value left up upLeft
      pixel :: gradientRow values above pixel up
  | _, _, _, _ => []

/-- The values of a row. -/
def rowValues (data : List UInt8) (width y : ℕ) : List UInt32 :=
  (List.range width).map fun x => readValue conv tpx ((data.drop ((y * width + x) * tpx)).take tpx)

/-- The rows from one on, given the row above. -/
def gradientRows (data : List UInt8) (width : ℕ) : ℕ → ℕ → List Components → List (List Components)
  | 0, _, _ => []
  | rows + 1, y, previous =>
      let current := gradientRow conv tpx (rowValues conv tpx data width y) previous 0 0
      current :: gradientRows data width rows (y + 1) current

/-- The components as one value of the format. -/
def joinComponents (pixel : Components) : UInt32 :=
  (pixel 0 <<< gradientShifts conv tpx 0) ||| (pixel 1 <<< gradientShifts conv tpx 1) |||
    (pixel 2 <<< gradientShifts conv tpx 2)

def componentsRgba (pixel : Components) : Rgba :=
  if tpx = 3 then ⟨(pixel 0).toUInt8, (pixel 1).toUInt8, (pixel 2).toUInt8, 255⟩
  else conv.format.valueToRgba (joinComponents conv tpx pixel)

/-- `apply_gradient`: the pixels row by row. -/
def applyGradient (data : List UInt8) (width height : ℕ) : List Rgba :=
  (gradientRows conv tpx data width height 0 (List.replicate width 0)).flatten.map
    (componentsRgba conv tpx)

end Gradient

/-! ## Sizes -/

section Sizes

variable {conv : PixelConverter} {tpx : ℕ}

theorem length_gradientRow {values : List UInt32} {above : List Components}
    (h : above.length = values.length) (left upLeft : Components) :
    (gradientRow conv tpx values above left upLeft).length = values.length := by
  induction values generalizing above left upLeft with
  | nil =>
    cases above with
    | nil => rfl
    | cons up above => cases h
  | cons value values ih =>
    cases above with
    | nil => cases h
    | cons up above =>
      rw [gradientRow, List.length_cons, List.length_cons, ih (Nat.succ.inj h)]

variable (data : List UInt8)

theorem length_rowValues (width y : ℕ) : (rowValues conv tpx data width y).length = width := by
  rw [rowValues, List.length_map, List.length_range]

theorem length_gradientRows {width : ℕ} (rows y : ℕ) {previous : List Components}
    (h : previous.length = width) :
    (gradientRows conv tpx data width rows y previous).flatten.length = width * rows := by
  induction rows generalizing y previous with
  | zero => rfl
  | succ rows ih =>
    have hrow : (gradientRow conv tpx (rowValues conv tpx data width y) previous 0 0).length = width := by
      rw [length_gradientRow (by rw [length_rowValues, h]), length_rowValues]
    rw [gradientRows, List.flatten_cons, List.length_append, ih _ hrow, hrow, Nat.mul_succ,
      Nat.add_comm]

theorem length_applyGradient (width height : ℕ) :
    (applyGradient conv tpx data width height).length = width * height := by
  rw [applyGradient, List.length_map, length_gradientRows _ _ _ List.length_replicate]

end Sizes

end Taomni.Vnc
