import Taomni.Common.Fallible
import Taomni.Vnc.ZrlePipeline

/-!
# The pixels of a tile

Reference: the tile loops and `zrle_decode_tile` of `src-tauri/src/vnc/encodings/zrle.rs`.

A tile decoder that succeeds has written every pixel of its tile and none outside of it
(`tileDecoder_paints`), and the tiles of a rectangle are all of its pixels (`iUnion_tileRegion`).
-/

namespace Taomni.Vnc

open List
open Decoder
open Paints (of_reads)

/-! ## Regions -/

variable {colours : List Rgba}

namespace Tile

/-- The output indices of a row of the tile. -/
def rowRegion (tile : Tile) (stride row : ℕ) : Set ℕ :=
  {i | tile.rowStart stride row ≤ i ∧ i < tile.rowStart stride row + tile.w}

/-- The output indices of the tile. -/
def region (tile : Tile) (stride : ℕ) : Set ℕ := {i | ∃ row < tile.h, i ∈ tile.rowRegion stride row}

/-- The output index of the pixel with that number, row by row. -/
def index (tile : Tile) (stride n : ℕ) : ℕ := tile.rowStart stride (n / tile.w) + n % tile.w

/-- The indices of the pixels from one number on. -/
def regionFrom (tile : Tile) (stride filled : ℕ) : Set ℕ :=
  {i | ∃ n, filled ≤ n ∧ n < tile.pixelCount ∧ tile.index stride n = i}

variable {tile : Tile} {stride : ℕ}

theorem exists_mem_spanWrites {start i : ℕ} :
    (∃ w ∈ spanWrites start colours, w.1 = i) ↔ start ≤ i ∧ i < start + colours.length := by
  rw [spanWrites]
  constructor
  · rintro ⟨w, hw, rfl⟩
    obtain ⟨⟨colour, k⟩, hmem, rfl⟩ := mem_map.mp hw
    have hk := mem_zipIdx hmem
    dsimp only at hk ⊢
    omega
  · rintro ⟨hle, hlt⟩
    have hk : i - start < colours.length := by omega
    have hmem : (colours[i - start], i - start) ∈ colours.zipIdx :=
      List.mk_mem_zipIdx_iff_getElem?.mpr (getElem?_eq_getElem hk)
    exact ⟨_, mem_map_of_mem hmem, Nat.add_sub_cancel' hle⟩

theorem exists_mem_rowWrites {row i : ℕ} (h : colours.length = tile.w) :
    (∃ w ∈ spanWrites (tile.rowStart stride row) colours, w.1 = i) ↔ i ∈ tile.rowRegion stride row := by
  rw [exists_mem_spanWrites, h]
  rfl

theorem mem_region_iff_rows {i : ℕ} {rows : ℕ → List Rgba}
    (h : ∀ row < tile.h, (rows row).length = tile.w) :
    i ∈ tile.region stride ↔ ∃ w ∈ (List.range tile.h).flatMap fun row =>
      spanWrites (tile.rowStart stride row) (rows row), w.1 = i := by
  constructor
  · rintro ⟨row, hrow, hi⟩
    obtain ⟨w, hw, hwi⟩ := (exists_mem_rowWrites (h row hrow)).mpr hi
    exact ⟨w, mem_flatMap.mpr ⟨row, mem_range.mpr hrow, hw⟩, hwi⟩
  · rintro ⟨w, hw, hwi⟩
    obtain ⟨row, hrow, hw⟩ := mem_flatMap.mp hw
    have hrow := mem_range.mp hrow
    exact ⟨row, hrow, (exists_mem_rowWrites (h row hrow)).mp ⟨w, hw, hwi⟩⟩

theorem mem_region_iff_fillBlock {i : ℕ} (colour : Rgba) :
    i ∈ tile.region stride ↔ ∃ w ∈ tile.fillBlock stride colour, w.1 = i :=
  mem_region_iff_rows fun _ _ => length_replicate

theorem region_eq_iUnion : tile.region stride = ⋃ row ∈ List.range tile.h, tile.rowRegion stride row := by
  ext i
  simp only [region, Set.mem_ofPred_eq, Set.mem_iUnion, mem_range, exists_prop]

/-- The pixels by number are the pixels row by row. -/
theorem region_eq_regionFrom (hw : 0 < tile.w) : tile.region stride = tile.regionFrom stride 0 := by
  ext i
  constructor
  · rintro ⟨row, hrow, hle, hlt⟩
    have hcol : i - tile.rowStart stride row < tile.w := by omega
    refine ⟨row * tile.w + (i - tile.rowStart stride row), Nat.zero_le _, ?_, ?_⟩
    · have hrows := Nat.mul_le_mul_right tile.w (Nat.succ_le_of_lt hrow)
      rw [Nat.succ_mul] at hrows
      rw [pixelCount, Nat.mul_comm tile.w]
      omega
    · rw [index, Nat.mul_comm row, Nat.mul_add_div hw, Nat.mul_add_mod, Nat.div_eq_of_lt hcol,
        Nat.mod_eq_of_lt hcol, Nat.add_zero]
      omega
  · rintro ⟨n, -, hn, rfl⟩
    have hcol := Nat.mod_lt n hw
    exact ⟨n / tile.w, Nat.div_lt_of_lt_mul hn, Nat.le_add_right _ _, Nat.add_lt_add_left hcol _⟩

theorem regionFrom_eq_empty {filled : ℕ} (h : tile.pixelCount ≤ filled) :
    tile.regionFrom stride filled = ∅ := by
  refine Set.eq_empty_of_forall_notMem ?_
  rintro i ⟨n, hle, hlt, -⟩
  omega

end Tile

/-! ## Runs -/

section Runs

variable {stride : ℕ} {tile : Tile} {colour : Rgba}

/-- The pixel in a row and a column. -/
theorem Tile.index_row (stride : ℕ) {row col : ℕ} (h : col < tile.w) :
    tile.index stride (row * tile.w + col) = tile.rowStart stride row + col := by
  have hw := Nat.zero_lt_of_lt h
  rw [Tile.index, Nat.mul_comm row, Nat.mul_add_div hw, Nat.mul_add_mod, Nat.div_eq_of_lt h,
    Nat.mod_eq_of_lt h, Nat.add_zero]

/-- The pixels of a piece of a row, by number. -/
theorem exists_mem_span {row col span i : ℕ} {colours : List Rgba} (hlength : colours.length = span)
    (hspan : col + span ≤ tile.w) :
    (∃ w ∈ Tile.spanWrites (tile.rowStart stride row + col) colours, w.1 = i) ↔
      ∃ n, row * tile.w + col ≤ n ∧ n < row * tile.w + col + span ∧ tile.index stride n = i := by
  rw [Tile.exists_mem_spanWrites, hlength]
  constructor
  · rintro ⟨hle, hlt⟩
    have hin : i - tile.rowStart stride row < tile.w := by omega
    refine ⟨row * tile.w + (i - tile.rowStart stride row), by omega, by omega, ?_⟩
    rw [Tile.index_row stride hin]
    omega
  · rintro ⟨n, hle, hlt, rfl⟩
    obtain ⟨k, rfl⟩ := Nat.exists_eq_add_of_le (show row * tile.w ≤ n by omega)
    rw [Tile.index_row stride (by omega)]
    omega

/-- A run writes the next pixels by number and stops behind them. -/
theorem fillRun_spec {fuel take row col : ℕ} (hcol : col < tile.w) (h : take ≤ fuel) :
    (∀ i, (∃ w ∈ (fillRun stride tile colour fuel take row col).1, w.1 = i) ↔
      ∃ n, row * tile.w + col ≤ n ∧ n < row * tile.w + col + take ∧ tile.index stride n = i) ∧
    (fillRun stride tile colour fuel take row col).2.1 * tile.w
        + (fillRun stride tile colour fuel take row col).2.2 = row * tile.w + col + take ∧
    (fillRun stride tile colour fuel take row col).2.2 < tile.w := by
  induction fuel generalizing take row col with
  | zero =>
    rw [Nat.le_zero.mp h, fillRun]
    refine ⟨fun i => iff_of_false ?_ ?_, rfl, hcol⟩
    · rintro ⟨w, hw, -⟩
      exact not_mem_nil hw
    · rintro ⟨n, hle, hlt, -⟩
      omega
  | succ fuel ih =>
    rw [fillRun]
    by_cases htake : 0 < take
    · rw [if_pos htake]
      dsimp only
      have hspan := @exists_mem_span stride tile row col (min take (tile.w - col))
      -- the row and the column after the first piece
      obtain ⟨row', col', hafter, hnext, hcol'⟩ : ∃ row' col',
          (if col + min take (tile.w - col) = tile.w then
            fillRun stride tile colour fuel (take - min take (tile.w - col)) (row + 1) 0
          else fillRun stride tile colour fuel (take - min take (tile.w - col)) row
            (col + min take (tile.w - col)))
            = fillRun stride tile colour fuel (take - min take (tile.w - col)) row' col' ∧
          row' * tile.w + col' = row * tile.w + col + min take (tile.w - col) ∧ col' < tile.w := by
        by_cases hend : col + min take (tile.w - col) = tile.w
        · refine ⟨row + 1, 0, if_pos hend, ?_, by omega⟩
          rw [Nat.succ_mul]
          omega
        · exact ⟨row, _, if_neg hend, (Nat.add_assoc _ _ _).symm, by omega⟩
      rw [hafter]
      have hfuel : take - min take (tile.w - col) ≤ fuel := by omega
      obtain ⟨hmem, hend, hlast⟩ := ih hcol' hfuel
      refine ⟨fun i => ?_, by rw [hend, hnext]; omega, hlast⟩
      simp only [mem_append, or_and_right, exists_or]
      rw [hmem, hspan length_replicate (by omega), hnext]
      constructor
      · rintro (⟨n, hle, hlt, hn⟩ | ⟨n, hle, hlt, hn⟩)
        · exact ⟨n, hle, by omega, hn⟩
        · exact ⟨n, by omega, by omega, hn⟩
      · rintro ⟨n, hle, hlt, hn⟩
        by_cases hfirst : n < row * tile.w + col + min take (tile.w - col)
        · exact .inl ⟨n, hle, hfirst, hn⟩
        · exact .inr ⟨n, by omega, by omega, hn⟩
    · have hzero : take = 0 := by omega
      rw [if_neg htake, hzero]
      refine ⟨fun i => iff_of_false ?_ ?_, rfl, hcol⟩
      · rintro ⟨w, hw, -⟩
        exact not_mem_nil hw
      · rintro ⟨n, hle, hlt, -⟩
        omega

end Runs

/-! ## ZRLE tiles -/

section Zrle

variable (conv : PixelConverter) (stride : ℕ) (tile : Tile)

theorem confined_readCpixel : Confined ∅ (readCpixel conv) :=
  (confined_slice _ _).bind fun _ _ => confined_pure _

theorem confined_readPalette (size : ℕ) : Confined ∅ (readPalette conv size) := by
  induction size with
  | zero => exact confined_pure _
  | succ size ih =>
    exact (confined_readCpixel conv).bind fun _ _ => ih.bind fun _ _ => confined_pure _

theorem confined_readZrleRunLength : Confined ∅ readZrleRunLength := by
  have hquiet : ∀ (l : List UInt8) (pos total : ℕ), (runLength l pos total).log = [] := by
    intro l
    induction l with
    | nil => exact fun _ _ => rfl
    | cons b l ih =>
      intro pos total
      rw [runLength]
      split
      · rfl
      · exact ih _ _
  intro input pos w hw
  rw [readZrleRunLength, hquiet] at hw
  exact absurd hw not_mem_nil

theorem confined_readRun (plain : Bool) (palette : List Rgba) : Confined ∅ (readRun conv plain palette) := by
  refine Confined.ite ?_ ?_
  · exact (confined_readCpixel conv).bind fun _ _ =>
      confined_readZrleRunLength.bind fun _ _ => confined_pure _
  · refine (confined_next _).bind fun idxByte _ => Confined.ite ?_ (confined_pure _)
    exact confined_readZrleRunLength.bind fun _ _ => confined_pure _

theorem length_rawRow (src : List UInt8) : (rawRow conv tile src).length = tile.w := by
  rw [rawRow]
  split
  · rw [rgbToRgba, length_map, length_range]
  · rw [length_map, length_range]

theorem length_packedRow (palette : List Rgba) (bpp : ℕ) (packed : List UInt8) :
    (packedRow tile palette bpp packed).length = tile.w := by
  rw [packedRow, length_map, length_range]

theorem rawTile_paints : Paints (tile.region stride) (rawTile conv stride tile) :=
  of_reads (confined_slice _ _) fun _ _ => paints_write fun _ =>
    Tile.mem_region_iff_rows fun _ _ => length_rawRow conv tile _

theorem solidTile_paints : Paints (tile.region stride) (solidTile conv stride tile) :=
  of_reads (confined_readCpixel conv) fun colour _ => paints_write fun _ =>
    Tile.mem_region_iff_fillBlock colour

theorem packedTile_paints (paletteSize : ℕ) :
    Paints (tile.region stride) (packedTile conv stride tile paletteSize) := by
  refine of_reads (confined_readPalette conv paletteSize) fun palette _ => ?_
  rw [Tile.region_eq_iUnion]
  refine Paints.forM _ fun row _ => of_reads (confined_slice _ _) fun packed _ => ?_
  exact paints_write fun _ =>
    (Tile.exists_mem_rowWrites (length_packedRow tile palette _ packed)).symm

/-- The loop over runs paints the pixels that are left. -/
theorem rleRuns_paints (plain : Bool) (palette : List Rgba) {fuel filled row col : ℕ}
    (hfuel : tile.pixelCount ≤ filled + fuel) (hfilled : row * tile.w + col = filled)
    (hcol : col < tile.w) : Paints (tile.regionFrom stride filled)
      (rleRuns conv stride tile plain palette fuel filled row col) := by
  induction fuel generalizing filled row col with
  | zero =>
    rw [Tile.regionFrom_eq_empty (by omega), rleRuns]
    exact (confined_pure _).paints_empty
  | succ fuel ih =>
    rw [rleRuns]
    refine Paints.ite (fun hmore => ?_) fun hdone => ?_
    · refine of_reads (confined_readRun conv plain palette) ?_
      rintro ⟨colour, runLen⟩ ⟨input, pos, hrun⟩
      have hlength := one_le_of_readRun hrun
      dsimp only at hlength ⊢
      have htake : min runLen (tile.pixelCount - filled) ≤ tile.pixelCount - filled :=
        min_le_right _ _
      obtain ⟨hmem, hend, hlast⟩ := @fillRun_spec stride tile colour
        (min runLen (tile.pixelCount - filled)) (min runLen (tile.pixelCount - filled)) row col hcol
        le_rfl
      have hregion : tile.regionFrom stride filled
          = {i | ∃ n, filled ≤ n ∧ n < filled + min runLen (tile.pixelCount - filled) ∧
              tile.index stride n = i}
            ∪ tile.regionFrom stride (filled + min runLen (tile.pixelCount - filled)) := by
        ext i
        constructor
        · rintro ⟨n, hle, hlt, hn⟩
          by_cases hfirst : n < filled + min runLen (tile.pixelCount - filled)
          · exact .inl ⟨n, hle, hfirst, hn⟩
          · exact .inr ⟨n, by omega, hlt, hn⟩
        · rintro (⟨n, hle, hlt, hn⟩ | ⟨n, hle, hlt, hn⟩)
          · exact ⟨n, hle, by omega, hn⟩
          · exact ⟨n, by omega, hlt, hn⟩
      rw [hregion]
      rw [hfilled] at hmem hend
      exact (paints_write fun i => (hmem i).symm).bind fun _ _ => ih (by omega) hend hlast
    · rw [Tile.regionFrom_eq_empty (by omega)]
      exact (confined_pure _).paints_empty

theorem rleTile_paints (subenc : ℕ) (hw : 0 < tile.w) :
    Paints (tile.region stride) (rleTile conv stride tile subenc) := by
  rw [Tile.region_eq_regionFrom hw]
  exact of_reads (confined_readPalette conv _) fun palette _ =>
    rleRuns_paints conv stride tile _ palette (by omega) (by omega) hw

/-- A tile paints its pixels. -/
theorem tileDecoder_paints (hw : 0 < tile.w) :
    Paints (tile.region stride) (tileDecoder conv stride tile) := by
  refine of_reads (confined_next _) fun subenc _ => ?_
  refine Paints.ite (fun _ => rawTile_paints conv stride tile) fun _ => ?_
  refine Paints.ite (fun _ => solidTile_paints conv stride tile) fun _ => ?_
  refine Paints.ite (fun _ => packedTile_paints conv stride tile _) fun _ => ?_
  exact Paints.ite (fun _ => rleTile_paints conv stride tile _ hw) fun _ => paints_fail _

end Zrle

/-! ## The tiles of a rectangle -/

/-- The positions and sizes of a tile loop: `size = min grid (extent - t)`, then `t += size`. -/
def gridSpans (grid extent : ℕ) : ℕ → ℕ → List (ℕ × ℕ)
  | 0, _ => []
  | fuel + 1, t =>
    if t < extent then
      (t, min grid (extent - t)) :: gridSpans grid extent fuel (t + min grid (extent - t))
    else []

/-- The tiles of a grid in the order of the nested loops. -/
@[grind =] def gridTiles (grid rectW rectH : ℕ) : List Tile :=
  (gridSpans grid rectH rectH 0).flatMap fun row =>
    (gridSpans grid rectW rectW 0).map fun col => ⟨col.1, row.1, col.2, row.2⟩

theorem tiles_eq_gridTiles (rectW rectH : ℕ) : tiles rectW rectH = gridTiles 64 rectW rectH := by
  have hspans : ∀ extent fuel t, tileSpans extent fuel t = gridSpans 64 extent fuel t := by
    intro extent fuel
    induction fuel with
    | zero => exact fun _ => rfl
    | succ fuel ih =>
      intro t
      rw [tileSpans, gridSpans, ih]
  rw [tiles, gridTiles, hspans, hspans]

section Grid

variable {grid extent : ℕ} (hgrid : 0 < grid)
include hgrid

theorem span_of_mem {fuel t : ℕ} {span : ℕ × ℕ} (h : span ∈ gridSpans grid extent fuel t) :
    0 < span.2 ∧ span.1 + span.2 ≤ extent := by
  induction fuel generalizing t with
  | zero => exact absurd h not_mem_nil
  | succ fuel ih =>
    rw [gridSpans] at h
    split at h
    · rcases mem_cons.mp h with rfl | h
      · constructor <;> dsimp only <;> omega
      · exact ih h
    · exact absurd h not_mem_nil

/-- The spans leave no gap. -/
theorem exists_span {fuel t x : ℕ} (hfuel : extent ≤ t + fuel) (hle : t ≤ x) (hlt : x < extent) :
    ∃ span ∈ gridSpans grid extent fuel t, span.1 ≤ x ∧ x < span.1 + span.2 := by
  induction fuel generalizing t with
  | zero => omega
  | succ fuel ih =>
    rw [gridSpans, if_pos (by omega)]
    by_cases hx : x < t + min grid (extent - t)
    · exact ⟨_, mem_cons_self, hle, hx⟩
    · obtain ⟨span, hspan, hin⟩ := ih (t := t + min grid (extent - t)) (by omega) (by omega)
      exact ⟨span, mem_cons_of_mem _ hspan, hin⟩

theorem tile_of_mem {rectW rectH : ℕ} {tile : Tile} (h : tile ∈ gridTiles grid rectW rectH) :
    0 < tile.w ∧ tile.x + tile.w ≤ rectW ∧ tile.y + tile.h ≤ rectH := by
  obtain ⟨row, hrow, h⟩ := mem_flatMap.mp h
  obtain ⟨col, hcol, rfl⟩ := mem_map.mp h
  obtain ⟨hwidth, hright⟩ := span_of_mem hgrid hcol
  exact ⟨hwidth, hright, (span_of_mem hgrid hrow).2⟩

/-- The tiles are all pixels of the rectangle. -/
theorem iUnion_region (rectW rectH : ℕ) :
    (⋃ tile ∈ gridTiles grid rectW rectH, tile.region rectW) = {i | i < rectW * rectH} := by
  ext i
  rw [Set.mem_iUnion₂]
  constructor
  · rintro ⟨tile, htile, row, hrow, hle, hlt⟩
    obtain ⟨hwidth, hright, hbottom⟩ := tile_of_mem hgrid htile
    have hrows := Nat.mul_le_mul_right rectW (show tile.y + row + 1 ≤ rectH by omega)
    rw [Nat.succ_mul] at hrows
    rw [Tile.rowStart] at hlt
    show i < rectW * rectH
    rw [Nat.mul_comm rectW]
    omega
  · intro hi
    have hi : i < rectW * rectH := hi
    have hw : 0 < rectW := by
      by_contra hzero
      rw [Nat.eq_zero_of_not_pos hzero, Nat.zero_mul] at hi
      omega
    obtain ⟨row, hrow, hrowle, hrowlt⟩ := exists_span hgrid (show rectH ≤ 0 + rectH by omega)
      (Nat.zero_le _) (Nat.div_lt_of_lt_mul hi)
    obtain ⟨col, hcol, hcolle, hcollt⟩ := exists_span hgrid (show rectW ≤ 0 + rectW by omega)
      (Nat.zero_le _) (Nat.mod_lt i hw)
    refine ⟨⟨col.1, row.1, col.2, row.2⟩,
      mem_flatMap.mpr ⟨row, hrow, mem_map_of_mem hcol⟩, i / rectW - row.1,
      show i / rectW - row.1 < row.2 by omega, ?_⟩
    have hdiv := Nat.div_add_mod' i rectW
    have hsame : row.1 + (i / rectW - row.1) = i / rectW := by omega
    constructor
    · show (row.1 + (i / rectW - row.1)) * rectW + col.1 ≤ i
      rw [hsame]
      omega
    · show i < (row.1 + (i / rectW - row.1)) * rectW + col.1 + col.2
      rw [hsame]
      omega

end Grid

/-!
# Hextile rectangles

Reference: `src-tauri/src/vnc/encodings/hextile.rs`, and `check_scratch` of
`src-tauri/src/vnc/encodings/pixels.rs`.

The reader is the bytes it yields and the error it gives after them. A stopped decoder leaves its state
behind, unless it panics.
-/

/-- How a rectangle decoder stops. -/
inductive Stop (σ : Type) where
  | error (message : String) (state : σ)
  | panic

/-- A decoder of a rectangle that carries a state from rectangle to rectangle. -/
abbrev RectDecoder (σ : Type) := Decoder UInt8 (Stop σ) PixelWrite

/-- `check_scratch`, for a buffer of whole pixels. -/
def checkScratch {σ : Type} (outLen : ℕ) (w h : UInt16) (state : σ) : RectDecoder σ Unit :=
  if outLen ≠ w.toNat * h.toNat then
    fail (.error "decoder scratch buffer does not match the rectangle" state)
  else return ()

/-- Background and foreground persist when a tile omits them. -/
structure HextileState where
  bg : Rgba
  fg : Rgba

def HextileState.new : HextileState := ⟨⟨0, 0, 0, 0⟩, ⟨0, 0, 0, 0⟩⟩

section Hextile

variable (conv : PixelConverter) (ioError : String) (stride : ℕ) (tile : Tile)

def readPixel (state : HextileState) (what : String) : RectDecoder HextileState Rgba :=
  -- the buffer of a pixel has four bytes
  if 4 < conv.bytesPerPixel then fail .panic
  else do
    let src ← Decoder.slice conv.bytesPerPixel (.error s!"hextile: {what}: {ioError}" state)
    ofOption .panic (conv.pixel? src)

/-- A colour that is sent if its flag is set. -/
def readPixelIf (flag : Bool) (state : HextileState) (what : String) (colour : Rgba) :
    RectDecoder HextileState Rgba :=
  if flag then readPixel conv ioError state what else pure colour

/-- A raw tile; its buffer has 1024 bytes. -/
def rawHextile (state : HextileState) : RectDecoder HextileState Unit :=
  if conv.bytesPerPixel = 0 ∨ 1024 < tile.w * tile.h * conv.bytesPerPixel then fail .panic
  else do
    let bytes ← Decoder.slice (tile.w * tile.h * conv.bytesPerPixel)
      (.error s!"hextile: raw tile pixels: {ioError}" state)
    forM (List.range tile.h) fun row => do
      let chunk := (bytes.drop (row * (tile.w * conv.bytesPerPixel))).take (tile.w * conv.bytesPerPixel)
      let colours ← ofOption .panic (conv.convertRow chunk tile.w)
      write (Tile.spanWrites (tile.rowStart stride row) colours)

/-- What a sub-rectangle covers of its tile. -/
def Tile.sub (tile : Tile) (sx sy sw sh : ℕ) : Tile :=
  ⟨tile.x + sx, tile.y + sy, min sw (tile.w - sx), min sh (tile.h - sy)⟩

def subrect (coloured : Bool) (state : HextileState) : RectDecoder HextileState Unit := do
  let colour ← readPixelIf conv ioError coloured state "sr colour" state.fg
  let geometry ← Decoder.slice 2 (.error s!"hextile: sr geometry: {ioError}" state)
  let sx := (geometry.getD 0 0 >>> 4).toNat
  let sy := (geometry.getD 0 0 &&& 0x0F).toNat
  let sw := (geometry.getD 1 0 >>> 4).toNat + 1
  let sh := (geometry.getD 1 0 &&& 0x0F).toNat + 1
  if tile.w ≤ sx ∨ tile.h ≤ sy then return ()
  else write ((tile.sub sx sy sw sh).fillBlock stride colour)

def hextileTile (state : HextileState) : RectDecoder HextileState HextileState := do
  let subenc ← next (.error s!"hextile: subenc: {ioError}" state)
  if subenc &&& 0x01 ≠ 0 then do
    rawHextile conv ioError stride tile state
    return state
  else do
    let bg ← readPixelIf conv ioError (subenc &&& 0x02 ≠ 0) state "bg" state.bg
    let state := { state with bg }
    let fg ← readPixelIf conv ioError (subenc &&& 0x04 ≠ 0) state "fg" state.fg
    let state := { state with fg }
    write (tile.fillBlock stride state.bg)
    if subenc &&& 0x08 ≠ 0 then do
      let nSubrects ← next (.error s!"hextile: n_subrects: {ioError}" state)
      forM (List.range nSubrects.toNat) fun _ =>
        subrect conv ioError stride tile (subenc &&& 0x10 ≠ 0) state
      return state
    else return state

def hextileTiles : List Tile → HextileState → RectDecoder HextileState HextileState
  | [], state => return state
  | tile :: rest, state => do
    let state ← hextileTile conv ioError stride tile state
    hextileTiles rest state

/-- `decode_hextile_into`. -/
def decodeHextileInto (rectW rectH : UInt16) (outLen : ℕ) (state : HextileState) :
    RectDecoder HextileState HextileState := do
  checkScratch outLen rectW rectH state
  hextileTiles conv ioError rectW.toNat (gridTiles 16 rectW.toNat rectH.toNat) state

end Hextile

/-! ## What is written -/

/-- A row of whole pixels is converted whole. -/
theorem length_convertRow {conv : PixelConverter} {src : List UInt8} {pixels : ℕ}
    (hsrc : src.length = pixels * conv.bytesPerPixel) (h : conv.convertRow src pixels = some colours) :
    colours.length = pixels := by
  rw [PixelConverter.convertRow] at h
  split at h
  · rw [Option.ite_none_right_eq_some] at h
    rw [← Option.some.inj h.2, length_map, length_range]
  · split at h
    · cases h
    · next hbytes =>
      rw [length_mapM h, length_range, hsrc, Nat.mul_div_left _ (Nat.pos_of_ne_zero hbytes),
        min_self]

section Written

variable (conv : PixelConverter) (ioError : String) (stride : ℕ) (tile : Tile)

variable (state : HextileState)

theorem confined_readPixel (what : String) : Confined ∅ (readPixel conv ioError state what) :=
  Confined.ite (confined_fail _) ((confined_slice _ _).bind fun _ _ => confined_ofOption _ _)

theorem confined_readPixelIf (flag : Bool) (state : HextileState) (what : String) (colour : Rgba) :
    Confined ∅ (readPixelIf conv ioError flag state what colour) :=
  Confined.ite (confined_readPixel conv ioError state what) (confined_pure _)

theorem rawHextile_paints : Paints (tile.region stride) (rawHextile conv ioError stride tile state) := by
  refine Paints.ite (fun _ => paints_fail _) fun _ => ?_
  refine of_reads (confined_slice _ _) fun bytes hbytes => ?_
  have hlength : bytes.length = tile.w * tile.h * conv.bytesPerPixel := returns_slice hbytes
  rw [Tile.region_eq_iUnion]
  refine Paints.forM _ fun row hrow => of_reads (confined_ofOption _ _) fun colours hcolours => ?_
  refine paints_write fun _ => (Tile.exists_mem_rowWrites ?_).symm
  refine length_convertRow ?_ (returns_ofOption hcolours)
  have hend := Nat.mul_le_mul_right (tile.w * conv.bytesPerPixel)
    (Nat.succ_le_of_lt (mem_range.mp hrow))
  have hsize : tile.w * tile.h * conv.bytesPerPixel = tile.h * (tile.w * conv.bytesPerPixel) := by
    rw [Nat.mul_comm tile.w, Nat.mul_assoc]
  rw [Nat.succ_mul] at hend
  rw [length_take, length_drop, hlength]
  omega

/-- A sub-rectangle stays in its tile. -/
theorem sub_region_subset {sx sy sw sh : ℕ} :
    (tile.sub sx sy sw sh).region stride ⊆ tile.region stride := by
  rintro i ⟨row, hrow, hle, hlt⟩
  simp only [Tile.sub, Tile.rowStart] at hrow hle hlt
  have hsame : (tile.y + sy + row) * stride = (tile.y + (sy + row)) * stride := by
    rw [Nat.add_assoc]
  refine ⟨sy + row, by omega, ?_, ?_⟩
  · rw [Tile.rowStart]
    omega
  · rw [Tile.rowStart]
    omega

theorem confined_subrect (coloured : Bool) (state : HextileState) :
    Confined (tile.region stride) (subrect conv ioError stride tile coloured state) := by
  refine ((confined_readPixelIf conv ioError _ _ _ _).mono (Set.empty_subset _)).bind fun colour _ => ?_
  refine (confined_slice _ _).bind fun geometry _ => Confined.ite (confined_pure _) ?_
  refine confined_write fun w hw => ?_
  exact sub_region_subset stride tile ((Tile.mem_region_iff_fillBlock colour).mpr ⟨w, hw, rfl⟩)

/-- A tile paints its pixels, and its sub-rectangles paint over them. -/
theorem hextileTile_paints :
    Paints (tile.region stride) (hextileTile conv ioError stride tile state) := by
  refine of_reads (confined_next _) fun subenc _ => ?_
  refine Paints.ite (fun _ => ?_) fun _ => ?_
  · exact (rawHextile_paints conv ioError stride tile state).then_confined fun _ _ => confined_pure _
  · refine of_reads (confined_readPixelIf conv ioError _ _ _ _) fun bg _ => ?_
    refine of_reads (confined_readPixelIf conv ioError _ _ _ _) fun fg _ => ?_
    refine (paints_write fun _ => Tile.mem_region_iff_fillBlock bg).then_confined fun _ _ => ?_
    refine Confined.ite ?_ (confined_pure _)
    refine (confined_next _).bind fun nSubrects _ => Confined.bind ?_ fun _ _ => confined_pure _
    exact Confined.forM _ fun _ _ => confined_subrect conv ioError stride tile _ _

theorem hextileTiles_paints (l : List Tile) (state : HextileState) :
    Paints (⋃ tile ∈ l, tile.region stride) (hextileTiles conv ioError stride l state) := by
  induction l generalizing state with
  | nil =>
    rw [iUnion_nil]
    exact (confined_pure _).paints_empty
  | cons tile l ih =>
    rw [iUnion_cons]
    exact (hextileTile_paints conv ioError stride tile state).bind fun state _ => ih state

end Written

end Taomni.Vnc
