import Mathlib.Data.List.GetD
import Taomni.Common.Positioned
import Taomni.Vnc.Framebuffer

/-!
# The bytes of the framebuffer

Reference: `Framebuffer` of `src-tauri/src/vnc/framebuffer.rs`.

The pixels as the code keeps them, four bytes each, row by row. `copy_rect` moves one row after
another inside these bytes, from the bottom when the rectangle goes down and from the top otherwise,
so that no row is written before it was read (`copyRows_before`).
-/

namespace Taomni.Vnc

open List

/-- `Framebuffer`; every constructor makes room for all pixels. -/
structure PixelBuffer where
  width : UInt16
  height : UInt16
  pixels : Bytes
  size_eq : pixels.length = width.toNat * height.toNat * 4

/-- The same place in another rectangle. -/
def FbRect.movedTo (rect : FbRect) (x y : UInt16) : FbRect := { rect with x := x, y := y }

theorem eq_of_framebufferBytes {width height : UInt16} {bytes : ℕ}
    (h : framebufferBytes width height = .ok bytes) : bytes = width.toNat * height.toNat * 4 := by
  rw [framebufferBytes] at h
  split at h
  · cases h
  split at h
  · cases h
  split at h
  · cases h
  exact (Except.ok.inj h).symm

namespace PixelBuffer

/-- `Framebuffer::new`. -/
def new (width height : UInt16) : Except String PixelBuffer :=
  match h : framebufferBytes width height with
  | .error e => .error e
  | .ok bytes => .ok {
      width
      height
      pixels := List.replicate bytes 0
      size_eq := by rw [length_replicate, eq_of_framebufferBytes h] }

/-- `Framebuffer::empty`. -/
def empty : PixelBuffer := ⟨0, 0, [], rfl⟩

variable (fb : PixelBuffer)

/-- The bytes of a row. -/
def stride : ℕ := fb.width.toNat * 4

/-- The pixel at a column and a row. -/
def pixel (px py : ℕ) : Rgba := rgbaAt fb.pixels (py * fb.width.toNat + px)

/-- The copy of one round of the loop. -/
def rowMove (srcX srcY : UInt16) (dst : FbRect) (row : ℕ) : ArrayMove where
  start := (srcY.toNat + row) * fb.stride + srcX.toNat * 4
  dest := (dst.y.toNat + row) * fb.stride + dst.x.toNat * 4
  length := dst.w.toNat * 4

/-- The order of the rows. -/
def copyRows (srcY : UInt16) (dst : FbRect) : List ℕ :=
  if srcY < dst.y then (List.range dst.h.toNat).reverse else List.range dst.h.toNat

/-- `Framebuffer::copy_rect`: the result and the framebuffer afterwards; `none` is a panic. -/
def copyRect (srcX srcY : UInt16) (dst : FbRect) : Option (Except String Unit × PixelBuffer) :=
  let src := dst.movedTo srcX srcY
  if ¬ src.Inside fb.width fb.height ∨ ¬ dst.Inside fb.width fb.height then
    some (.error "copyrect: source or destination is outside framebuffer", fb)
  else
    match h : runMoves fb.pixels ((copyRows srcY dst).map (fb.rowMove srcX srcY dst)) with
    | none => none
    | some pixels =>
        some (.ok (), { fb with pixels, size_eq := (length_runMoves h).trans fb.size_eq })

/-! ## Rows -/

/-- What lies in one row is found in that row. -/
theorem div_stride {stride row column k : ℕ} (hle : row * stride ≤ k)
    (hlt : k < row * stride + column) (hcolumn : column ≤ stride) : k / stride = row := by
  refine Nat.div_eq_of_lt_le hle ?_
  rw [Nat.succ_mul]
  omega

theorem row_end_le {columns rows row column : ℕ} (hrow : row < rows)
    (hcolumn : column ≤ columns * 4) : row * (columns * 4) + column ≤ columns * rows * 4 := by
  have hrows : (row + 1) * (columns * 4) ≤ rows * (columns * 4) := Nat.mul_le_mul_right _ hrow
  have hsize : columns * rows * 4 = rows * (columns * 4) := by ring
  rw [Nat.succ_mul] at hrows
  omega

variable {fb} {srcX srcY : UInt16} {dst : FbRect}

theorem rowMove_inside (hsrc : (dst.movedTo srcX srcY).Inside fb.width fb.height)
    (hdst : dst.Inside fb.width fb.height) {row : ℕ} (hrow : row < dst.h.toNat) :
    (fb.rowMove srcX srcY dst row).Inside fb.pixels.length := by
  obtain ⟨hsrcRight, hsrcBottom⟩ := hsrc
  obtain ⟨hdstRight, hdstBottom⟩ := hdst
  simp only [FbRect.right, FbRect.bottom, FbRect.movedTo] at hsrcRight hsrcBottom hdstRight hdstBottom
  rw [fb.size_eq]
  constructor
  · have := @row_end_le fb.width.toNat fb.height.toNat (srcY.toNat + row)
      (srcX.toNat * 4 + dst.w.toNat * 4) (by omega) (by omega)
    rwa [← Nat.add_assoc] at this
  · have := @row_end_le fb.width.toNat fb.height.toNat (dst.y.toNat + row)
      (dst.x.toNat * 4 + dst.w.toNat * 4) (by omega) (by omega)
    rwa [← Nat.add_assoc] at this

theorem div_of_reads (hsrc : (dst.movedTo srcX srcY).Inside fb.width fb.height) {row k : ℕ}
    (h : (fb.rowMove srcX srcY dst row).Reads k) : k / fb.stride = srcY.toNat + row := by
  obtain ⟨hle, hlt⟩ := h
  obtain ⟨hright, -⟩ := hsrc
  simp only [FbRect.right, FbRect.movedTo] at hright
  simp only [rowMove] at hle hlt
  refine @div_stride _ _ (srcX.toNat * 4 + dst.w.toNat * 4) _ (by omega) (by omega) ?_
  rw [stride]
  omega

theorem div_of_writes (hdst : dst.Inside fb.width fb.height) {row k : ℕ}
    (h : (fb.rowMove srcX srcY dst row).Writes k) : k / fb.stride = dst.y.toNat + row := by
  obtain ⟨hle, hlt⟩ := h
  obtain ⟨hright, -⟩ := hdst
  rw [FbRect.right] at hright
  simp only [rowMove] at hle hlt
  refine @div_stride _ _ (dst.x.toNat * 4 + dst.w.toNat * 4) _ (by omega) (by omega) ?_
  rw [stride]
  omega

/-- No row is written before it was read. -/
theorem copyRows_before (srcY : UInt16) (dst : FbRect) : (copyRows srcY dst).Pairwise fun row row' =>
      dst.y.toNat + row ≠ srcY.toNat + row' ∧ row ≠ row' := by
  rw [copyRows]
  split
  · next hdown =>
    rw [UInt16.lt_iff_toNat_lt] at hdown
    rw [pairwise_reverse]
    exact pairwise_lt_range.imp fun hlt => ⟨by omega, by omega⟩
  · next hup =>
    rw [UInt16.lt_iff_toNat_lt] at hup
    exact pairwise_lt_range.imp fun hlt => ⟨by omega, by omega⟩

theorem mem_copyRows {row : ℕ} : row ∈ copyRows srcY dst ↔ row < dst.h.toNat := by
  rw [copyRows]
  split
  · rw [mem_reverse, mem_range]
  · rw [mem_range]

/-- The rows, in the order of the code, are one simultaneous copy. -/
theorem exists_runMoves (hsrc : (dst.movedTo srcX srcY).Inside fb.width fb.height)
    (hdst : dst.Inside fb.width fb.height) :
    ∃ pixels, runMoves fb.pixels ((copyRows srcY dst).map (fb.rowMove srcX srcY dst)) = some pixels ∧
      (∀ row < dst.h.toNat, ∀ k, (fb.rowMove srcX srcY dst row).Writes k →
        pixels[k]? = fb.pixels[(fb.rowMove srcX srcY dst row).source k]?) ∧
      ∀ k, (∀ row < dst.h.toNat, ¬ (fb.rowMove srcX srcY dst row).Writes k) →
        pixels[k]? = fb.pixels[k]? := by
  have hinside : ∀ m ∈ (copyRows srcY dst).map (fb.rowMove srcX srcY dst),
      m.Inside fb.pixels.length := by
    intro m hm
    obtain ⟨row, hrow, rfl⟩ := mem_map.mp hm
    exact rowMove_inside hsrc hdst (mem_copyRows.mp hrow)
  have hbefore : ((copyRows srcY dst).map (fb.rowMove srcX srcY dst)).Pairwise ArrayMove.Before := by
    rw [pairwise_map]
    refine (copyRows_before srcY dst).imp fun hrows k hwrites => ⟨fun hreads => ?_, fun hwrites' => ?_⟩
    · exact hrows.1 ((div_of_writes hdst hwrites).symm.trans (div_of_reads hsrc hreads))
    · have := (div_of_writes hdst hwrites).symm.trans (div_of_writes hdst hwrites')
      exact hrows.2 (by omega)
  obtain ⟨pixels, hrun, hmoved, hkept⟩ := getElem?_runMoves hinside hbefore
  refine ⟨pixels, hrun, fun row hrow k => ?_, fun k hk => hkept k fun m hm => ?_⟩
  · exact hmoved _ (mem_map_of_mem (mem_copyRows.mpr hrow)) k
  · obtain ⟨row, hrow, rfl⟩ := mem_map.mp hm
    exact hk row (mem_copyRows.mp hrow)

/-! ## Pixels -/

theorem rgbaAt_congr {xs ys : Bytes} {i j : ℕ} (h : ∀ c < 4, xs[4 * i + c]? = ys[4 * j + c]?) :
    rgbaAt xs i = rgbaAt ys j := by
  have h0 := h 0 (by decide)
  rw [Nat.add_zero, Nat.add_zero] at h0
  simp only [rgbaAt, getD_eq_getElem?_getD, h0, h 1 (by decide), h 2 (by decide),
    h 3 (by decide)]

/-- Where a byte of a pixel lies. -/
theorem byte_eq (fb : PixelBuffer) (px py c : ℕ) :
    4 * (py * fb.width.toNat + px) + c = py * fb.stride + (px * 4 + c) := by
  rw [stride]
  ring

/-- A pixel of the rectangle is written by its row. -/
theorem writes_of_has {px py : ℕ} (h : dst.Has px py) {c : ℕ} (hc : c < 4) :
    (fb.rowMove srcX srcY dst (py - dst.y.toNat)).Writes (4 * (py * fb.width.toNat + px) + c) := by
  obtain ⟨⟨hleft, hright⟩, htop, -⟩ := h
  rw [FbRect.right] at hright
  have hrow : dst.y.toNat + (py - dst.y.toNat) = py := by omega
  rw [byte_eq, ArrayMove.Writes, rowMove, hrow]
  dsimp only
  omega

/-- Its byte comes from the same byte of the pixel it is copied from. -/
theorem source_of_has {px py : ℕ} (h : dst.Has px py) (c : ℕ) :
    (fb.rowMove srcX srcY dst (py - dst.y.toNat)).source (4 * (py * fb.width.toNat + px) + c)
      = 4 * ((srcY.toNat + (py - dst.y.toNat)) * fb.width.toNat
          + (srcX.toNat + (px - dst.x.toNat))) + c := by
  obtain ⟨⟨hleft, -⟩, htop, -⟩ := h
  have hrow : dst.y.toNat + (py - dst.y.toNat) = py := by omega
  rw [byte_eq, byte_eq, ArrayMove.source, rowMove, hrow]
  dsimp only
  omega

/-- Rows write pixels of the rectangle only. -/
theorem has_of_writes (hdst : dst.Inside fb.width fb.height) {px py row c : ℕ}
    (hpx : px < fb.width.toNat) (hc : c < 4) (hrow : row < dst.h.toNat)
    (h : (fb.rowMove srcX srcY dst row).Writes (4 * (py * fb.width.toNat + px) + c)) :
    dst.Has px py := by
  have hcolumn : px * 4 + c < fb.stride := by
    rw [stride]
    omega
  have hrowOf : (py * fb.stride + (px * 4 + c)) / fb.stride = py :=
    div_stride (Nat.le_add_right _ _) (Nat.add_lt_add_left (Nat.lt_succ_self _) _) hcolumn
  have hsame := div_of_writes hdst h
  rw [byte_eq, hrowOf] at hsame
  rw [byte_eq, ArrayMove.Writes, rowMove, ← hsame] at h
  dsimp only at h
  refine ⟨⟨by omega, ?_⟩, by omega, ?_⟩
  · rw [FbRect.right]
    omega
  · rw [FbRect.bottom]
    omega

theorem copyRect_of_not_inside
    (h : ¬ ((dst.movedTo srcX srcY).Inside fb.width fb.height ∧ dst.Inside fb.width fb.height)) :
    fb.copyRect srcX srcY dst
      = some (.error "copyrect: source or destination is outside framebuffer", fb) := by
  rw [copyRect]
  exact if_pos (not_and_or.mp h)

theorem exists_copyRect (hsrc : (dst.movedTo srcX srcY).Inside fb.width fb.height)
    (hdst : dst.Inside fb.width fb.height) : ∃ fb', fb.copyRect srcX srcY dst = some (.ok (), fb') ∧
      fb'.width = fb.width ∧ fb'.height = fb.height ∧ ∀ px < fb.width.toNat, ∀ py < fb.height.toNat,
        fb'.pixel px py = if dst.Has px py then
            fb.pixel (srcX.toNat + (px - dst.x.toNat)) (srcY.toNat + (py - dst.y.toNat))
          else fb.pixel px py := by
  obtain ⟨pixels, hrun, hmoved, hkept⟩ := exists_runMoves hsrc hdst
  have hsize : pixels.length = fb.width.toNat * fb.height.toNat * 4 :=
    (length_runMoves hrun).trans fb.size_eq
  refine ⟨{ fb with pixels, size_eq := hsize }, ?_, rfl, rfl, fun px hpx py hpy => ?_⟩
  · rw [copyRect, if_neg (not_or.mpr ⟨not_not_intro hsrc, not_not_intro hdst⟩)]
    split
    · next hnone =>
      rw [hrun] at hnone
      cases hnone
    · next found hfound =>
      obtain rfl := Option.some.inj (hfound.symm.trans hrun)
      rfl
  by_cases hhas : dst.Has px py
  · rw [if_pos hhas]
    have hrow : py - dst.y.toNat < dst.h.toNat := by
      obtain ⟨-, htop, hbottom⟩ := hhas
      rw [FbRect.bottom] at hbottom
      omega
    refine rgbaAt_congr fun c hc => ?_
    rw [← source_of_has hhas c]
    exact hmoved _ hrow _ (writes_of_has hhas hc)
  · rw [if_neg hhas]
    refine rgbaAt_congr fun c hc => hkept _ fun row hrow hwrites => hhas ?_
    exact has_of_writes hdst hpx hc hrow hwrites

/-- `copy_rect` refuses rectangles that leave the framebuffer and changes nothing then; else every
pixel of the destination gets the value its source pixel had, and no other pixel changes. -/
theorem copyRect_simultaneous (fb : PixelBuffer) (srcX srcY : UInt16) (dst : FbRect) :
    (¬ ((dst.movedTo srcX srcY).Inside fb.width fb.height ∧ dst.Inside fb.width fb.height) ∧
      fb.copyRect srcX srcY dst
        = some (.error "copyrect: source or destination is outside framebuffer", fb)) ∨
    ((dst.movedTo srcX srcY).Inside fb.width fb.height ∧ dst.Inside fb.width fb.height) ∧
      ∃ fb', fb.copyRect srcX srcY dst = some (.ok (), fb') ∧
        fb'.width = fb.width ∧ fb'.height = fb.height ∧ ∀ px < fb.width.toNat, ∀ py < fb.height.toNat,
          fb'.pixel px py = if dst.Has px py then
              fb.pixel (srcX.toNat + (px - dst.x.toNat)) (srcY.toNat + (py - dst.y.toNat))
            else fb.pixel px py := by
  by_cases hinside :
      (dst.movedTo srcX srcY).Inside fb.width fb.height ∧ dst.Inside fb.width fb.height
  · exact .inr ⟨hinside, exists_copyRect hinside.1 hinside.2⟩
  · exact .inl ⟨hinside, copyRect_of_not_inside hinside⟩

/-- A column of three pixels scrolled down by one. -/
example : ((⟨1, 3, [1, 0, 0, 255, 2, 0, 0, 255, 3, 0, 0, 255], rfl⟩ : PixelBuffer).copyRect 0 0
      ⟨0, 1, 1, 2⟩).map (fun result => result.2.pixels)
    = some [1, 0, 0, 255, 1, 0, 0, 255, 2, 0, 0, 255] := by
  decide

/-! ## Without the bytes -/

/-- The framebuffer whose pixels these bytes are. -/
def framebuffer (fb : PixelBuffer) : Framebuffer where
  width := fb.width
  height := fb.height
  pixel px py := if px < fb.width.toNat ∧ py < fb.height.toNat then fb.pixel px py else ⟨0, 0, 0, 0⟩

theorem framebuffer_new {width height : UInt16} {fb : PixelBuffer}
    (h : new width height = .ok fb) : fb.framebuffer = .blank width height := by
  rw [new] at h
  split at h
  · cases h
  next bytes hbytes =>
  obtain rfl := Except.ok.inj h
  rw [framebuffer, Framebuffer.blank, Framebuffer.mk.injEq]
  refine ⟨rfl, rfl, funext fun px => funext fun py => ?_⟩
  simp only [pixel, rgbaAt, getD_eq_getElem?_getD, getElem?_getD_replicate_default_eq,
    ite_self]

theorem lt_of_has (hdst : dst.Inside fb.width fb.height) {px py : ℕ} (h : dst.Has px py) :
    px < fb.width.toNat ∧ py < fb.height.toNat :=
  ⟨h.1.2.trans_le hdst.1, h.2.2.trans_le hdst.2⟩

/-- Pixels of the destination come from inside the framebuffer. -/
theorem source_lt_of_has (hsrc : (dst.movedTo srcX srcY).Inside fb.width fb.height) {px py : ℕ}
    (h : dst.Has px py) : srcX.toNat + (px - dst.x.toNat) < fb.width.toNat ∧
      srcY.toNat + (py - dst.y.toNat) < fb.height.toNat := by
  obtain ⟨hright, hbottom⟩ := hsrc
  obtain ⟨⟨hleft, hpx⟩, htop, hpy⟩ := h
  simp only [FbRect.right, FbRect.bottom, FbRect.movedTo] at hright hbottom hpx hpy
  omega

/-- `copy_rect` on the bytes is the copy on the pixels. -/
theorem copyRect_refines (fb : PixelBuffer) (srcX srcY : UInt16) (dst : FbRect) :
    ∃ result fb', fb.copyRect srcX srcY dst = some (result, fb') ∧
      fb.framebuffer.copyRect srcX srcY dst = result.map fun _ => fb'.framebuffer := by
  by_cases hinside :
      (dst.movedTo srcX srcY).Inside fb.width fb.height ∧ dst.Inside fb.width fb.height
  · obtain ⟨hsrc, hdst⟩ := hinside
    obtain ⟨fb', hcopy, hwidth, hheight, hpixel⟩ := exists_copyRect hsrc hdst
    refine ⟨_, _, hcopy, ?_⟩
    refine (if_neg (not_or.mpr ⟨not_not_intro hsrc, not_not_intro hdst⟩)).trans
      (congrArg Except.ok ?_)
    rw [framebuffer, framebuffer, Framebuffer.mk.injEq, hwidth, hheight]
    refine ⟨rfl, rfl, funext fun px => funext fun py => ?_⟩
    simp only
    by_cases hin : px < fb.width.toNat ∧ py < fb.height.toNat
    · rw [if_pos hin, if_pos hin, hpixel px hin.1 py hin.2]
      by_cases hhas : dst.Has px py
      · rw [if_pos hhas, if_pos hhas, if_pos (source_lt_of_has hsrc hhas)]
      · rw [if_neg hhas, if_neg hhas]
    · have hhas : ¬ dst.Has px py := fun hhas => hin (lt_of_has hdst hhas)
      rw [if_neg hin, if_neg hin, if_neg hhas]
  · refine ⟨_, _, copyRect_of_not_inside hinside, ?_⟩
    exact if_pos (not_and_or.mp hinside)

end PixelBuffer

end Taomni.Vnc
