import Taomni.Vnc.Damage
import Taomni.Vnc.PixelFormat
import Taomni.Vnc.Queue

/-!
# The framebuffer and its relay messages

Reference: `src-tauri/src/vnc/framebuffer.rs`; `parseFrameHeader` of `src/lib/vnc/wire.ts` and the
painting loop of `src/lib/vncFramePainter.ts`.

The pixels are a function of their coordinates. A relay message is the header of a rectangle and its
pixels row by row; painting it shows the pixels it was made of (`paintRect_relayFrame`).
-/

namespace Taomni.Vnc

open List

/-! ## The framebuffer -/

structure Framebuffer where
  width : UInt16
  height : UInt16
  pixel : ℕ → ℕ → Rgba

/-- `DecodeLimits::framebuffer_bytes` with the default limits: the sizes that are accepted. -/
def framebufferBytes (width height : UInt16) : Except String ℕ :=
  if width = 0 ∨ height = 0 then .error "framebuffer dimensions must be non-zero"
  else if 16384 < width ∨ 16384 < height then .error "framebuffer dimensions exceed 16384 pixels"
  else if 256 * 1024 * 1024 < width.toNat * height.toNat * 4 then .error "framebuffer exceeds 256 MiB"
  else .ok (width.toNat * height.toNat * 4)

namespace Framebuffer

/-- `Framebuffer::new`, for an accepted size. -/
def blank (width height : UInt16) : Framebuffer where
  width := width
  height := height
  pixel := fun _ _ => ⟨0, 0, 0, 0⟩

/-- The position of a pixel of the rectangle among all of them, row by row. -/
def offset (rect : FbRect) (px py : ℕ) : ℕ :=
  (py - rect.y.toNat) * rect.w.toNat + (px - rect.x.toNat)

def blit (fb : Framebuffer) (rect : FbRect) (src : List Rgba) : Except String Framebuffer :=
  if ¬ rect.Inside fb.width fb.height ∨ src.length < rect.area then
    .error "framebuffer blit is outside the negotiated size"
  else
    .ok { fb with
      pixel := fun px py =>
        if rect.Has px py then src.getD (offset rect px py) ⟨0, 0, 0, 0⟩ else fb.pixel px py }

/-- The rows are copied in the order that makes overlaps safe, so the source is read as it was. -/
def copyRect (fb : Framebuffer) (srcX srcY : UInt16) (dst : FbRect) : Except String Framebuffer :=
  if ¬ FbRect.Inside fb.width fb.height { dst with x := srcX, y := srcY } ∨
      ¬ dst.Inside fb.width fb.height then
    .error "copyrect: source or destination is outside framebuffer"
  else
    .ok { fb with
      pixel := fun px py =>
        if dst.Has px py then
          fb.pixel (srcX.toNat + (px - dst.x.toNat)) (srcY.toNat + (py - dst.y.toNat))
        else fb.pixel px py }

end Framebuffer

/-- What decoders do to the framebuffer. -/
inductive DrawOp where
  | blit (rect : FbRect) (src : List Rgba)
  | copyRect (srcX srcY : UInt16) (dst : FbRect)

namespace DrawOp

def apply (fb : Framebuffer) : DrawOp → Except String Framebuffer
  | blit rect src => fb.blit rect src
  | copyRect srcX srcY dst => fb.copyRect srcX srcY dst

/-- The rectangle that is reported as updated. -/
def rect : DrawOp → FbRect
  | blit rect _ => rect
  | copyRect _ _ dst => dst

/-- Drawing changes pixels of its rectangle only, which lies in the framebuffer. -/
theorem apply_spec {op : DrawOp} {fb fb' : Framebuffer} (h : op.apply fb = .ok fb') :
    (fb'.width = fb.width ∧ fb'.height = fb.height) ∧ op.rect.Inside fb.width fb.height ∧
      ∀ px py, ¬ op.rect.Has px py → fb'.pixel px py = fb.pixel px py := by
  cases op with
  | blit rect src =>
    rw [apply, Framebuffer.blit] at h
    split at h
    · cases h
    · next hok =>
      cases h
      obtain ⟨hinside, -⟩ := not_or.mp hok
      exact ⟨⟨rfl, rfl⟩, not_not.mp hinside, fun px py hnot => if_neg hnot⟩
  | copyRect srcX srcY dst =>
    rw [apply, Framebuffer.copyRect] at h
    split at h
    · cases h
    · next hok =>
      cases h
      obtain ⟨-, hinside⟩ := not_or.mp hok
      exact ⟨⟨rfl, rfl⟩, not_not.mp hinside, fun px py hnot => if_neg hnot⟩

/-- All operations of an update, in order. -/
def applyAll (fb : Framebuffer) : List DrawOp → Except String Framebuffer
  | [] => .ok fb
  | op :: ops =>
    match op.apply fb with
    | .ok fb => applyAll fb ops
    | .error e => .error e

theorem applyAll_spec {ops : List DrawOp} {fb fb' : Framebuffer} (h : applyAll fb ops = .ok fb') :
    (fb'.width = fb.width ∧ fb'.height = fb.height) ∧ (∀ op ∈ ops, op.rect.Inside fb.width fb.height) ∧
      ∀ px py, (∀ op ∈ ops, ¬ op.rect.Has px py) → fb'.pixel px py = fb.pixel px py := by
  induction ops generalizing fb with
  | nil =>
    cases h
    exact ⟨⟨rfl, rfl⟩, fun _ hop => absurd hop not_mem_nil, fun _ _ _ => rfl⟩
  | cons op ops ih =>
    rw [applyAll] at h
    split at h
    · next mid hmid =>
      obtain ⟨⟨hwidth, hheight⟩, hinside, hpixel⟩ := apply_spec hmid
      obtain ⟨⟨hwidth', hheight'⟩, hinside', hpixel'⟩ := ih h
      rw [hwidth, hheight] at hinside'
      refine ⟨⟨hwidth'.trans hwidth, hheight'.trans hheight⟩,
        forall_mem_cons.mpr ⟨hinside, hinside'⟩, fun px py hnot => ?_⟩
      obtain ⟨hhead, htail⟩ := forall_mem_cons.mp hnot
      exact (hpixel' px py htail).trans (hpixel px py hhead)
    · cases h

end DrawOp

/-! ## Relay messages -/

/-- `u16::to_be_bytes`. -/
def u16Bytes (n : UInt16) : Bytes := [UInt8.ofNat (n.toNat / 256), UInt8.ofNat n.toNat]

/-- `getUint16`. -/
def u16OfBytes (a b : UInt8) : UInt16 := UInt16.ofNat (a.toNat * 256 + b.toNat)

def Rgba.bytes (c : Rgba) : Bytes := [c.r, c.g, c.b, c.a]

/-- `RELAY_RECT_HEADER_LEN`. -/
def relayRectHeaderLen : ℕ := 12

namespace Framebuffer

/-- The pixels of a rectangle, row by row. -/
def rectPixels (fb : Framebuffer) (rect : FbRect) : List Rgba :=
  (List.range rect.h.toNat).flatMap fun row =>
    (List.range rect.w.toNat).map fun col => fb.pixel (rect.x.toNat + col) (rect.y.toNat + row)

def relayFrame (fb : Framebuffer) (rect : FbRect) : Option Bytes :=
  if rect.w = 0 ∨ rect.h = 0 ∨ ¬ rect.Inside fb.width fb.height then none
  else some (u16Bytes rect.x ++ u16Bytes rect.y ++ u16Bytes rect.w ++ u16Bytes rect.h ++
    [0, 0, 0, 0] ++ (fb.rectPixels rect).flatMap Rgba.bytes)

end Framebuffer

/-- `parseFrameHeader`. -/
def parseFrameHeader : Bytes → Option (FbRect × Bytes)
  | x₁ :: x₀ :: y₁ :: y₀ :: w₁ :: w₀ :: h₁ :: h₀ :: r₃ :: r₂ :: r₁ :: r₀ :: body =>
    let rect : FbRect :=
      ⟨u16OfBytes x₁ x₀, u16OfBytes y₁ y₀, u16OfBytes w₁ w₀, u16OfBytes h₁ h₀⟩
    if rect.w = 0 ∨ rect.h = 0 ∨ [r₃, r₂, r₁, r₀] ≠ [0, 0, 0, 0] then none
    else if body.length ≠ rect.area * 4 then none
    else some (rect, body)
  | _ => none

/-- What the WebView shows. -/
abbrev Screen := ℕ → ℕ → Rgba

/-- The pixel at a position of an RGBA buffer. -/
def rgbaAt (body : Bytes) (k : ℕ) : Rgba :=
  ⟨body.getD (4 * k) 0, body.getD (4 * k + 1) 0, body.getD (4 * k + 2) 0, body.getD (4 * k + 3) 0⟩

/-- `putImageData` of one message. -/
def paintRect (screen : Screen) (data : Bytes) : Screen :=
  match parseFrameHeader data with
  | some (rect, body) => fun px py =>
    if rect.Has px py then rgbaAt body (Framebuffer.offset rect px py) else screen px py
  | none => screen

def paintFrame (screen : Screen) (frame : Frame) : Screen := frame.foldl paintRect screen

/-! ## What is painted is what was sent -/

theorem u16OfBytes_u16Bytes (n : UInt16) :
    u16OfBytes (UInt8.ofNat (n.toNat / 256)) (UInt8.ofNat n.toNat) = n := by
  have hn := n.toNat_lt
  rw [u16OfBytes, UInt8.toNat_ofNat', UInt8.toNat_ofNat']
  refine UInt16.toNat_inj.mp ?_
  rw [UInt16.toNat_ofNat']
  omega

/-- Blocks of equal length are skipped one by one. -/
theorem drop_flatMap {α β : Type} {f : α → List β} {n : ℕ} (hf : ∀ a, (f a).length = n)
    (l : List α) (k : ℕ) : (l.flatMap f).drop (k * n) = (l.drop k).flatMap f := by
  induction k generalizing l with
  | zero => rw [Nat.zero_mul, drop_zero, drop_zero]
  | succ k ih =>
    cases l with
    | nil => rw [flatMap_nil, drop_nil, drop_nil, flatMap_nil]
    | cons a l =>
      rw [flatMap_cons, Nat.succ_mul, Nat.add_comm, ← drop_drop,
        drop_left' (hf a), ih, drop_succ_cons]

theorem length_flatMap_const {α β : Type} {f : α → List β} {n : ℕ} (hf : ∀ a, (f a).length = n)
    (l : List α) : (l.flatMap f).length = l.length * n := by
  induction l with
  | nil => rw [flatMap_nil, length_nil, length_nil, Nat.zero_mul]
  | cons a l ih =>
    rw [flatMap_cons, length_append, hf, ih, length_cons, Nat.succ_mul, Nat.add_comm]

theorem rgbaAt_flatMap (pixels : List Rgba) {k : ℕ} {c : Rgba} (h : pixels[k]? = some c) :
    rgbaAt (pixels.flatMap Rgba.bytes) k = c := by
  have hdrop : (pixels.flatMap Rgba.bytes).drop (k * 4) = c.bytes ++
      (pixels.drop (k + 1)).flatMap Rgba.bytes := by
    obtain ⟨hk, rfl⟩ := List.getElem?_eq_some_iff.mp h
    rw [drop_flatMap (f := Rgba.bytes) (n := 4) (fun _ => rfl), drop_eq_getElem_cons hk,
      flatMap_cons]
  have hget (i : ℕ) : (pixels.flatMap Rgba.bytes).getD (4 * k + i) 0 =
      (c.bytes ++ (pixels.drop (k + 1)).flatMap Rgba.bytes).getD i 0 := by
    rw [← hdrop, getD_eq_getElem?_getD, getD_eq_getElem?_getD, getElem?_drop,
      Nat.mul_comm]
  have hfirst := hget 0
  rw [Nat.add_zero] at hfirst
  rw [rgbaAt, hfirst, hget, hget, hget]
  rfl

namespace Framebuffer

variable (fb : Framebuffer) (rect : FbRect)

theorem length_rectPixels : (fb.rectPixels rect).length = rect.area := by
  rw [rectPixels, length_flatMap_const (n := rect.w.toNat), length_range, FbRect.area,
    Nat.mul_comm]
  intro row
  rw [length_map, length_range]

theorem getElem?_rectPixels {px py : ℕ} (h : rect.Has px py) :
    (fb.rectPixels rect)[offset rect px py]? = some (fb.pixel px py) := by
  obtain ⟨⟨hleft, hright⟩, htop, hbottom⟩ := h
  rw [FbRect.right] at hright
  rw [FbRect.bottom] at hbottom
  rw [offset, ← getElem?_drop, rectPixels,
    drop_flatMap fun row => by rw [length_map, length_range]]
  rw [drop_eq_getElem_cons (by rw [length_range]; omega), flatMap_cons,
    getElem?_append_left (by rw [length_map, length_range]; omega),
    getElem?_map, getElem?_range (by omega), getElem_range, Option.map_some,
    Nat.add_sub_cancel' hleft, Nat.add_sub_cancel' htop]

/-- The length of a relay message. -/
theorem length_relayFrame {fb : Framebuffer} {rect : FbRect} {data : Bytes}
    (h : fb.relayFrame rect = some data) : data.length = relayRectHeaderLen + rect.area * 4 := by
  rw [relayFrame] at h
  split at h
  · cases h
  · cases h
    rw [length_append, length_flatMap_const (n := 4) fun _ => rfl, length_rectPixels]
    rfl

/-- A relay message is parsed as the rectangle it was made of. -/
theorem parseFrameHeader_relayFrame {fb : Framebuffer} {rect : FbRect} {data : Bytes}
    (h : fb.relayFrame rect = some data) :
    parseFrameHeader data = some (rect, (fb.rectPixels rect).flatMap Rgba.bytes) := by
  rw [relayFrame] at h
  split at h
  · cases h
  · next hok =>
    cases h
    obtain ⟨hw, hok⟩ := not_or.mp hok
    obtain ⟨hh, -⟩ := not_or.mp hok
    change parseFrameHeader (_ :: _ :: _ :: _ :: _ :: _ :: _ :: _ :: _ :: _ :: _ :: _ ::
      (fb.rectPixels rect).flatMap Rgba.bytes) = _
    rw [parseFrameHeader, u16OfBytes_u16Bytes, u16OfBytes_u16Bytes, u16OfBytes_u16Bytes,
      u16OfBytes_u16Bytes]
    dsimp only
    rw [if_neg (by simp only [hw, hh, ne_eq, not_true_eq_false, or_self, not_false_eq_true]),
      if_neg (not_not_intro (by rw [length_flatMap_const (n := 4) fun _ => rfl, length_rectPixels]))]

end Framebuffer

/-- Painting a message shows the framebuffer's pixels in its rectangle. -/
theorem paintRect_relayFrame {fb : Framebuffer} {rect : FbRect} {data : Bytes}
    (h : fb.relayFrame rect = some data) (screen : Screen) (px py : ℕ) :
    paintRect screen data px py = if rect.Has px py then fb.pixel px py else screen px py := by
  rw [paintRect, Framebuffer.parseFrameHeader_relayFrame h]
  dsimp only
  by_cases hhas : rect.Has px py
  · rw [if_pos hhas, if_pos hhas]
    exact rgbaAt_flatMap _ (fb.getElem?_rectPixels rect hhas)
  · rw [if_neg hhas, if_neg hhas]

/-- Painting the messages of rectangles shows the framebuffer's pixels in all of them. -/
theorem paintFrame_relayFrames {fb : Framebuffer} {rects : List FbRect} {screen : Screen}
    {px py : ℕ} (h : (∃ r ∈ rects, r.Inside fb.width fb.height ∧ r.Has px py) ∨
      screen px py = fb.pixel px py) :
    paintFrame screen (rects.filterMap fb.relayFrame) px py = fb.pixel px py := by
  induction rects generalizing screen with
  | nil =>
    rcases h with ⟨r, hr, -⟩ | h
    · exact absurd hr not_mem_nil
    · exact h
  | cons rect rects ih =>
    cases hdata : fb.relayFrame rect with
    | none =>
      rw [filterMap_cons_none hdata]
      refine ih (h.imp_left ?_)
      rintro ⟨r, hr, hinside, hhas⟩
      rcases mem_cons.mp hr with rfl | hr
      · -- a rectangle without message has no pixels
        rw [Framebuffer.relayFrame] at hdata
        split at hdata
        · next hnone =>
          rcases hnone with hw | hh | hout
          · exact absurd hhas (FbRect.not_has_of_empty (.inl hw) px py)
          · exact absurd hhas (FbRect.not_has_of_empty (.inr hh) px py)
          · exact absurd hinside hout
        · cases hdata
      · exact ⟨r, hr, hinside, hhas⟩
    | some data =>
      rw [filterMap_cons_some hdata]
      change paintFrame (paintRect screen data) _ px py = _
      refine ih ?_
      rw [paintRect_relayFrame hdata]
      by_cases hhas : rect.Has px py
      · exact .inr (if_pos hhas)
      · rw [if_neg hhas]
        refine h.imp_left ?_
        rintro ⟨r, hr, hinside, hr'⟩
        rcases mem_cons.mp hr with rfl | hr
        · exact absurd hr' hhas
        · exact ⟨r, hr, hinside, hr'⟩

end Taomni.Vnc
