import Taomni.Common.ByteFields
import Taomni.Vnc.Framebuffer

/-!
# The gradient filter is inverted

A server predicts each component from its neighbours as the client does, and sends what is missing modulo
the number of values of the component. The client starts a row from the one it made before, so it makes
the image of the server as long as it has made it so far (`gradientRow_filterRow`).
-/

namespace Taomni.Vnc

open List

/-! ## The filter -/

/-- What is missing to a prediction. -/
def filterPixel (maxes pixel left up upLeft : Components) : Components := fun c =>
  let top : ℤ := (maxes c).toNat
  let predicted := max 0 (min top ((left c).toNat + (up c).toNat - (upLeft c).toNat))
  UInt32.ofNat (((pixel c).toNat - predicted) % (top + 1)).toNat

/-- A row, given the row above. -/
def filterRow (maxes : Components) :
    List Components → List Components → Components → Components → List Components
  | pixel :: row, up :: above, left, upLeft =>
      filterPixel maxes pixel left up upLeft :: filterRow maxes row above pixel up
  | _, _, _, _ => []

/-- The rows, given the row above. -/
def filterRows (maxes : Components) : List (List Components) → List Components → List (List Components)
  | [], _ => []
  | row :: rows, above => filterRow maxes row above 0 0 :: filterRows maxes rows row

/-! ## The wire -/

namespace PixelFormat

variable (format : PixelFormat)

def maxes : Components :=
  if format.tpixelIsRgb then ![255, 255, 255]
  else ![format.redMax.toUInt32, format.greenMax.toUInt32, format.blueMax.toUInt32]

def shifts : Components :=
  if format.tpixelIsRgb then ![0, 8, 16]
  else ![format.redShift.toUInt32, format.greenShift.toUInt32, format.blueShift.toUInt32]

/-- The components in one word of the format. -/
def word (pixel : Components) : ℕ :=
  joinFields (fun c => (format.shifts c).toNat) (fun c => (pixel c).toNat) (List.finRange 3)

/-- The channels have bits of their own, in a word of so many bits, and are as long as their maxima. -/
structure Channels (size : ℕ) (bits : Fin 3 → ℕ) : Prop where
  max : ∀ c, (format.maxes c).toNat = 2 ^ bits c - 1
  fits : ∀ c, (format.shifts c).toNat + bits c ≤ size
  apart : ∀ c c' bit, FieldHas (format.shifts c).toNat (bits c) bit →
    FieldHas (format.shifts c').toNat (bits c') bit → c = c'

/-- 24-bit pixels, or 16 and 32 bits with channels that do not overlap. -/
def Filtered : Prop :=
  format.tpixelIsRgb = true ∨ (format.bitsPerPixel = 16 ∨ format.bitsPerPixel = 32) ∧
    ∃ bits, format.Channels format.bitsPerPixel.toNat bits

end PixelFormat

/-- The low bytes of a word. -/
def littleEndianBytes : ℕ → ℕ → List UInt8
  | 0, _ => []
  | n + 1, word => UInt8.ofNat word :: littleEndianBytes n (word / 256)

/-- The bytes of a pixel. -/
def wirePixel (conv : PixelConverter) (pixel : Components) : List UInt8 :=
  let bytes := littleEndianBytes (tpixelBytes conv) (conv.format.word pixel)
  if conv.format.tpixelIsRgb then (List.finRange 3).map fun c => (pixel c).toUInt8
  else if conv.format.bigEndian then bytes.reverse
  else bytes

/-! ## Words -/

theorem toNat_littleEndian_cons (b : UInt8) {src : List UInt8} (h : (littleEndian src).toNat < 2 ^ 24) :
    (littleEndian (b :: src)).toNat = (littleEndian src).toNat <<< 8 ||| b.toNat := by
  have hcons : littleEndian (b :: src) = b.toUInt32 ||| (littleEndian src <<< 8) := rfl
  have hmod : (littleEndian src).toNat <<< 8 % 2 ^ 32 = (littleEndian src).toNat <<< 8 := by
    rw [Nat.shiftLeft_eq]
    exact Nat.mod_eq_of_lt (by omega)
  rw [hcons, UInt32.toNat_or, UInt32.toNat_shiftLeft, UInt8.toNat_toUInt32, Nat.or_comm]
  exact congrArg (· ||| b.toNat) hmod

theorem toNat_littleEndian {n word : ℕ} (hn : n ≤ 4) (hword : word < 256 ^ n) :
    (littleEndian (littleEndianBytes n word)).toNat = word := by
  induction n generalizing word with
  | zero =>
    rw [Nat.pow_zero, Nat.lt_one_iff] at hword
    exact hword.symm
  | succ n ih =>
    have hhigh : word / 256 < 256 ^ n := Nat.div_lt_of_lt_mul (by rwa [Nat.pow_succ, Nat.mul_comm] at hword)
    have hbound : 256 ^ n ≤ 256 ^ 3 := Nat.pow_le_pow_right (by decide) (by omega)
    have hrest := ih (by omega) hhigh
    have hlow : (UInt8.ofNat word).toNat < 2 ^ 8 := UInt8.toNat_lt _
    rw [littleEndianBytes, toNat_littleEndian_cons _ (by rw [hrest]; omega), hrest,
      ← Nat.shiftLeft_add_eq_or_of_lt hlow, Nat.shiftLeft_eq, UInt8.toNat_ofNat']
    omega

theorem length_littleEndianBytes (n word : ℕ) : (littleEndianBytes n word).length = n := by
  induction n generalizing word with
  | zero => rfl
  | succ n ih => rw [littleEndianBytes, length_cons, ih]

/-- A channel of a word. -/
theorem toNat_channel {shift top value : UInt32} {bits : ℕ} (htop : top.toNat = 2 ^ bits - 1)
    (hfits : shift.toNat + bits ≤ 32) :
    ((value >>> shift) &&& top).toNat = field shift.toNat bits value.toNat := by
  rw [UInt32.toNat_and, UInt32.toNat_shiftRight, htop, field]
  by_cases hshift : shift.toNat < 32
  · rw [Nat.mod_eq_of_lt hshift]
  · have hnone : bits = 0 := by omega
    rw [hnone]
    exact (Nat.and_zero _).trans (Nat.and_zero _).symm

/-- A component at its place. -/
theorem toNat_placed {shift component : UInt32} {bits : ℕ} (hlt : component.toNat < 2 ^ bits)
    (hfits : shift.toNat + bits ≤ 32) :
    (component <<< shift).toNat = component.toNat <<< shift.toNat := by
  rw [UInt32.toNat_shiftLeft]
  by_cases hshift : shift.toNat < 32
  · rw [Nat.mod_eq_of_lt hshift]
    refine Nat.mod_eq_of_lt ?_
    rw [Nat.shiftLeft_eq]
    calc component.toNat * 2 ^ shift.toNat < 2 ^ bits * 2 ^ shift.toNat :=
          Nat.mul_lt_mul_of_pos_right hlt (Nat.two_pow_pos _)
      _ = 2 ^ (shift.toNat + bits) := by rw [Nat.pow_add, Nat.mul_comm]
      _ ≤ 2 ^ 32 := Nat.pow_le_pow_right (by decide) hfits
  · have hnone : bits = 0 := by omega
    have hzero : component.toNat = 0 := by
      rw [hnone] at hlt
      omega
    rw [hzero, Nat.zero_shiftLeft, Nat.zero_shiftLeft, Nat.zero_mod]

/-! ## Pixels of a format -/

variable {pixel : Components}

section Pixels

variable {conv : PixelConverter}

theorem tpixelBytes_of_isRgb (h : conv.format.tpixelIsRgb = true) : tpixelBytes conv = 3 := if_pos h

theorem tpixelBytes_of_not_isRgb (h : conv.format.tpixelIsRgb = false)
    (hbits : conv.format.bitsPerPixel = 16 ∨ conv.format.bitsPerPixel = 32) :
    8 * tpixelBytes conv = conv.format.bitsPerPixel.toNat ∧
      (tpixelBytes conv = 2 ∨ tpixelBytes conv = 4) := by
  rw [tpixelBytes, if_neg (Bool.eq_false_iff.mp h), PixelConverter.bytesPerPixel,
    PixelFormat.bytesPerPixel]
  rcases hbits with hbits | hbits
  · rw [hbits]
    exact ⟨rfl, .inl rfl⟩
  · rw [hbits]
    exact ⟨rfl, .inr rfl⟩

theorem gradientMaxes_eq (h : conv.format.Filtered) :
    gradientMaxes conv (tpixelBytes conv) = conv.format.maxes := by
  rw [gradientMaxes, PixelFormat.maxes]
  cases hrgb : conv.format.tpixelIsRgb with
  | true => rw [if_pos (tpixelBytes_of_isRgb hrgb), if_pos rfl]
  | false =>
    have hbits := (h.resolve_left (Bool.eq_false_iff.mp hrgb)).1
    have hbytes := (tpixelBytes_of_not_isRgb hrgb hbits).2
    rw [if_neg (by omega), if_neg Bool.false_ne_true]

theorem gradientShifts_eq (h : conv.format.Filtered) :
    gradientShifts conv (tpixelBytes conv) = conv.format.shifts := by
  rw [gradientShifts, PixelFormat.shifts]
  cases hrgb : conv.format.tpixelIsRgb with
  | true => rw [if_pos (tpixelBytes_of_isRgb hrgb), if_pos rfl]
  | false =>
    have hbits := (h.resolve_left (Bool.eq_false_iff.mp hrgb)).1
    have hbytes := (tpixelBytes_of_not_isRgb hrgb hbits).2
    rw [if_neg (by omega), if_neg Bool.false_ne_true]

variable {format : PixelFormat}

/-- Red, green and blue bytes do not overlap. -/
theorem channels_of_isRgb (h : format.tpixelIsRgb = true) : format.Channels 24 fun _ => 8 := by
  have hshifts : format.shifts = ![0, 8, 16] := if_pos h
  have hmaxes : format.maxes = ![255, 255, 255] := if_pos h
  refine ⟨?_, ?_, ?_⟩
  · rw [hmaxes]
    decide
  · rw [hshifts]
    decide
  · have hplace : ∀ c : Fin 3, ((![0, 8, 16] : Components) c).toNat = 8 * c.val := by decide
    rintro c c' bit ⟨hle, hlt⟩ ⟨hle', hlt'⟩
    rw [hshifts, hplace] at hle hlt hle' hlt'
    exact Fin.ext (by omega)

theorem exists_channels (h : conv.format.Filtered) :
    8 * tpixelBytes conv ≤ 32 ∧ ∃ bits, conv.format.Channels (8 * tpixelBytes conv) bits := by
  cases hrgb : conv.format.tpixelIsRgb with
  | true =>
    rw [tpixelBytes_of_isRgb hrgb]
    exact ⟨by decide, _, channels_of_isRgb hrgb⟩
  | false =>
    obtain ⟨hbits, bits, hchannels⟩ := h.resolve_left (Bool.eq_false_iff.mp hrgb)
    obtain ⟨hsize, hbytes⟩ := tpixelBytes_of_not_isRgb hrgb hbits
    rw [hsize]
    exact ⟨by omega, bits, hchannels⟩

variable {size : ℕ} {bits : Fin 3 → ℕ}

theorem PixelFormat.Channels.lt (h : format.Channels size bits)
    (hpixel : ∀ c, pixel c ≤ format.maxes c) (c : Fin 3) : (pixel c).toNat < 2 ^ bits c := by
  have hle := UInt32.le_iff_toNat_le.mp (hpixel c)
  have hpos := Nat.two_pow_pos (bits c)
  rw [h.max] at hle
  omega

theorem PixelFormat.Channels.word_lt (h : format.Channels size bits)
    (hpixel : ∀ c, pixel c ≤ format.maxes c) : format.word pixel < 2 ^ size :=
  joinFields_lt (fun c _ => h.lt hpixel c) fun c _ => h.fits c

theorem toNat_joinComponents (hfiltered : conv.format.Filtered) (h : conv.format.Channels size bits)
    (hsize : size ≤ 32) (hpixel : ∀ c, pixel c ≤ conv.format.maxes c) :
    (joinComponents conv (tpixelBytes conv) pixel).toNat = conv.format.word pixel := by
  have hplaced : ∀ c, (pixel c <<< conv.format.shifts c).toNat
      = (pixel c).toNat <<< (conv.format.shifts c).toNat := fun c =>
    toNat_placed (h.lt hpixel c) ((h.fits c).trans hsize)
  have hchannels : List.finRange 3 = [0, 1, 2] := rfl
  rw [joinComponents, gradientShifts_eq hfiltered, UInt32.toNat_or, UInt32.toNat_or, hplaced, hplaced,
    hplaced, PixelFormat.word, hchannels, joinFields, joinFields, joinFields, joinFields, Nat.or_zero,
    Nat.or_assoc]

/-- Three bytes are a word. -/
theorem toNat_rgb (pixel : Components) (h : ∀ c, pixel c ≤ 255) :
    (littleEndian [(pixel 0).toUInt8, (pixel 1).toUInt8, (pixel 2).toUInt8]).toNat
      = joinFields (fun c => ((![0, 8, 16] : Components) c).toNat) (fun c => (pixel c).toNat)
        [0, 1, 2] := by
  have hbyte : ∀ c, (pixel c).toUInt8.toNat = (pixel c).toNat := fun c => by
    have hle : (pixel c).toNat ≤ 255 := UInt32.le_iff_toNat_le.mp (h c)
    rw [UInt32.toNat_toUInt8]
    omega
  have hthird : (littleEndian [(pixel 2).toUInt8]).toNat = (pixel 2).toNat := by
    rw [toNat_littleEndian_cons _ (by decide), hbyte]
    exact Nat.zero_or _
  have hle : ∀ c, (pixel c).toNat < 2 ^ 8 := fun c =>
    Nat.lt_succ_of_le (UInt32.le_iff_toNat_le.mp (h c))
  have hsecond : (littleEndian [(pixel 1).toUInt8, (pixel 2).toUInt8]).toNat
      = (pixel 2).toNat <<< 8 ||| (pixel 1).toNat := by
    have hlow := hle 2
    rw [toNat_littleEndian_cons _ (by rw [hthird]; omega), hthird, hbyte]
  have hbound : (pixel 2).toNat <<< 8 ||| (pixel 1).toNat < 2 ^ 24 := by
    have hlow := hle 1
    have hhigh := hle 2
    rw [← Nat.shiftLeft_add_eq_or_of_lt (hle 1), Nat.shiftLeft_eq]
    omega
  rw [toNat_littleEndian_cons _ (by rw [hsecond]; exact hbound), hsecond, hbyte,
    Nat.shiftLeft_or_distrib, ← Nat.shiftLeft_add]
  change _ = (pixel 0).toNat <<< 0 ||| ((pixel 1).toNat <<< 8 ||| ((pixel 2).toNat <<< 16 ||| 0))
  rw [Nat.or_zero, Nat.shiftLeft_zero, Nat.or_comm, Nat.or_comm ((pixel 2).toNat <<< (8 + 8))]

theorem maxes_of_isRgb (h : format.tpixelIsRgb = true) (c : Fin 3) : format.maxes c = 255 := by
  have hmaxes : format.maxes = ![255, 255, 255] := if_pos h
  rw [hmaxes]
  revert c
  decide

theorem toNat_readValue (hfiltered : conv.format.Filtered)
    (hpixel : ∀ c, pixel c ≤ conv.format.maxes c) :
    (readValue conv (tpixelBytes conv) (wirePixel conv pixel)).toNat = conv.format.word pixel := by
  obtain ⟨hsize, bits, hchannels⟩ := exists_channels hfiltered
  rw [readValue, wirePixel]
  cases hrgb : conv.format.tpixelIsRgb with
  | true =>
    have hshifts : conv.format.shifts = ![0, 8, 16] := if_pos hrgb
    rw [if_pos (tpixelBytes_of_isRgb hrgb), if_pos rfl, PixelFormat.word, hshifts]
    exact toNat_rgb pixel fun c => maxes_of_isRgb hrgb c ▸ hpixel c
  | false =>
    have hbits := (hfiltered.resolve_left (Bool.eq_false_iff.mp hrgb)).1
    have hbytes := (tpixelBytes_of_not_isRgb hrgb hbits).2
    have hword : conv.format.word pixel < 256 ^ tpixelBytes conv := by
      have hlt := hchannels.word_lt hpixel
      rwa [Nat.pow_mul] at hlt
    have hvalue : (conv.value (tpixelBytes conv)
        (if conv.format.bigEndian then
            (littleEndianBytes (tpixelBytes conv) (conv.format.word pixel)).reverse
          else littleEndianBytes (tpixelBytes conv) (conv.format.word pixel))).toNat
        = conv.format.word pixel := by
      rw [PixelConverter.value]
      cases conv.format.bigEndian with
      | true =>
        rw [if_pos rfl, if_pos rfl, take_of_length_le
          (by rw [length_reverse, length_littleEndianBytes]), reverse_reverse]
        exact toNat_littleEndian (by omega) hword
      | false =>
        rw [if_neg Bool.false_ne_true, if_neg Bool.false_ne_true,
          take_of_length_le (by rw [length_littleEndianBytes])]
        exact toNat_littleEndian (by omega) hword
    rw [if_neg (by omega), if_neg Bool.false_ne_true]
    rcases hbytes with hbytes | hbytes
    · rw [if_pos hbytes]
      rwa [hbytes] at hvalue ⊢
    · rw [if_neg (by omega)]
      rwa [hbytes] at hvalue ⊢

theorem length_wirePixel (pixel : Components) : (wirePixel conv pixel).length = tpixelBytes conv := by
  rw [wirePixel]
  cases hrgb : conv.format.tpixelIsRgb with
  | true => rw [if_pos rfl, tpixelBytes_of_isRgb hrgb]; rfl
  | false =>
    rw [if_neg Bool.false_ne_true]
    split
    · rw [length_reverse, length_littleEndianBytes]
    · rw [length_littleEndianBytes]

/-- A pixel is shown as its own bytes are. -/
theorem some_componentsRgba (hfiltered : conv.format.Filtered)
    (hpixel : ∀ c, pixel c ≤ conv.format.maxes c) :
    some (componentsRgba conv (tpixelBytes conv) pixel) = tpixel conv (wirePixel conv pixel) := by
  obtain ⟨hsize, bits, hchannels⟩ := exists_channels hfiltered
  have hread := toNat_readValue hfiltered hpixel
  have hlength : (wirePixel conv pixel).length = tpixelBytes conv := length_wirePixel pixel
  rw [componentsRgba, tpixel]
  cases hrgb : conv.format.tpixelIsRgb with
  | true =>
    have hbytes := tpixelBytes_of_isRgb hrgb
    rw [if_pos hbytes, if_pos rfl, if_pos (by omega), wirePixel, hrgb, if_pos rfl]
    rfl
  | false =>
    have hbits := (hfiltered.resolve_left (Bool.eq_false_iff.mp hrgb)).1
    have hbytes := (tpixelBytes_of_not_isRgb hrgb hbits).2
    have hsize' := (tpixelBytes_of_not_isRgb hrgb hbits).1
    have hnative : conv.isNative = false := by
      refine decide_eq_false fun hformat => ?_
      rw [hformat] at hrgb
      cases hrgb
    rw [← toNat_joinComponents hfiltered hchannels hsize hpixel] at hread
    rw [if_neg (by omega), if_neg Bool.false_ne_true, ← UInt32.toNat.inj hread, readValue,
      PixelConverter.pixel?, if_neg (by omega : ¬ tpixelBytes conv = 3)]
    rcases hbits with hbits | hbits
    · have htwo : tpixelBytes conv = 2 := by
        rw [hbits] at hsize'
        exact Nat.eq_of_mul_eq_mul_left (by decide) (hsize'.trans (rfl : _ = 8 * 2))
      have hreads : conv.pixelReads = 2 := by
        rw [PixelConverter.pixelReads, hbits]
        rfl
      rw [if_pos htwo, hreads, if_pos (by omega), PixelConverter.pixel, hbits, if_neg (by decide),
        if_pos rfl]
    · have hfour : tpixelBytes conv = 4 := by
        rw [hbits] at hsize'
        exact Nat.eq_of_mul_eq_mul_left (by decide) (hsize'.trans (rfl : _ = 8 * 4))
      have hreads : conv.pixelReads = 4 := by
        rw [PixelConverter.pixelReads, hbits, hnative]
        rfl
      rw [if_neg (by omega), hreads, if_pos (by omega), PixelConverter.pixel, hbits, hnative,
        if_neg (by decide), if_neg (by decide), if_neg Bool.false_ne_true]

end Pixels

/-! ## Rows -/

section Rows

variable {conv : PixelConverter}

theorem toNat_predicted (top left up upLeft : UInt32) : ((predicted top left up upLeft).toNat : ℤ)
      = max 0 (min (top.toNat : ℤ) (left.toNat + up.toNat - upLeft.toNat)) := by
  have htop := top.toNat_lt
  rw [predicted, UInt32.toNat_ofNat']
  split
  · omega
  · split <;> omega

theorem filterPixel_le (maxes pixel left up upLeft : Components) (c : Fin 3) :
    filterPixel maxes pixel left up upLeft c ≤ maxes c := by
  rw [filterPixel, UInt32.le_iff_toNat_le, UInt32.toNat_ofNat']
  have hlt := Int.emod_lt_of_pos ((pixel c).toNat
    - max 0 (min ((maxes c).toNat : ℤ) ((left c).toNat + (up c).toNat - (upLeft c).toNat)))
    (show (0 : ℤ) < (maxes c).toNat + 1 by omega)
  exact (Nat.mod_le _ _).trans (by omega)

/-- What was missing to the prediction makes the pixel. -/
theorem gradientPixel_filterPixel (hfiltered : conv.format.Filtered)
    (hpixel : ∀ c, pixel c ≤ conv.format.maxes c) (left up upLeft : Components) :
    gradientPixel conv (tpixelBytes conv) (readValue conv (tpixelBytes conv)
        (wirePixel conv (filterPixel conv.format.maxes pixel left up upLeft))) left up upLeft = pixel := by
  obtain ⟨hsize, bits, hchannels⟩ := exists_channels hfiltered
  have hdiff := filterPixel_le conv.format.maxes pixel left up upLeft
  funext c
  have hread := toNat_readValue hfiltered hdiff
  have hchannel : ((readValue conv (tpixelBytes conv)
      (wirePixel conv (filterPixel conv.format.maxes pixel left up upLeft)) >>> conv.format.shifts c)
        &&& conv.format.maxes c).toNat
      = (filterPixel conv.format.maxes pixel left up upLeft c).toNat := by
    rw [toNat_channel (hchannels.max c) ((hchannels.fits c).trans hsize), hread, PixelFormat.word]
    refine field_joinFields (fun c _ => hchannels.lt hdiff c)
      (fun c _ c' _ bit => hchannels.apart c c' bit) ?_
    revert c
    decide
  have hprediction := toNat_predicted (conv.format.maxes c) (left c) (up c) (upLeft c)
  have hpow : 2 ^ bits c ∣ 2 ^ 32 := Nat.pow_dvd_pow 2 (by have := hchannels.fits c; omega)
  have htop : (conv.format.maxes c).toNat = 2 ^ bits c - 1 := hchannels.max c
  have hpos := Nat.two_pow_pos (bits c)
  have hlt := hchannels.lt hpixel c
  have hmissing : ((filterPixel conv.format.maxes pixel left up upLeft c).toNat : ℤ)
      = ((pixel c).toNat - (predicted (conv.format.maxes c) (left c) (up c) (upLeft c)).toNat)
        % (2 ^ bits c : ℕ) := by
    have hmod := Int.emod_lt_of_pos
      ((pixel c).toNat - ((predicted (conv.format.maxes c) (left c) (up c) (upLeft c)).toNat : ℤ))
      (show (0 : ℤ) < (2 ^ bits c : ℕ) by omega)
    have hnonneg := Int.emod_nonneg
      ((pixel c).toNat - ((predicted (conv.format.maxes c) (left c) (up c) (upLeft c)).toNat : ℤ))
      (show ((2 ^ bits c : ℕ) : ℤ) ≠ 0 by omega)
    have hcard : ((conv.format.maxes c).toNat : ℤ) + 1 = (2 ^ bits c : ℕ) := by omega
    have hword : 2 ^ bits c ≤ 2 ^ 32 := Nat.le_of_dvd (by decide) hpow
    rw [filterPixel, ← hprediction, hcard, UInt32.toNat_ofNat', Nat.mod_eq_of_lt (by omega),
      Int.toNat_of_nonneg hnonneg]
  apply UInt32.toNat.inj
  rw [gradientPixel, gradientMaxes_eq hfiltered, gradientShifts_eq hfiltered]
  rw [UInt32.toNat_and, UInt32.toNat_add, hchannel, htop, Nat.and_two_pow_sub_one_eq_mod,
    Nat.mod_mod_of_dvd _ hpow]
  refine Int.natCast_inj.mp ?_
  rw [Int.natCast_emod, Int.natCast_add, hmissing, Int.add_emod, Int.emod_emod_of_dvd _ dvd_rfl,
    ← Int.add_emod, add_sub_cancel]
  exact Int.emod_eq_of_lt (by omega) (by omega)

theorem length_filterRow {maxes : Components} {row above : List Components}
    (h : above.length = row.length) (left upLeft : Components) :
    (filterRow maxes row above left upLeft).length = row.length := by
  induction row generalizing above left upLeft with
  | nil =>
    cases above with
    | nil => rfl
    | cons up above => cases h
  | cons pixel row ih =>
    cases above with
    | nil => cases h
    | cons up above => rw [filterRow, length_cons, length_cons, ih (Nat.succ.inj h)]

/-- A row is made from the row above as it was filtered with it. -/
theorem gradientRow_filterRow (hfiltered : conv.format.Filtered) {row above : List Components}
    (h : above.length = row.length) (hrow : ∀ pixel ∈ row, ∀ c, pixel c ≤ conv.format.maxes c)
    (left upLeft : Components) : gradientRow conv (tpixelBytes conv)
      ((filterRow conv.format.maxes row above left upLeft).map fun diff =>
        readValue conv (tpixelBytes conv) (wirePixel conv diff)) above left upLeft = row := by
  induction row generalizing above left upLeft with
  | nil =>
    cases above with
    | nil => rfl
    | cons up above => cases h
  | cons pixel row ih =>
    cases above with
    | nil => cases h
    | cons up above =>
      obtain ⟨hpixel, hrow⟩ := forall_mem_cons.mp hrow
      rw [filterRow, map_cons, gradientRow, gradientPixel_filterPixel hfiltered hpixel,
        ih (Nat.succ.inj h) hrow]

/-- The values of a row are those of its pixels. -/
theorem rowValues_flatMap {pixels : List Components} {width y : ℕ}
    (h : y * width + width ≤ pixels.length) :
    rowValues conv (tpixelBytes conv) (pixels.flatMap (wirePixel conv)) width y
      = ((pixels.drop (y * width)).take width).map fun pixel =>
          readValue conv (tpixelBytes conv) (wirePixel conv pixel) := by
  refine ext_getElem ?_ fun x hx hx' => ?_
  · rw [length_rowValues, length_map, length_take, length_drop]
    omega
  · rw [length_rowValues] at hx
    have hlt : y * width + x < pixels.length := by omega
    have hpixel : ((pixels.flatMap (wirePixel conv)).drop ((y * width + x) * tpixelBytes conv)).take
        (tpixelBytes conv) = wirePixel conv pixels[y * width + x] := by
      rw [drop_flatMap length_wirePixel, drop_eq_getElem_cons hlt, flatMap_cons]
      exact take_left' (length_wirePixel _)
    simp only [rowValues, getElem_map, getElem_range, hpixel, getElem_take,
      getElem_drop]

variable {image : List (List Components)}

/-- The image is made row by row, each from the one made before. -/
theorem gradientRows_filterRows (hfiltered : conv.format.Filtered) {width : ℕ}
    (hwidth : ∀ row ∈ image, row.length = width)
    (hrange : ∀ row ∈ image, ∀ pixel ∈ row, ∀ c, pixel c ≤ conv.format.maxes c)
    {pixels above : List Components} {y : ℕ} (habove : above.length = width)
    (hpixels : pixels.drop (y * width) = (filterRows conv.format.maxes image above).flatten) :
    gradientRows conv (tpixelBytes conv) (pixels.flatMap (wirePixel conv)) width image.length y above
      = image := by
  induction image generalizing above y with
  | nil => rfl
  | cons row image ih =>
    obtain ⟨hrow, hwidth⟩ := forall_mem_cons.mp hwidth
    obtain ⟨hpixel, hrange⟩ := forall_mem_cons.mp hrange
    have hlength := @length_filterRow conv.format.maxes _ _ (habove.trans hrow.symm) 0 0
    rw [filterRows, flatten_cons] at hpixels
    have hfits : y * width + width ≤ pixels.length := by
      have hdrop := congrArg List.length hpixels
      rw [length_drop, length_append, hlength, hrow] at hdrop
      by_cases hzero : width = 0
      · rw [hzero, Nat.mul_zero]
        exact Nat.zero_le _
      · omega
    have hcurrent : gradientRow conv (tpixelBytes conv)
        (rowValues conv (tpixelBytes conv) (pixels.flatMap (wirePixel conv)) width y) above 0 0 = row := by
      rw [rowValues_flatMap hfits, hpixels, take_left' (hlength.trans hrow)]
      exact gradientRow_filterRow hfiltered (habove.trans hrow.symm) hpixel 0 0
    rw [length_cons, gradientRows, hcurrent, ih hwidth hrange hrow]
    rw [Nat.succ_mul, ← drop_drop, hpixels, drop_left' (hlength.trans hrow)]

theorem length_filterRows {maxes : Components} {width : ℕ}
    (hwidth : ∀ row ∈ image, row.length = width) {above : List Components}
    (habove : above.length = width) :
    (filterRows maxes image above).flatten.length = width * image.length := by
  induction image generalizing above with
  | nil => rfl
  | cons row image ih =>
    obtain ⟨hrow, hwidth⟩ := forall_mem_cons.mp hwidth
    rw [filterRows, flatten_cons, length_append, ih hwidth hrow,
      length_filterRow (habove.trans hrow.symm), hrow, length_cons, Nat.mul_succ, Nat.add_comm]

end Rows

/-- The filter is inverted: the image that is filtered and sent is shown as it is, and all of the data is
there. -/
theorem applyGradient_filterRows {conv : PixelConverter} (hfiltered : conv.format.Filtered) {width : ℕ}
    {image : List (List Components)} (hwidth : ∀ row ∈ image, row.length = width)
    (hrange : ∀ row ∈ image, ∀ pixel ∈ row, ∀ c, pixel c ≤ conv.format.maxes c) :
    let data := (filterRows conv.format.maxes image (List.replicate width 0)).flatten.flatMap
      (wirePixel conv)
    data.length = width * image.length * tpixelBytes conv ∧
    (applyGradient conv (tpixelBytes conv) data width image.length).map some
      = image.flatten.map fun pixel => tpixel conv (wirePixel conv pixel) := by
  intro data
  have hrows : gradientRows conv (tpixelBytes conv) data width image.length 0 (List.replicate width 0)
      = image :=
    gradientRows_filterRows hfiltered hwidth hrange length_replicate
      (by rw [Nat.zero_mul, drop_zero])
  refine ⟨?_, ?_⟩
  · rw [length_flatMap_const length_wirePixel, length_filterRows hwidth length_replicate]
  · rw [applyGradient, hrows, map_map]
    refine map_congr_left fun pixel hpixel => ?_
    obtain ⟨row, hrow, hpixel⟩ := List.mem_flatten.mp hpixel
    exact some_componentsRgba hfiltered (hrange row hrow pixel hpixel)

/-- Two rows of two pixels of a 16-bit format, with predictions below and above the range. -/
theorem applyGradient_filterRows_rgb565 :
    let image : List (List Components) := [[![31, 0, 5], ![7, 63, 0]], [![0, 63, 31], ![7, 8, 9]]]
    let conv : PixelConverter := ⟨PixelFormat.rgb565⟩
    (applyGradient conv (tpixelBytes conv)
      ((filterRows conv.format.maxes image (List.replicate 2 0)).flatten.flatMap (wirePixel conv)) 2
      image.length).map some = image.flatten.map fun pixel => tpixel conv (wirePixel conv pixel) := by
  intro image conv
  have hfiltered : conv.format.Filtered := by
    have hapart : ∀ c c' : Fin 3, ∀ bit < 16,
        (![11, 5, 0] : Fin 3 → ℕ) c ≤ bit ∧ bit < (![16, 11, 5] : Fin 3 → ℕ) c →
        (![11, 5, 0] : Fin 3 → ℕ) c' ≤ bit ∧ bit < (![16, 11, 5] : Fin 3 → ℕ) c' → c = c' := by decide
    have hplace : ∀ c, (conv.format.shifts c).toNat = (![11, 5, 0] : Fin 3 → ℕ) c ∧
        (![11, 5, 0] : Fin 3 → ℕ) c + (![5, 6, 5] : Fin 3 → ℕ) c = (![16, 11, 5] : Fin 3 → ℕ) c ∧
        (![16, 11, 5] : Fin 3 → ℕ) c ≤ 16 := by decide
    refine .inr ⟨.inl rfl, ![5, 6, 5], by decide, by decide, fun c c' bit h h' => ?_⟩
    rw [FieldHas, (hplace c).1, (hplace c).2.1] at h
    rw [FieldHas, (hplace c').1, (hplace c').2.1] at h'
    exact hapart c c' bit (h.2.trans_le (hplace c).2.2) h h'
  have hwidth : ∀ row ∈ image, row.length = 2 := by decide
  have hfits : (image.flatten.all fun pixel =>
      (List.finRange 3).all fun c => decide (pixel c ≤ conv.format.maxes c)) = true := by decide
  have hrange : ∀ row ∈ image, ∀ pixel ∈ row, ∀ c, pixel c ≤ conv.format.maxes c :=
    fun row hrow pixel hpixel c => of_decide_eq_true (all_eq_true.mp
      (all_eq_true.mp hfits pixel (List.mem_flatten.mpr ⟨row, hrow, hpixel⟩)) c (mem_finRange c))
  exact (applyGradient_filterRows hfiltered hwidth hrange).2

end Taomni.Vnc
