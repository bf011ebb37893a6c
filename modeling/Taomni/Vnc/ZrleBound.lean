import Mathlib.Algebra.BigOperators.Group.List.Basic
import Mathlib.Tactic.Linarith
import Mathlib.Tactic.Ring
import Taomni.Vnc.ZrlePipeline

/-!
# How much a ZRLE rectangle can inflate to

The pipelined decoder reserves `zrleInflatedBound` bytes. A tile costs its subencoding, a palette, and at most a
CPIXEL and a byte for a pixel: a run that ends in its tile has a length of no more bytes than pixels.

Reference: `src-tauri/src/vnc/encodings/zrle.rs`, `zrle_inflated_bound`.
-/

namespace Taomni.Vnc

open Decoder

def zrleInflatedBound (rectW rectH cpixel : ℕ) : ℕ :=
  (rectW + 63) / 64 * ((rectH + 63) / 64) * (1 + 127 * cpixel) + rectW * rectH * (cpixel + 1)

/-! ## Cost of a decoder -/

/-- A successful run reads at most as many symbols as `cost` has for its value. -/
def Spends {β ε ω α : Type} (cost : α → ℕ) (m : Decoder β ε ω α) : Prop :=
  ∀ input pos a, (m input pos).result = .ok a → (m input pos).pos ≤ pos + cost a

section Spends

variable {ι β ε ω α γ : Type} {m : Decoder β ε ω α}

theorem bind_pos {f : α → Decoder β ε ω γ} {input : List β} {pos : ℕ} {c : γ}
    (h : ((m >>= f) input pos).result = .ok c) :
    ∃ a, (m input pos).result = .ok a ∧ (f a input (m input pos).pos).result = .ok c ∧
      ((m >>= f) input pos).pos = (f a input (m input pos).pos).pos := by
  obtain ⟨a, hm, hf⟩ := bind_result_eq_ok h
  exact ⟨a, hm, hf, by rw [bind_of_ok f hm]⟩

theorem spends_pure (a : α) : Spends (fun _ => 0) (pure a : Decoder β ε ω α) := fun _ _ _ _ => le_rfl

theorem spends_write (log : List ω) : Spends (fun _ => 0) (write log : Decoder β ε ω Unit) := fun _ _ _ _ => le_rfl

theorem spends_slice (count : ℕ) (short : ε) :
    Spends (fun _ => count) (Decoder.slice count short : Decoder β ε ω (List β)) := by
  intro input pos a _
  unfold Decoder.slice
  split <;> simp

theorem spends_next (short : ε) : Spends (fun _ => 1) (next short : Decoder β ε ω β) := by
  intro input pos a _
  unfold next
  split <;> simp

theorem Spends.bind {f : α → Decoder β ε ω γ} {n : ℕ} {cost total : γ → ℕ} (hm : Spends (fun _ => n) m)
    (hf : ∀ a, Spends cost (f a)) (htotal : ∀ c, n + cost c ≤ total c) : Spends total (m >>= f) := by
  intro input pos c h
  obtain ⟨a, ha, hc, hpos⟩ := bind_pos h
  have hfirst : (m input pos).pos ≤ pos + n := hm input pos a ha
  have hsecond := hf a input _ c hc
  have hsum := htotal c
  omega

theorem Spends.forM {n : ℕ} (l : List ι) {f : ι → Decoder β ε ω PUnit} (hf : ∀ i, Spends (fun _ => n) (f i)) :
    Spends (fun _ => l.length * n) (forM l f) := by
  induction l with
  | nil => exact fun _ _ _ _ => Nat.le_add_right _ _
  | cons i l ih => exact (hf i).bind (fun _ => ih) fun _ => by rw [List.length_cons, Nat.succ_mul, Nat.add_comm]

end Spends

/-! ## One tile -/

/-- No run from here on is longer than what is left of the tile. -/
def RunsFit (conv : PixelConverter) (tile : Tile) (plain : Bool) (palette : List Rgba) (stream : List UInt8) :
    ℕ → ℕ → ℕ → Prop
  | 0, _, _ => True
  | fuel + 1, filled, pos =>
    filled < tile.pixelCount → ∀ run, (readRun conv plain palette stream pos).result = .ok run →
      run.2 ≤ tile.pixelCount - filled ∧ RunsFit conv tile plain palette stream fuel (filled + run.2)
        (readRun conv plain palette stream pos).pos

/-- No run of the tile at this position extends past its end. -/
def TileFits (conv : PixelConverter) (tile : Tile) (stream : List UInt8) (pos : ℕ) : Prop :=
  ∀ subenc palette, stream[pos]? = some subenc → subenc = 128 ∨ 130 ≤ subenc →
    (readPalette conv (subenc.toNat - 128) stream (pos + 1)).result = .ok palette →
      RunsFit conv tile (subenc.toNat = 128) palette stream tile.pixelCount 0
        (readPalette conv (subenc.toNat - 128) stream (pos + 1)).pos

variable {conv : PixelConverter} {stride : ℕ} {tile : Tile} {stream : List UInt8} {pos : ℕ}

theorem spends_readCpixel : Spends (fun _ => conv.cpixelBytes) (readCpixel conv) :=
  (spends_slice _ _).bind (fun _ => spends_pure _) fun _ => le_rfl

theorem spends_readPalette (size : ℕ) : Spends (fun _ => size * conv.cpixelBytes) (readPalette conv size) := by
  induction size with
  | zero => exact fun _ _ _ _ => Nat.le_add_right _ _
  | succ size ih =>
    refine spends_readCpixel.bind (fun _ => ih.bind (fun _ => spends_pure _) fun _ => le_rfl) fun _ => ?_
    rw [Nat.succ_mul, Nat.add_comm, Nat.add_zero]

/-- A length of `n` bytes is at least `n`. -/
theorem spends_readZrleRunLength : Spends id readZrleRunLength := by
  have hle (l : List UInt8) (pos total run : ℕ) (h : (runLength l pos total).result = .ok run) :
      (runLength l pos total).pos + total ≤ pos + run + 1 := by
    induction l generalizing pos total with
    | nil => cases h
    | cons b l ih =>
      by_cases hb : b = 255
      · simp only [runLength, hb, ne_eq, not_true_eq_false, if_false] at h ⊢
        have hrest := ih _ _ h
        have h255 : (255 : UInt8).toNat = 255 := rfl
        omega
      · simp only [runLength, ne_eq, hb, not_false_eq_true, if_true, Except.ok.injEq] at h ⊢
        omega
  intro input pos run h
  exact Nat.le_of_succ_le_succ (hle _ _ _ _ h)

theorem spends_readRun (hcpixel : 1 ≤ conv.cpixelBytes) (plain : Bool) (palette : List Rgba) :
    Spends (fun run => conv.cpixelBytes + run.2) (readRun conv plain palette) := by
  have hlength (colour : Rgba) :
      Spends (fun run => run.2) (do let run ← readZrleRunLength; return (colour, run)) := by
    intro input pos run h
    obtain ⟨length, hlength, h, hpos⟩ := bind_pos h
    cases h
    rw [hpos]
    exact spends_readZrleRunLength input pos length hlength
  unfold readRun
  split
  · exact spends_readCpixel.bind hlength fun _ => le_rfl
  · refine (spends_next _).bind (fun idxByte => ?_) fun _ => Nat.add_le_add_right hcpixel _
    dsimp only
    split
    · exact hlength _
    · exact fun _ _ _ _ => Nat.le_add_right _ _

theorem rleRuns_pos_le (hcpixel : 1 ≤ conv.cpixelBytes) {plain : Bool} {palette : List Rgba}
    {fuel filled row col : ℕ}
    (h : (rleRuns conv stride tile plain palette fuel filled row col stream pos).result = .ok ())
    (hfit : RunsFit conv tile plain palette stream fuel filled pos) :
    (rleRuns conv stride tile plain palette fuel filled row col stream pos).pos ≤
      pos + (tile.pixelCount - filled) * (conv.cpixelBytes + 1) := by
  induction fuel generalizing filled row col pos with
  | zero => exact Nat.le_add_right _ _
  | succ fuel ih =>
    unfold rleRuns at h ⊢
    split at h
    · next hfilled =>
      rw [if_pos hfilled]
      obtain ⟨⟨colour, length⟩, hrun, h, hpos⟩ := bind_pos h
      obtain ⟨hlength, hrest⟩ := hfit hfilled _ hrun
      have hone := one_le_of_readRun hrun
      have hread := spends_readRun hcpixel plain palette stream pos _ hrun
      dsimp only at h hpos hlength hone hread hrest
      rw [Nat.min_eq_left hlength] at h hpos
      obtain ⟨_, -, h, hpos'⟩ := bind_pos h
      rw [hpos, hpos']
      have hlater := ih h hrest
      simp only [write] at hlater ⊢
      -- A pixel of the run pays for its CPIXEL or index, the others for the length.
      have hsplit : tile.pixelCount - filled = length + (tile.pixelCount - (filled + length)) := by omega
      have hpays : conv.cpixelBytes + length ≤ length * (conv.cpixelBytes + 1) := by nlinarith
      rw [hsplit, Nat.add_mul]
      omega
    · next hfilled =>
      rw [if_neg hfilled]
      exact Nat.le_add_right _ _

/-! ## All tiles -/

/-- What a tile costs at most. -/
def tileBound (cpixel : ℕ) (tile : Tile) : ℕ := 1 + 127 * cpixel + tile.pixelCount * (cpixel + 1)

theorem spends_packedTile {size : ℕ} (hsize : size ≤ 16) :
    Spends (fun _ => 127 * conv.cpixelBytes + tile.pixelCount * (conv.cpixelBytes + 1))
      (packedTile conv stride tile size) := by
  have hrow (n : ℕ) (hn : 0 < n) : (tile.w + (n - 1)) / n ≤ tile.w :=
    (Nat.div_le_iff_le_mul_add_pred hn).mpr (Nat.add_le_add_right (Nat.le_mul_of_pos_left _ hn) _)
  have hbits : 0 < 8 / packedBits size := by
    unfold packedBits
    split_ifs <;> decide
  refine (spends_readPalette size).bind (fun palette => Spends.forM _ fun row =>
    (spends_slice _ _).bind (fun _ => spends_write _) fun _ => le_rfl) fun _ => ?_
  have hpalette := Nat.mul_le_mul_right conv.cpixelBytes (hsize.trans (by decide : 16 ≤ 127))
  have hpixels := Nat.mul_le_mul_left tile.h (hrow _ hbits)
  have hpays : tile.h * tile.w ≤ tile.h * tile.w * (conv.cpixelBytes + 1) :=
    Nat.le_mul_of_pos_right _ (Nat.succ_pos _)
  rw [List.length_range, Tile.pixelCount, Nat.mul_comm tile.w, Nat.add_zero]
  omega

theorem tileDecoder_pos_le (hcpixel : 1 ≤ conv.cpixelBytes)
    (h : (tileDecoder conv stride tile stream pos).result = .ok ()) (hfit : TileFits conv tile stream pos) :
    (tileDecoder conv stride tile stream pos).pos ≤ pos + tileBound conv.cpixelBytes tile := by
  obtain ⟨subenc, hsubenc, h, hpos⟩ := bind_pos h
  obtain ⟨hget, hnext⟩ : stream[pos]? = some subenc ∧
      (next "zrle: eof subenc" stream pos : Decoded String PixelWrite UInt8).pos = pos + 1 := by
    unfold next at hsubenc ⊢
    cases hget : stream[pos]? with
    | none => simp [hget] at hsubenc
    | some b => simp_all
  rw [hnext] at h hpos
  refine (show (tileDecoder conv stride tile stream pos).pos = _ from hpos).trans_le ?_
  unfold tileBound
  have hspend {m : TileDecoder Unit} {n : ℕ} (hm : Spends (fun _ => n) m)
      (hn : n ≤ 127 * conv.cpixelBytes + tile.pixelCount * (conv.cpixelBytes + 1))
      (hresult : (m stream (pos + 1)).result = .ok ()) :
      (m stream (pos + 1)).pos ≤ pos + (1 + 127 * conv.cpixelBytes + tile.pixelCount * (conv.cpixelBytes + 1)) := by
    have hle : (m stream (pos + 1)).pos ≤ pos + 1 + n := hm _ _ _ hresult
    omega
  split_ifs at h ⊢ with hraw hsolid hpacked hrle
  · refine hspend ((spends_slice _ _).bind (fun _ => spends_write _) fun _ => le_rfl) ?_ h
    have hpays : tile.pixelCount * conv.cpixelBytes ≤ tile.pixelCount * (conv.cpixelBytes + 1) :=
      Nat.mul_le_mul_left _ (Nat.le_succ _)
    omega
  · refine hspend (spends_readCpixel.bind (fun _ => spends_write _) fun _ => le_rfl) ?_ h
    omega
  · exact hspend (spends_packedTile (UInt8.le_iff_toNat_le.mp hpacked.2)) le_rfl h
  · obtain ⟨palette, hpalette, h, hpos⟩ := bind_pos h
    have hsize : subenc.toNat - 128 ≤ 127 := by
      have hbyte := subenc.toNat_lt
      omega
    have hread : _ ≤ pos + 1 + (subenc.toNat - 128) * conv.cpixelBytes :=
      spends_readPalette _ stream (pos + 1) palette hpalette
    have hruns := rleRuns_pos_le hcpixel h (hfit subenc palette hget hrle hpalette)
    have hfew := Nat.mul_le_mul_right conv.cpixelBytes hsize
    refine (show (rleTile conv stride tile subenc.toNat stream (pos + 1)).pos = _ from hpos).trans_le ?_
    rw [Nat.sub_zero] at hruns
    omega
  · cases h

/-- No run of these tiles, one after the other, extends past the end of its tile. -/
def TilesFit (conv : PixelConverter) (stride : ℕ) (stream : List UInt8) : List Tile → ℕ → Prop
  | [], _ => True
  | tile :: rest, pos => TileFits conv tile stream pos ∧
    TilesFit conv stride stream rest (tileDecoder conv stride tile stream pos).pos

theorem decodeTiles_pos_le (hcpixel : 1 ≤ conv.cpixelBytes) {list : List Tile} {out : List Rgba}
    (h : (decodeTiles conv stride stream list pos out).1 = .ok ()) (hfit : TilesFit conv stride stream list pos) :
    (decodeTiles conv stride stream list pos out).2.1 ≤ pos + (list.map (tileBound conv.cpixelBytes)).sum := by
  induction list generalizing pos out with
  | nil => exact Nat.le_add_right _ _
  | cons tile list ih =>
    cases htile : (zrleDecodeTile conv stride tile stream pos out).1 with
    | error e =>
      rw [decodeTiles_of_error htile, htile] at h
      cases h
    | ok =>
      rw [decodeTiles_of_ok htile] at h ⊢
      have hfirst : (zrleDecodeTile conv stride tile stream pos out).2.1 ≤ _ :=
        tileDecoder_pos_le hcpixel htile hfit.1
      have hrest := ih h hfit.2
      rw [List.map_cons, List.sum_cons]
      omega

/-! ## The sum over a rectangle -/

theorem tileSpans_sum {extent fuel t : ℕ} (h : extent ≤ t + fuel) :
    ((tileSpans extent fuel t).map Prod.snd).sum = extent - t ∧
      (tileSpans extent fuel t).length = (extent - t + 63) / 64 := by
  induction fuel generalizing t with
  | zero =>
    simp only [tileSpans, List.map_nil, List.sum_nil, List.length_nil]
    omega
  | succ fuel ih =>
    unfold tileSpans
    split
    · obtain ⟨hsum, hlength⟩ := ih (by omega : extent ≤ t + min 64 (extent - t) + fuel)
      rw [List.map_cons, List.sum_cons, List.length_cons, hsum, hlength]
      omega
    · simp
      omega

theorem sum_tileBound (cpixel rectW rectH : ℕ) :
    ((tiles rectW rectH).map (tileBound cpixel)).sum = zrleInflatedBound rectW rectH cpixel := by
  obtain ⟨hwidths, hcols⟩ := tileSpans_sum (Nat.le_add_left rectW 0)
  obtain ⟨hheights, hrows⟩ := tileSpans_sum (Nat.le_add_left rectH 0)
  rw [Nat.sub_zero] at hwidths hcols hheights hrows
  have hrow (row : ℕ × ℕ) (cols : List (ℕ × ℕ)) :
      ((cols.map fun col => (⟨col.1, row.1, col.2, row.2⟩ : Tile)).map (tileBound cpixel)).sum =
        cols.length * (1 + 127 * cpixel) + (cols.map Prod.snd).sum * row.2 * (cpixel + 1) := by
    induction cols with
    | nil => simp
    | cons col cols ih =>
      simp only [List.map_cons, List.sum_cons, List.length_cons, ih, tileBound, Tile.pixelCount]
      ring
  have hall (rows cols : List (ℕ × ℕ)) :
      ((rows.flatMap fun row => cols.map fun col => (⟨col.1, row.1, col.2, row.2⟩ : Tile)).map (tileBound cpixel)).sum =
        cols.length * rows.length * (1 + 127 * cpixel) +
          (cols.map Prod.snd).sum * (rows.map Prod.snd).sum * (cpixel + 1) := by
    induction rows with
    | nil => simp
    | cons row rows ih =>
      simp only [List.flatMap_cons, List.map_append, List.sum_append, hrow, ih, List.map_cons, List.sum_cons,
        List.length_cons]
      ring
  rw [tiles, hall, hcols, hrows, hwidths, hheights, zrleInflatedBound]

/-- A rectangle whose runs end in their tiles uses no more inflated bytes than the pipelined decoder reserves.
Every run length has one encoding only. -/
theorem decodeTiles_within_bound (conv : PixelConverter) (hcpixel : 1 ≤ conv.cpixelBytes) (rectW rectH stride pos : ℕ)
    (stream : List UInt8) (out : List Rgba)
    (h : (decodeTiles conv stride stream (tiles rectW rectH) pos out).1 = .ok ())
    (hfit : TilesFit conv stride stream (tiles rectW rectH) pos) :
    (decodeTiles conv stride stream (tiles rectW rectH) pos out).2.1 - pos ≤
      zrleInflatedBound rectW rectH conv.cpixelBytes := by
  have hle := decodeTiles_pos_le hcpixel h hfit
  rw [sum_tileBound] at hle
  omega

/-- One pixel in plain run-length encoding. -/
theorem decodeTiles_within_bound_pixel :
    (decodeTiles ⟨.rgb888⟩ 1 [128, 7, 8, 9, 0] (tiles 1 1) 0 [⟨0, 0, 0, 255⟩]).2.1 - 0 ≤ zrleInflatedBound 1 1 3 :=
  decodeTiles_within_bound ⟨.rgb888⟩ (by decide) 1 1 1 0 _ _ rfl
    ⟨fun _ _ h _ _ => by
      cases h
      rintro - run hrun
      cases hrun
      exact ⟨le_rfl, trivial⟩, trivial⟩

end Taomni.Vnc
