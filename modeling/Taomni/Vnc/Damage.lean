import Mathlib.Data.List.Induction
import Mathlib.Tactic.Ring
import Taomni.Common.Lists

/-!
# Pending screen damage

Reference: `src-tauri/src/vnc/framebuffer.rs`.

Rectangles have `u16` fields, and a union is computed in `u32` and cut to `u16` again. `Damage::add`
merges the new rectangle with those it touches and starts over after each merge; the loop is a
function of its fuel, and `scan_terminates` says how much is always enough.
-/

namespace Taomni.Vnc

open List

/-! ## Rectangles -/

structure FbRect where
  x : UInt16
  y : UInt16
  w : UInt16
  h : UInt16
deriving DecidableEq, Repr

namespace FbRect

def right (r : FbRect) : ℕ := r.x.toNat + r.w.toNat

def bottom (r : FbRect) : ℕ := r.y.toNat + r.h.toNat

def area (r : FbRect) : ℕ := r.w.toNat * r.h.toNat

/-- The bounding box; width and height are cast to `u16`. -/
def union (r s : FbRect) : FbRect :=
  let x := if r.x.toNat ≤ s.x.toNat then r.x else s.x
  let y := if r.y.toNat ≤ s.y.toNat then r.y else s.y
  { x := x
    y := y
    w := UInt16.ofNat (max r.right s.right - x.toNat)
    h := UInt16.ofNat (max r.bottom s.bottom - y.toNat) }

def contains (r s : FbRect) : Bool :=
  r.x.toNat ≤ s.x.toNat && r.y.toNat ≤ s.y.toNat && r.right ≥ s.right && r.bottom ≥ s.bottom

def touches (r s : FbRect) : Bool :=
  r.x.toNat ≤ s.right && s.x.toNat ≤ r.right && r.y.toNat ≤ s.bottom && s.y.toNat ≤ r.bottom

/-- The pixel at `(px, py)` belongs to the rectangle. -/
def Has (r : FbRect) (px py : ℕ) : Prop :=
  (r.x.toNat ≤ px ∧ px < r.right) ∧ r.y.toNat ≤ py ∧ py < r.bottom

instance (r : FbRect) (px py : ℕ) : Decidable (r.Has px py) := inferInstanceAs (Decidable (_ ∧ _))

/-- `Framebuffer::in_bounds`. -/
def Inside (width height : UInt16) (r : FbRect) : Prop :=
  r.right ≤ width.toNat ∧ r.bottom ≤ height.toNat

instance (width height : UInt16) (r : FbRect) : Decidable (r.Inside width height) :=
  inferInstanceAs (Decidable (_ ∧ _))

theorem has_of_contains {r s : FbRect} (h : r.contains s) {px py : ℕ} (hs : s.Has px py) :
    r.Has px py := by
  simp only [contains, Bool.and_eq_true, decide_eq_true_eq] at h
  obtain ⟨⟨hleft, hright⟩, htop, hbottom⟩ := hs
  exact ⟨⟨by omega, by omega⟩, by omega, by omega⟩

theorem not_has_of_empty {r : FbRect} (h : r.w = 0 ∨ r.h = 0) (px py : ℕ) : ¬ r.Has px py := by
  rintro ⟨⟨hleft, hright⟩, htop, hbottom⟩
  rcases h with h | h
  · rw [right, h, UInt16.toNat_zero] at hright
    omega
  · rw [bottom, h, UInt16.toNat_zero] at hbottom
    omega

section Union

variable {width height : UInt16} {r s : FbRect} (hr : r.Inside width height)
  (hs : s.Inside width height)

theorem union_x : (r.union s).x.toNat = min r.x.toNat s.x.toNat := by
  change (if r.x.toNat ≤ s.x.toNat then r.x else s.x).toNat = _
  split <;> omega

theorem union_y : (r.union s).y.toNat = min r.y.toNat s.y.toNat := by
  change (if r.y.toNat ≤ s.y.toNat then r.y else s.y).toNat = _
  split <;> omega

include hr hs

/-- The cast to `u16` cuts nothing off. -/
theorem union_right : (r.union s).right = max r.right s.right := by
  have hw := width.toNat_lt
  have hx : (r.union s).x.toNat ≤ max r.right s.right := by
    rw [union_x, right, right]
    omega
  have hcast : (r.union s).w.toNat = max r.right s.right - (r.union s).x.toNat :=
    UInt16.toNat_ofNat_of_lt' (show _ < 65536 by have hmax := hr.1; have hmax' := hs.1; omega)
  rw [right, hcast]
  omega

theorem union_bottom : (r.union s).bottom = max r.bottom s.bottom := by
  have hh := height.toNat_lt
  have hy : (r.union s).y.toNat ≤ max r.bottom s.bottom := by
    rw [union_y, bottom, bottom]
    omega
  have hcast : (r.union s).h.toNat = max r.bottom s.bottom - (r.union s).y.toNat :=
    UInt16.toNat_ofNat_of_lt' (show _ < 65536 by have hmax := hr.2; have hmax' := hs.2; omega)
  rw [bottom, hcast]
  omega

theorem union_inside : (r.union s).Inside width height := by
  rw [Inside, union_right hr hs, union_bottom hr hs]
  exact ⟨Nat.max_le.mpr ⟨hr.1, hs.1⟩, Nat.max_le.mpr ⟨hr.2, hs.2⟩⟩

theorem union_has {px py : ℕ} (h : r.Has px py ∨ s.Has px py) : (r.union s).Has px py := by
  rw [Has, union_x, union_y, union_right hr hs, union_bottom hr hs]
  rcases h with ⟨⟨hleft, hright⟩, htop, hbottom⟩ | ⟨⟨hleft, hright⟩, htop, hbottom⟩
  · exact ⟨⟨by omega, by omega⟩, by omega, by omega⟩
  · exact ⟨⟨by omega, by omega⟩, by omega, by omega⟩

end Union

end FbRect

/-! ## Damage -/

/-- `MAX_DAMAGE_RECTS`. -/
def maxDamageRects : ℕ := 16

structure Damage where
  rects : List FbRect
deriving DecidableEq, Repr

/-- How the loop of `add` ends: the merged rectangle lies in a listed one, or is to be listed. -/
inductive ScanResult where
  | contained (rects : List FbRect)
  | merged (rects : List FbRect) (rect : FbRect)
deriving DecidableEq, Repr

/-- The two rectangles are merged: one contains the other, or they touch and the union is compact. -/
def mergeable (merged existing : FbRect) : Bool :=
  merged.contains existing
    || (merged.touches existing
      && (merged.union existing).area ≤ (merged.area + existing.area) * 5 / 4)

/-- The loop of `Damage::add`; `none` is out of fuel. -/
def scan : ℕ → List FbRect → FbRect → ℕ → Option ScanResult
  | 0, _, _, _ => none
  | fuel + 1, rects, merged, index =>
      match rects[index]? with
      | none => some (.merged rects merged)
      | some existing =>
          if existing.contains merged then some (.contained rects)
          else if mergeable merged existing then
            scan fuel (swapRemove rects index) (merged.union existing) 0
          else scan fuel rects merged (index + 1)

/-- Enough fuel for a list of length `n`. -/
def scanFuel (n : ℕ) : ℕ := n * (n + 1) + 1

/-- The bounding box of the rectangles. -/
def bounds : List FbRect → List FbRect
  | [] => []
  | rect :: rest => [rest.foldl FbRect.union rect]

namespace Damage

def empty : Damage := ⟨[]⟩

def add (damage : Damage) (rect : FbRect) : Damage :=
  if rect.w = 0 ∨ rect.h = 0 then damage
  else
    match scan (scanFuel damage.rects.length) damage.rects rect 0 with
    | some (.contained rects) => ⟨rects⟩
    | some (.merged rects merged) =>
        if (rects ++ [merged]).length > maxDamageRects then ⟨bounds (rects ++ [merged])⟩
        else ⟨rects ++ [merged]⟩
    | none => damage

/-- The rectangles, and the damage left behind. -/
def take (damage : Damage) : List FbRect × Damage := (damage.rects, empty)

def clear (_ : Damage) : Damage := empty

/-- The pixel lies in a listed rectangle. -/
def Covers (damage : Damage) (px py : ℕ) : Prop := ∃ r ∈ damage.rects, r.Has px py

end Damage

/-! ## Termination -/

private theorem scan_isSome (fuel : ℕ) (rects : List FbRect) (merged : FbRect) (index : ℕ)
    (hindex : index ≤ rects.length) (hfuel : scanFuel rects.length ≤ fuel + index) :
    ∃ result, ∀ more, scan (fuel + more) rects merged index = some result := by
  induction fuel generalizing rects merged index with
  | zero =>
    rw [scanFuel, Nat.mul_add] at hfuel
    omega
  | succ fuel ih =>
    cases hget : rects[index]? with
    | none =>
      refine ⟨.merged rects merged, fun more => ?_⟩
      rw [Nat.succ_add, scan, hget]
    | some existing =>
      obtain ⟨hlt, -⟩ := List.getElem?_eq_some_iff.mp hget
      by_cases hcontained : existing.contains merged
      · refine ⟨.contained rects, fun more => ?_⟩
        rw [Nat.succ_add, scan, hget]
        exact if_pos hcontained
      by_cases hmerge : mergeable merged existing
      · -- a merge costs one pass over the list, and shortens it
        have hlength := length_swapRemove rects index
        obtain ⟨n, hn⟩ : ∃ n, rects.length = n + 1 := Nat.exists_eq_add_one_of_ne_zero (by omega)
        have hbudget : scanFuel (n + 1) = scanFuel n + 2 * (n + 1) := by
          rw [scanFuel, scanFuel]
          ring
        obtain ⟨result, hresult⟩ := ih (swapRemove rects index) (merged.union existing) 0
          (Nat.zero_le _) (by rw [hlength, hn, Nat.add_sub_cancel]; rw [hn, hbudget] at hfuel; omega)
        refine ⟨result, fun more => ?_⟩
        rw [Nat.succ_add, scan, hget]
        dsimp only
        rw [if_neg hcontained, if_pos hmerge, hresult]
      · obtain ⟨result, hresult⟩ := ih rects merged (index + 1) (by omega) (by omega)
        refine ⟨result, fun more => ?_⟩
        rw [Nat.succ_add, scan, hget]
        dsimp only
        rw [if_neg hcontained, if_neg hmerge, hresult]

/-- The loop ends, and more fuel does not change how. -/
theorem scan_terminates (rects : List FbRect) (rect : FbRect) :
    ∃ result, ∀ fuel, scanFuel rects.length ≤ fuel → scan fuel rects rect 0 = some result := by
  obtain ⟨result, hresult⟩ := scan_isSome (scanFuel rects.length) rects rect 0 (Nat.zero_le _) le_rfl
  refine ⟨result, fun fuel hfuel => ?_⟩
  obtain ⟨more, rfl⟩ := Nat.exists_eq_add_of_le hfuel
  exact hresult more

/-! ## Coverage -/

/-- The rectangles cover the pixel. -/
def CoveredBy (rects : List FbRect) (px py : ℕ) : Prop := ∃ r ∈ rects, r.Has px py

namespace ScanResult

/-- The rectangles that are listed in the end. -/
def listed : ScanResult → List FbRect
  | contained rects => rects
  | merged rects rect => rects ++ [rect]

/-- Those of them that were listed before. -/
def rest : ScanResult → List FbRect
  | contained rects => rects
  | merged rects _ => rects

end ScanResult

variable {rects : List FbRect}

/-- The loop keeps every pixel of the list and of the new rectangle, and stays in the frame. -/
theorem scan_spec {width height : UInt16} {fuel : ℕ} {merged : FbRect}
    {index : ℕ} {result : ScanResult} (h : scan fuel rects merged index = some result)
    (hrects : ∀ r ∈ rects, r.Inside width height) (hmerged : merged.Inside width height) :
    (∀ px py, CoveredBy rects px py ∨ merged.Has px py → CoveredBy result.listed px py) ∧
      ∀ r ∈ result.listed, r.Inside width height := by
  induction fuel generalizing rects merged index with
  | zero => cases h
  | succ fuel ih =>
    rw [scan] at h
    split at h
    · obtain rfl := Option.some.inj h
      constructor
      · rintro px py (⟨r, hr, hhas⟩ | hhas)
        · exact ⟨r, mem_append_left _ hr, hhas⟩
        · exact ⟨merged, mem_append_right _ mem_cons_self, hhas⟩
      · intro r hr
        rcases mem_append.mp hr with hr | hr
        · exact hrects r hr
        · rwa [mem_singleton.mp hr]
    next existing hget =>
    have hexisting : existing ∈ rects := mem_of_getElem? hget
    split at h
    · next hcontained =>
      -- the merged rectangle has grown over the removed ones, and lies in a listed one
      obtain rfl := Option.some.inj h
      refine ⟨?_, hrects⟩
      rintro px py (hcovered | hhas)
      · exact hcovered
      · exact ⟨existing, hexisting, FbRect.has_of_contains hcontained hhas⟩
    split at h
    · have hinside := hrects existing hexisting
      obtain ⟨hcovers, hall⟩ := ih h (fun r hr => hrects r (mem_of_mem_swapRemove hr))
        (FbRect.union_inside hmerged hinside)
      refine ⟨?_, hall⟩
      rintro px py (⟨r, hr, hhas⟩ | hhas)
      · rcases mem_swapRemove hget hr with rfl | hr
        · exact hcovers px py (.inr (FbRect.union_has hmerged hinside (.inr hhas)))
        · exact hcovers px py (.inl ⟨r, hr, hhas⟩)
      · exact hcovers px py (.inr (FbRect.union_has hmerged hinside (.inl hhas)))
    · exact ih h hrects hmerged

private theorem foldl_union_spec {width height : UInt16} {rect : FbRect}
    (hrects : ∀ r ∈ rects, r.Inside width height) (hrect : rect.Inside width height) :
    (rects.foldl FbRect.union rect).Inside width height ∧
      ∀ px py, CoveredBy (rect :: rects) px py → (rects.foldl FbRect.union rect).Has px py := by
  induction rects generalizing rect with
  | nil =>
    refine ⟨hrect, ?_⟩
    rintro px py ⟨r, hr, hhas⟩
    rwa [← mem_singleton.mp hr]
  | cons s rest ih =>
    have hs := hrects s mem_cons_self
    obtain ⟨hinside, hcovers⟩ := ih (fun r hr => hrects r (mem_cons_of_mem _ hr))
      (FbRect.union_inside hrect hs)
    refine ⟨hinside, ?_⟩
    rintro px py ⟨r, hr, hhas⟩
    refine hcovers px py ?_
    rcases mem_cons.mp hr with rfl | hr
    · exact ⟨_, mem_cons_self, FbRect.union_has hrect hs (.inl hhas)⟩
    rcases mem_cons.mp hr with rfl | hr
    · exact ⟨_, mem_cons_self, FbRect.union_has hrect hs (.inr hhas)⟩
    · exact ⟨r, mem_cons_of_mem _ hr, hhas⟩

/-- The bounding box covers what the list covers, in one rectangle of the frame. -/
theorem bounds_spec {width height : UInt16} (hrects : ∀ r ∈ rects, r.Inside width height) :
    (∀ px py, CoveredBy rects px py → CoveredBy (bounds rects) px py) ∧
      (∀ r ∈ bounds rects, r.Inside width height) ∧ (bounds rects).length ≤ 1 := by
  cases rects with
  | nil =>
    refine ⟨fun _ _ h => h, ?_, Nat.zero_le _⟩
    intro r hr
    cases hr
  | cons rect rest =>
    obtain ⟨hinside, hcovers⟩ := foldl_union_spec
      (fun r hr => hrects r (mem_cons_of_mem _ hr)) (hrects rect mem_cons_self)
    refine ⟨fun px py h => ⟨_, mem_singleton_self _, hcovers px py h⟩, ?_, le_rfl⟩
    intro r hr
    rwa [mem_singleton.mp hr]

/-! ## The invariant -/

namespace Damage

/-- The list is bounded and stays in the frame. -/
structure WellFormed (width height : UInt16) (damage : Damage) : Prop where
  length_le : damage.rects.length ≤ maxDamageRects
  inside : ∀ r ∈ damage.rects, r.Inside width height

theorem wellFormed_empty (width height : UInt16) : WellFormed width height empty where
  length_le := Nat.zero_le _
  inside := by
    intro r hr
    cases hr

/-- The loop lists nothing by itself. -/
private theorem length_rest {fuel : ℕ} {merged : FbRect} {index : ℕ}
    {result : ScanResult} (h : scan fuel rects merged index = some result) :
    result.rest.length ≤ rects.length := by
  induction fuel generalizing rects merged index with
  | zero => cases h
  | succ fuel ih =>
    rw [scan] at h
    split at h
    · obtain rfl := Option.some.inj h
      exact le_rfl
    split at h
    · obtain rfl := Option.some.inj h
      exact le_rfl
    split at h
    · have hlength := length_swapRemove rects index
      have hle := ih h
      omega
    · exact ih h

/-- `add` keeps the invariant and every pending pixel, and covers the new rectangle. -/
theorem add_spec {width height : UInt16} {damage : Damage} {rect : FbRect}
    (hdamage : damage.WellFormed width height) (hrect : rect.Inside width height) :
    (damage.add rect).WellFormed width height ∧
      ∀ px py, damage.Covers px py ∨ rect.Has px py → (damage.add rect).Covers px py := by
  rw [add]
  split
  · next hempty =>
    refine ⟨hdamage, ?_⟩
    rintro px py (hcovers | hhas)
    · exact hcovers
    · exact absurd hhas (FbRect.not_has_of_empty hempty px py)
  obtain ⟨result, hresult⟩ := scan_terminates damage.rects rect
  have hscan := hresult _ le_rfl
  obtain ⟨hcovers, hinside⟩ := scan_spec hscan hdamage.inside hrect
  have hlength := length_rest hscan
  have hbound := hdamage.length_le
  rw [hscan]
  cases result with
  | contained rects => exact ⟨⟨le_trans hlength hbound, hinside⟩, hcovers⟩
  | merged rects merged =>
    dsimp only
    split
    · obtain ⟨hcovers', hinside', hlength'⟩ := bounds_spec hinside
      exact ⟨⟨le_trans hlength' (by decide), hinside'⟩,
        fun px py h => hcovers' px py (hcovers px py h)⟩
    · next hle => exact ⟨⟨not_lt.mp hle, hinside⟩, hcovers⟩

end Damage

/-! ## Every run -/

inductive DamageCall where
  | add (rect : FbRect)
  | take
  | clear
deriving DecidableEq

def DamageCall.apply (damage : Damage) : DamageCall → Damage
  | add rect => damage.add rect
  | take => damage.take.2
  | clear => damage.clear

def damageAfter (calls : List DamageCall) : Damage := calls.foldl DamageCall.apply .empty

/-- The rectangles added since the last `take` or `clear`. -/
def pendingRects (calls : List DamageCall) : List FbRect :=
  calls.foldl (fun pending call =>
    match call with
    | .add rect => pending ++ [rect]
    | .take | .clear => []) []

/-- The invariant of a run: the damage is well formed and covers the pending rectangles. -/
private theorem damageAfter_spec {width height : UInt16} {calls : List DamageCall}
    (hcalls : ∀ rect, DamageCall.add rect ∈ calls → rect.Inside width height) :
    (damageAfter calls).WellFormed width height ∧
      ∀ px py, CoveredBy (pendingRects calls) px py → (damageAfter calls).Covers px py := by
  induction calls using List.reverseRecOn with
  | nil =>
    refine ⟨Damage.wellFormed_empty width height, ?_⟩
    rintro px py ⟨r, hr, -⟩
    cases hr
  | append_singleton calls call ih =>
    obtain ⟨hwf, hcovers⟩ := ih fun rect hrect => hcalls rect (mem_append_left _ hrect)
    rw [damageAfter, pendingRects, foldl_concat, foldl_concat]
    cases call with
    | add rect =>
      obtain ⟨hwf', hcovers'⟩ := Damage.add_spec hwf
        (hcalls rect (mem_append_right _ mem_cons_self))
      refine ⟨hwf', ?_⟩
      rintro px py ⟨r, hr, hhas⟩
      rcases mem_append.mp hr with hr | hr
      · exact hcovers' px py (.inl (hcovers px py ⟨r, hr, hhas⟩))
      · rw [mem_singleton.mp hr] at hhas
        exact hcovers' px py (.inr hhas)
    | take =>
      refine ⟨Damage.wellFormed_empty width height, ?_⟩
      rintro px py ⟨r, hr, -⟩
      cases hr
    | clear =>
      refine ⟨Damage.wellFormed_empty width height, ?_⟩
      rintro px py ⟨r, hr, -⟩
      cases hr

/-- After every run with rectangles of the frame, every pixel of a pending rectangle is listed, the
list is bounded and stays in the frame, unions lose nothing to the cast, and `add` ends. -/
theorem pending_damage_not_lost (width height : UInt16) (calls : List DamageCall)
    (hcalls : ∀ rect, DamageCall.add rect ∈ calls → rect.Inside width height) :
    (∀ rect ∈ pendingRects calls, ∀ px py, rect.Has px py → (damageAfter calls).Covers px py) ∧
    (damageAfter calls).rects.length ≤ maxDamageRects ∧
    (∀ r ∈ (damageAfter calls).rects, r.Inside width height) ∧
    (∀ r s : FbRect, r.Inside width height → s.Inside width height →
      (r.union s).right = max r.right s.right ∧ (r.union s).bottom = max r.bottom s.bottom) ∧
    (∀ rect, ∃ result, ∀ fuel, scanFuel (damageAfter calls).rects.length ≤ fuel →
      scan fuel (damageAfter calls).rects rect 0 = some result) := by
  obtain ⟨hwf, hcovers⟩ := damageAfter_spec hcalls
  exact ⟨fun rect hrect px py hhas => hcovers px py ⟨rect, hrect, hhas⟩, hwf.length_le, hwf.inside,
    fun r s hr hs => ⟨FbRect.union_right hr hs, FbRect.union_bottom hr hs⟩,
    fun rect => scan_terminates _ rect⟩

/-- Two touching tiles of the largest frame the decoder accepts. -/
theorem pending_damage_not_lost_tiles :
    (damageAfter [.add ⟨16352, 0, 16, 16⟩, .add ⟨16368, 0, 16, 16⟩]).Covers 16383 15 :=
  (pending_damage_not_lost 16384 16384 [.add ⟨16352, 0, 16, 16⟩, .add ⟨16368, 0, 16, 16⟩] (by
    intro rect hrect
    rcases mem_cons.mp hrect with h | h
    · cases h
      decide
    · cases mem_singleton.mp h
      decide)).1 ⟨16368, 0, 16, 16⟩ (by decide) 16383 15 (by decide)

end Taomni.Vnc
