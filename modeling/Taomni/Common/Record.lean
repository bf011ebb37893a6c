import Mathlib.Data.List.Basic
import Mathlib.Data.List.Nodup
import Mathlib.Data.Rat.Defs

/-!
# Insertion-ordered records

`Record α` models a JavaScript object used as a dictionary from strings to `α`, together with the
iteration order of `Object.keys` and `Object.entries`: writing an existing key keeps its place,
writing a new key appends it. No key is listed twice, which the structure carries as a field.

Everything a client needs is said by `get?`: `get?_set`, `get?_delete` and `mem_entries_iff`.
-/

namespace Taomni

open List

variable {α β : Type*}

/-- Entries of a dictionary object in iteration order, each key at most once. -/
structure Record (α : Type*) where
  entries : List (String × α)
  nodup : (entries.map Prod.fst).Nodup

namespace Record

variable {r : Record α}

theorem ext {s : Record α} (h : r.entries = s.entries) : r = s := by
  cases r; cases s; simp_all

instance [DecidableEq α] : DecidableEq (Record α) := fun r s =>
  decidable_of_iff (r.entries = s.entries) ⟨ext, fun h => h ▸ rfl⟩

/-- The object with no own property. -/
def empty : Record α := ⟨[], nodup_nil⟩

/-- `Object.keys`. -/
def keys (r : Record α) : List String := r.entries.map Prod.fst

/-- Property access; `none` is `undefined`. -/
def get? (r : Record α) (key : String) : Option α := r.entries.lookup key

/-! ## Association lists -/

/-- Write `key` in place, or append it. -/
def setEntry (key : String) (value : α) : List (String × α) → List (String × α)
  | [] => [(key, value)]
  | (k, v) :: rest => if k = key then (key, value) :: rest else (k, v) :: setEntry key value rest

private theorem map_fst_setEntry (key : String) (value : α) (l : List (String × α)) :
    (setEntry key value l).map Prod.fst =
      if key ∈ l.map Prod.fst then l.map Prod.fst else l.map Prod.fst ++ [key] := by
  induction l with
  | nil => rfl
  | cons e rest ih =>
    obtain ⟨k, v⟩ := e
    by_cases hk : k = key
    · simp [setEntry, hk]
    · have hk' : ¬ key = k := fun h => hk h.symm
      simp only [setEntry, hk, if_false, map_cons, mem_cons, hk', false_or, ih]
      split <;> rfl

variable {k : String}

private theorem lookup_cons_ne {k' : String} (h : k ≠ k') (v : α) (l : List (String × α)) :
    ((k', v) :: l).lookup k = l.lookup k := by
  rw [lookup_cons, beq_eq_false_iff_ne.mpr h]

private theorem lookup_setEntry (key k : String) (value : α) (l : List (String × α)) :
    (setEntry key value l).lookup k = if k = key then some value else l.lookup k := by
  induction l with
  | nil =>
    by_cases hk : k = key
    · simp [setEntry, hk]
    · rw [setEntry, lookup_cons_ne hk, if_neg hk]
  | cons e rest ih =>
    obtain ⟨k', v⟩ := e
    by_cases hk' : k' = key
    · subst hk'
      by_cases hk : k = k'
      · simp [setEntry, hk]
      · rw [setEntry, if_pos rfl, lookup_cons_ne hk, lookup_cons_ne hk, if_neg hk]
    · rw [setEntry, if_neg hk']
      by_cases hkk : k = k'
      · subst hkk; simp [hk']
      · rw [lookup_cons_ne hkk, lookup_cons_ne hkk, ih]

variable {v : α}

theorem lookup_eq_some_iff {l : List (String × α)} (hl : (l.map Prod.fst).Nodup)
    : l.lookup k = some v ↔ (k, v) ∈ l := by
  induction l with
  | nil => simp
  | cons e rest ih =>
    obtain ⟨k', v'⟩ := e
    simp only [map_cons, nodup_cons] at hl
    by_cases hk : k = k'
    · subst hk
      have hnot : (k, v) ∉ rest := fun h => hl.1 (mem_map.mpr ⟨_, h, rfl⟩)
      simp [hnot, eq_comm]
    · rw [lookup_cons_ne hk, ih hl.2]
      simp [hk]

/-! ## Operations -/

/-- Property write `r[key] = value`. -/
def set (r : Record α) (key : String) (value : α) : Record α where
  entries := setEntry key value r.entries
  nodup := by
    rw [map_fst_setEntry]
    split
    · exact r.nodup
    · exact nodup_append.mpr ⟨r.nodup, nodup_singleton _, by
        intro a ha b hb; simp only [mem_singleton] at hb; subst hb; rintro rfl; contradiction⟩

/-- `delete r[key]`. -/
def delete (r : Record α) (key : String) : Record α where
  entries := r.entries.filter (fun e => e.1 ≠ key)
  nodup := r.nodup.sublist (filter_sublist.map Prod.fst)

/-- The entries that satisfy `p`, in order. -/
def filter (r : Record α) (p : String → α → Bool) : Record α where
  entries := r.entries.filter (fun e => p e.1 e.2)
  nodup := r.nodup.sublist (filter_sublist.map Prod.fst)

/-- The same keys in the same order, each value rewritten. -/
def mapValues (r : Record α) (f : String → α → β) : Record β where
  entries := r.entries.map (fun e => (e.1, f e.1 e.2))
  nodup := by
    rw [map_map]
    exact r.nodup

/-- An object literal with computed keys: later entries overwrite earlier ones. -/
def ofEntries (entries : List (String × α)) : Record α :=
  entries.foldl (fun r e => r.set e.1 e.2) empty

/-! ## Reading back -/

theorem get?_eq_some_iff : r.get? k = some v ↔ (k, v) ∈ r.entries := lookup_eq_some_iff r.nodup

theorem get?_eq_none_iff : r.get? k = none ↔ k ∉ r.keys := by
  rw [Option.eq_none_iff_forall_ne_some, keys, mem_map]
  constructor
  · rintro h ⟨⟨k', v⟩, hmem, rfl⟩
    exact h v (get?_eq_some_iff.mpr hmem)
  · intro h v hv
    exact h ⟨(k, v), get?_eq_some_iff.mp hv, rfl⟩

@[simp] theorem get?_set (r : Record α) (key k : String) (value : α) :
    (r.set key value).get? k = if k = key then some value else r.get? k :=
  lookup_setEntry key k value r.entries

theorem get?_set_self (r : Record α) (key : String) (value : α) :
    (r.set key value).get? key = some value := by simp

theorem get?_set_ne (r : Record α) {key : String} (value : α) (h : k ≠ key) :
    (r.set key value).get? k = r.get? k := by simp [h]

@[simp] theorem get?_delete (r : Record α) (key k : String) :
    (r.delete key).get? k = if k = key then none else r.get? k := by
  by_cases hk : k = key
  · rw [if_pos hk, get?_eq_none_iff]
    simp [keys, delete, hk]
  · rw [if_neg hk]
    refine Option.ext fun v => ?_
    rw [get?_eq_some_iff, get?_eq_some_iff]
    simp [delete, hk]

theorem get?_filter (r : Record α) (p : String → α → Bool) (k : String) :
    (r.filter p).get? k = (r.get? k).filter (p k) := by
  refine Option.ext fun v => ?_
  rw [get?_eq_some_iff, Option.filter_eq_some_iff, get?_eq_some_iff]
  simp [filter]

theorem get?_mapValues (r : Record α) (f : String → α → β) (k : String) :
    (r.mapValues f).get? k = (r.get? k).map (f k) := by
  refine Option.ext fun v => ?_
  rw [get?_eq_some_iff, Option.map_eq_some_iff]
  simp only [mapValues, mem_map, Prod.mk.injEq, Prod.exists]
  constructor
  · rintro ⟨k', w, hmem, rfl, rfl⟩
    exact ⟨w, get?_eq_some_iff.mpr hmem, rfl⟩
  · rintro ⟨w, hw, rfl⟩
    exact ⟨k, w, get?_eq_some_iff.mp hw, rfl, rfl⟩

theorem mem_entries_iff {e : String × α} :
    e ∈ r.entries ↔ r.get? e.1 = some e.2 := (get?_eq_some_iff (r := r)).symm

variable {entries : List (String × α)}

private theorem mem_of_get?_foldl_set
    (h : (entries.foldl (fun r e => r.set e.1 e.2) r).get? k = some v) :
    r.get? k = some v ∨ (k, v) ∈ entries := by
  induction entries generalizing r with
  | nil => exact .inl h
  | cons e rest ih =>
    rcases ih h with h | h
    · rw [get?_set] at h
      split at h
      · next hk =>
        obtain rfl := Option.some.inj h
        exact .inr (by simp [hk])
      · exact .inl h
    · exact .inr (mem_cons_of_mem _ h)

/-- A value read back was one of the entries. -/
theorem mem_of_get?_ofEntries (h : (ofEntries entries).get? k = some v) : (k, v) ∈ entries := by
  rcases mem_of_get?_foldl_set h with h | h
  · cases h
  · exact h

private theorem exists_get?_foldl_set (h : (∃ v, r.get? k = some v) ∨ ∃ v, (k, v) ∈ entries) :
    ∃ v, (entries.foldl (fun r e => r.set e.1 e.2) r).get? k = some v := by
  induction entries generalizing r with
  | nil => exact h.resolve_right fun ⟨v, hv⟩ => not_mem_nil hv
  | cons e rest ih =>
    refine ih ?_
    by_cases hk : k = e.1
    · exact .inl ⟨e.2, by rw [get?_set, if_pos hk]⟩
    · rcases h with ⟨v, hv⟩ | ⟨v, hv⟩
      · exact .inl ⟨v, by rw [get?_set_ne r e.2 hk, hv]⟩
      · exact .inr ⟨v, (mem_cons.mp hv).resolve_left fun heq => hk (congrArg Prod.fst heq)⟩

/-- A key with one value among the entries has that value. -/
theorem get?_ofEntries (hmem : (k, v) ∈ entries)
    (h : ∀ w, (k, w) ∈ entries → w = v) : (ofEntries entries).get? k = some v := by
  obtain ⟨w, hw⟩ : ∃ w, (ofEntries entries).get? k = some w := exists_get?_foldl_set (.inr ⟨v, hmem⟩)
  rw [hw, h w (mem_of_get?_ofEntries hw)]

end Record

end Taomni

/-!
# JSON values at run time

What `JSON.parse` returns, and the tests the source makes on values of type `unknown`. A missing
property reads as `undefined`, here `none`. Numbers are exact rationals; an overflowing literal such
as `1e999` parses to `JsNumber.posInfinity`.
-/

namespace Taomni

/-- A JavaScript number: an exact rational or one of the three non-finite values. -/
inductive JsNumber where
  | finite (q : ℚ)
  | nan
  | posInfinity
  | negInfinity
deriving DecidableEq

namespace JsNumber

/-- The value behind `Number.isFinite(x)`. -/
def finite? : JsNumber → Option ℚ
  | finite q => some q
  | _ => none

/-- `a > b`, false when either side is `NaN`. -/
def gt : JsNumber → JsNumber → Bool
  | finite a, finite b => b < a
  | nan, _ => false
  | _, nan => false
  | posInfinity, b => b ≠ posInfinity
  | negInfinity, _ => false
  | finite _, b => b = negInfinity

end JsNumber

/-- A JSON value. Object fields are listed in property order. -/
inductive Json where
  | null
  | bool (b : Bool)
  | num (x : JsNumber)
  | str (s : String)
  | arr (elems : List Json)
  | obj (fields : List (String × Json))

namespace Json

/-- Truthy and `typeof value === "object"`: an object or an array. -/
def isObject : Json → Bool
  | arr _ => true
  | obj _ => true
  | _ => false

/-- Property access on a record; `none` is `undefined`. Arrays have none of the properties read. -/
def get? : Json → String → Option Json
  | obj fields, name => fields.lookup name
  | _, _ => none

/-- The string behind `typeof value === "string"`. -/
def string? : Json → Option String
  | str s => some s
  | _ => none

/-- The elements behind `Array.isArray(value)`. -/
def array? : Json → Option (List Json)
  | arr elems => some elems
  | _ => none

/-- `value.filter((k): k is string => typeof k === "string")` on the elements of an array. -/
def strings (elems : List Json) : List String := elems.filterMap string?

@[simp] theorem strings_map_str (keys : List String) : strings (keys.map str) = keys := by
  rw [strings, List.filterMap_map]
  exact List.filterMap_some

end Json

/-! ## Blank strings -/

/-- White space and line terminators, which `String.prototype.trim` removes. -/
def isJsWhitespace (c : Char) : Bool :=
  (0x09 ≤ c.val && c.val ≤ 0x0D) || c.val = 0x20 || c.val = 0xA0 || c.val = 0x1680
    || (0x2000 ≤ c.val && c.val ≤ 0x200A) || c.val = 0x2028 || c.val = 0x2029 || c.val = 0x202F
    || c.val = 0x205F || c.val = 0x3000 || c.val = 0xFEFF

/-- `!s.trim()`. -/
def isBlank (s : String) : Bool := s.toList.all isJsWhitespace

@[simp] theorem isBlank_append (s t : String) : isBlank (s ++ t) = (isBlank s && isBlank t) := by
  rw [isBlank, String.toList_append, List.all_append]
  rfl

end Taomni
