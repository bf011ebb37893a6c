import Mathlib.Data.List.Sort
import Mathlib.Data.Rat.Floor
import Taomni.Common.Record

/-!
# Editor tab policies

Reference: `components/editor/workspace/tabPolicy/model.ts` and `migration.ts`.

`limitPerLeaf` is an integer in both policy generations: the migration rounds what it reads.
-/

namespace Taomni.TabPolicy

open List

inductive TabOrder where
  | mru
  | alphabetical
  | openOrder
deriving DecidableEq, Repr

namespace TabOrder

/-- The value as `POLICY_ORDERS` spells it. -/
def name : TabOrder → String
  | mru => "mru"
  | alphabetical => "alphabetical"
  | openOrder => "open-order"

def ofName? : String → Option TabOrder
  | "mru" => some mru
  | "alphabetical" => some alphabetical
  | "open-order" => some openOrder
  | _ => none

@[simp] theorem ofName?_name (value : TabOrder) : ofName? value.name = some value := by
  cases value <;> rfl

end TabOrder

inductive OpenPosition where
  | atEnd
  | afterActive
deriving DecidableEq, Repr

namespace OpenPosition

/-- The value as `POLICY_OPEN_POSITIONS` spells it. -/
def name : OpenPosition → String
  | atEnd => "end"
  | afterActive => "after-active"

def ofName? : String → Option OpenPosition
  | "end" => some atEnd
  | "after-active" => some afterActive
  | _ => none

@[simp] theorem ofName?_name (value : OpenPosition) : ofName? value.name = some value := by
  cases value <;> rfl

end OpenPosition

inductive ActivateOnClose where
  | mru
  | left
  | right
deriving DecidableEq, Repr

namespace ActivateOnClose

/-- The value as `POLICY_ACTIVATE_ON_CLOSE` spells it. -/
def name : ActivateOnClose → String
  | mru => "mru"
  | left => "left"
  | right => "right"

def ofName? : String → Option ActivateOnClose
  | "mru" => some mru
  | "left" => some left
  | "right" => some right
  | _ => none

@[simp] theorem ofName?_name (value : ActivateOnClose) : ofName? value.name = some value := by
  cases value <;> rfl

end ActivateOnClose

inductive PinnedRow where
  | same
  | separate
deriving DecidableEq, Repr

namespace PinnedRow

/-- The value as `POLICY_PINNED_ROWS` spells it. -/
def name : PinnedRow → String
  | same => "same"
  | separate => "separate"

def ofName? : String → Option PinnedRow
  | "same" => some same
  | "separate" => some separate
  | _ => none

@[simp] theorem ofName?_name (value : PinnedRow) : ofName? value.name = some value := by
  cases value <;> rfl

end PinnedRow

structure WorkspaceTabPolicyV2 where
  limitPerLeaf : ℤ
  order : TabOrder
  openPosition : OpenPosition
  activateOnClose : ActivateOnClose
  pinnedRow : PinnedRow
  previewEnabled : Bool
  reusePreview : Bool
deriving DecidableEq, Repr

structure WorkspaceTabPolicyV3 where
  limitPerLeaf : ℤ
  order : TabOrder
  openPosition : OpenPosition
  activateOnClose : ActivateOnClose
  pinnedRow : PinnedRow
  previewMode : Bool
  reusePreview : Bool
deriving DecidableEq, Repr

/-- `DEFAULT_WORKSPACE_TAB_POLICY_V3`. -/
def defaultWorkspaceTabPolicyV3 : WorkspaceTabPolicyV3 where
  limitPerLeaf := 12
  order := .openOrder
  openPosition := .atEnd
  activateOnClose := .mru
  pinnedRow := .same
  previewMode := true
  reusePreview := true

/-- Helpers accept either generation: they only read shared fields. -/
inductive AnyWorkspaceTabPolicy where
  | v2 (policy : WorkspaceTabPolicyV2)
  | v3 (policy : WorkspaceTabPolicyV3)
deriving DecidableEq, Repr

namespace AnyWorkspaceTabPolicy

def limitPerLeaf : AnyWorkspaceTabPolicy → ℤ
  | v2 policy => policy.limitPerLeaf
  | v3 policy => policy.limitPerLeaf

def activateOnClose : AnyWorkspaceTabPolicy → ActivateOnClose
  | v2 policy => policy.activateOnClose
  | v3 policy => policy.activateOnClose

end AnyWorkspaceTabPolicy

/-- Metadata the eviction decision needs for one open tab. -/
structure TabEvictionMeta where
  key : String
  dirty : Bool
  pinned : Bool
  preview : Bool
  lastUsedAt : ℤ
deriving DecidableEq, Repr

inductive TabEvictionResult where
  | withinLimit
  | evicted (evictedKeys : List String)
  | overLimitProtected (reason : String)
deriving DecidableEq, Repr

/-!
# Repairing a persisted tab policy

Reference: `components/editor/workspace/tabPolicy/migration.ts`.

Every field is picked on its own and falls back to its default; the names of repaired fields are
listed in the order the source pushes them.
-/

/-! ## Picking one field -/

/-- A picked value and the fields repaired for it. -/
abbrev Picked (α : Type) := α × List String

/-- `pickEnum`: a string that names one of the allowed values. -/
def pickEnum {α : Type} (source : Json) (field : String) (ofName? : String → Option α)
    (fallback : α) : Picked α :=
  match ((source.get? field).bind Json.string?).bind ofName? with
  | some value => (value, [])
  | none => (fallback, [field])

/-- `Math.min(max, Math.max(min, Math.round(value)))`. `Math.round` takes halves up. -/
def clampRound (value : ℚ) (min max : ℤ) : ℤ := Min.min max (Max.max min ⌊value + 1 / 2⌋)

/-- `pickNumber`: a finite number, rounded and clamped. -/
def pickNumber (source : Json) (field : String) (fallback min max : ℤ) : Picked ℤ :=
  match source.get? field with
  | some (.num (.finite value)) =>
      let clamped := clampRound value min max
      (clamped, if (clamped : ℚ) ≠ value then [field] else [])
  | _ => (fallback, [field])

/-- `pickBoolean`. -/
def pickBoolean (source : Json) (field : String) (fallback : Bool) : Picked Bool :=
  match source.get? field with
  | some (.bool value) => (value, [])
  | _ => (fallback, [field])

/-- The preview flag, which v2 payloads carry as `previewEnabled`. -/
def pickPreviewMode (source : Json) : Picked Bool :=
  let previewMode := pickBoolean source "previewMode" defaultWorkspaceTabPolicyV3.previewMode
  match source.get? "previewMode", source.get? "previewEnabled" with
  | none, some (.bool previewEnabled) =>
      (previewEnabled, previewMode.2 ++ ["previewMode(migrated-from-v2)"])
  | _, _ => previewMode

/-! ## The whole policy -/

structure MigratedTabPolicy where
  policy : WorkspaceTabPolicyV3
  repairedFields : List String
  backup : Option Json

/-- `value === 3`. -/
def isThree : Option Json → Bool
  | some (.num (.finite value)) => value = 3
  | _ => false

/-- The policy read from the fields of an object. -/
def pickPolicy (source : Json) : Picked WorkspaceTabPolicyV3 :=
  let previewMode := pickPreviewMode source
  let limitPerLeaf :=
    pickNumber source "limitPerLeaf" defaultWorkspaceTabPolicyV3.limitPerLeaf 1 100
  let order := pickEnum source "order" TabOrder.ofName? defaultWorkspaceTabPolicyV3.order
  let openPosition := pickEnum source "openPosition" OpenPosition.ofName?
    defaultWorkspaceTabPolicyV3.openPosition
  let activateOnClose := pickEnum source "activateOnClose" ActivateOnClose.ofName?
    defaultWorkspaceTabPolicyV3.activateOnClose
  let pinnedRow :=
    pickEnum source "pinnedRow" PinnedRow.ofName? defaultWorkspaceTabPolicyV3.pinnedRow
  let reusePreview := pickBoolean source "reusePreview" defaultWorkspaceTabPolicyV3.reusePreview
  ({ limitPerLeaf := limitPerLeaf.1
     order := order.1
     openPosition := openPosition.1
     activateOnClose := activateOnClose.1
     pinnedRow := pinnedRow.1
     previewMode := previewMode.1
     reusePreview := reusePreview.1 },
    previewMode.2 ++ (if isThree (source.get? "schemaVersion") then [] else ["schemaVersion"])
      ++ limitPerLeaf.2 ++ order.2 ++ openPosition.2 ++ activateOnClose.2 ++ pinnedRow.2
      ++ reusePreview.2)

/-- Accept persisted JSON of any shape. The raw payload is the backup when anything was repaired. -/
def migrateWorkspaceTabPolicy (raw : Json) : MigratedTabPolicy :=
  match raw with
  | .obj fields =>
      let (policy, repairedFields) := pickPolicy (.obj fields)
      { policy, repairedFields, backup := if repairedFields = [] then none else some (.obj fields) }
  | raw => { policy := defaultWorkspaceTabPolicyV3, repairedFields := ["*"], backup := some raw }

/-! ## What a migrated policy looks like -/

/-- The limits a policy may ask for. -/
def WorkspaceTabPolicyV3.LimitOk (policy : WorkspaceTabPolicyV3) : Prop :=
  1 ≤ policy.limitPerLeaf ∧ policy.limitPerLeaf ≤ 100

theorem clampRound_mem {value : ℚ} {min max : ℤ} (h : min ≤ max) :
    min ≤ clampRound value min max ∧ clampRound value min max ≤ max := by
  rw [clampRound]
  omega

theorem clampRound_intCast {value min max : ℤ} (hmin : min ≤ value) (hmax : value ≤ max) :
    clampRound value min max = value := by
  have hround : ⌊(value : ℚ) + 1 / 2⌋ = value := by
    rw [Int.floor_eq_iff]
    constructor <;> norm_num
  rw [clampRound, hround]
  omega

/-- Whatever is read, the limit lands in its range. -/
theorem limitOk_migrateWorkspaceTabPolicy (raw : Json) :
    (migrateWorkspaceTabPolicy raw).policy.LimitOk := by
  have hdefault : defaultWorkspaceTabPolicyV3.LimitOk := by
    constructor <;> decide
  cases raw with
  | obj fields =>
    show 1 ≤ (pickNumber _ _ _ _ _).1 ∧ (pickNumber _ _ _ _ _).1 ≤ 100
    rw [pickNumber]
    split
    · exact clampRound_mem (by decide)
    · exact hdefault
  | _ => exact hdefault

/-- The stored form of a policy. -/
def WorkspaceTabPolicyV3.toJson (policy : WorkspaceTabPolicyV3) : Json :=
  .obj [("schemaVersion", .num (.finite 3)),
    ("limitPerLeaf", .num (.finite policy.limitPerLeaf)),
    ("order", .str policy.order.name),
    ("openPosition", .str policy.openPosition.name),
    ("activateOnClose", .str policy.activateOnClose.name),
    ("pinnedRow", .str policy.pinnedRow.name),
    ("previewMode", .bool policy.previewMode),
    ("reusePreview", .bool policy.reusePreview)]

/-- A stored policy within the limits is read back without a repair. -/
theorem migrateWorkspaceTabPolicy_toJson {policy : WorkspaceTabPolicyV3} (h : policy.LimitOk) :
    migrateWorkspaceTabPolicy policy.toJson = { policy, repairedFields := [], backup := none } := by
  have hlimit := clampRound_intCast h.1 h.2
  simp [migrateWorkspaceTabPolicy, WorkspaceTabPolicyV3.toJson, pickPolicy, pickPreviewMode,
    pickBoolean, pickNumber, pickEnum, isThree, Json.get?, lookup_cons, Json.string?, hlimit]

/-- Whatever was stored, the policy taken from it stays within the limits, and is read again as it is. -/
theorem migrateWorkspaceTabPolicy_stable (raw : Json) : (migrateWorkspaceTabPolicy raw).policy.LimitOk ∧
    migrateWorkspaceTabPolicy (migrateWorkspaceTabPolicy raw).policy.toJson =
      { policy := (migrateWorkspaceTabPolicy raw).policy, repairedFields := [], backup := none } := by
  have hlimit := limitOk_migrateWorkspaceTabPolicy raw
  exact ⟨hlimit, migrateWorkspaceTabPolicy_toJson hlimit⟩

/-!
# Eviction order and the tab that follows a closed one

Reference: `components/editor/workspace/tabPolicy/ordering.ts`.
-/

/-- The comparator of `enforceTabPolicy`: previews first, then clean tabs, then least recent. -/
def compareEviction (left right : TabEvictionMeta) : ℤ :=
  if left.preview ≠ right.preview then (if left.preview then -1 else 1)
  else if left.dirty ≠ right.dirty then (if left.dirty then 1 else -1)
  else left.lastUsedAt - right.lastUsedAt

/-- The tabs that may be evicted, in the order they go. `sort` is stable, so an insertion sort
by the comparator. -/
def evictionCandidates (keys : List String) (metaByKey : Record TabEvictionMeta)
    (allowDirty : Bool) : List TabEvictionMeta :=
  keys.reverse.filterMap metaByKey.get?
    |>.filter (fun entry => if allowDirty then !entry.pinned else !entry.dirty && !entry.pinned)
    |>.insertionSort (fun left right => compareEviction left right ≤ 0)

/-- Evict candidates when `keys` exceeds `policy.limitPerLeaf`. -/
def enforceTabPolicy (keys : List String) (metaByKey : Record TabEvictionMeta)
    (policy : AnyWorkspaceTabPolicy) (allowDirty : Bool) : TabEvictionResult :=
  if policy.limitPerLeaf ≤ 0 ∨ (keys.length : ℤ) ≤ policy.limitPerLeaf then .withinLimit
  else
    let overflow := ((keys.length : ℤ) - policy.limitPerLeaf).toNat
    let evictable := (evictionCandidates keys metaByKey allowDirty).take overflow
    if evictable = [] then
      .overLimitProtected (s!"Tab limit ({policy.limitPerLeaf}) reached with no closable tab "
        ++ "— all tabs are pinned or have unsaved changes")
    else .evicted (evictable.map TabEvictionMeta.key)

/-- The keys a decision evicts. -/
def TabEvictionResult.keys : TabEvictionResult → List String
  | evicted evictedKeys => evictedKeys
  | _ => []

variable {keys : List String}

variable {metaByKey : Record TabEvictionMeta}

/-- A candidate is the metadata of a listed tab, and its flags allow the eviction. -/
theorem mem_evictionCandidates {allowDirty : Bool} {entry : TabEvictionMeta}
    (h : entry ∈ evictionCandidates keys metaByKey allowDirty) :
    (∃ key ∈ keys, metaByKey.get? key = some entry) ∧ entry.pinned = false ∧
      (allowDirty = false → entry.dirty = false) := by
  obtain ⟨hmem, hallowed⟩ := mem_filter.mp ((mem_insertionSort _).mp h)
  obtain ⟨key, hkey, hget⟩ := mem_filterMap.mp hmem
  refine ⟨⟨key, mem_reverse.mp hkey, hget⟩, ?_⟩
  cases allowDirty <;> simp_all

variable {policy : AnyWorkspaceTabPolicy}

theorem mem_enforceTabPolicy {allowDirty : Bool} {k : String}
    (h : k ∈ (enforceTabPolicy keys metaByKey policy allowDirty).keys) :
    ∃ entry ∈ evictionCandidates keys metaByKey allowDirty, entry.key = k := by
  rw [enforceTabPolicy] at h
  split at h
  · cases h
  dsimp only at h
  split at h
  · cases h
  obtain ⟨entry, hentry, rfl⟩ := mem_map.mp h
  exact ⟨entry, mem_of_mem_take hentry, rfl⟩

/-- One step of the most-recently-used scan: keep the best key and when it was used. -/
def mruStep (lastUsedByKey : Record JsNumber) (best : Option String × JsNumber) (key : String) :
    Option String × JsNumber :=
  let usedAt := (lastUsedByKey.get? key).getD (.finite 0)
  if usedAt.gt best.2 then (some key, usedAt) else best

/-- Which neighbor becomes active after closing `closedKey` under the policy; `none` when the closed
key was not active. -/
def selectActivateOnClose (keys : List String) (closedKey : String) (activeKey : Option String)
    (lastUsedByKey : Record JsNumber) (policy : AnyWorkspaceTabPolicy) : Option String :=
  if activeKey ≠ some closedKey then none
  else
    let remaining := keys.filter (· ≠ closedKey)
    if remaining = [] then none
    else
      match policy.activateOnClose with
      | .left =>
          -- an absent key has index -1, which `Math.max` clamps as well
          let index := (keys.idxOf? closedKey).getD 0
          remaining[index - 1]?.or remaining.head?
      | .right =>
          (keys.idxOf? closedKey).bind fun index => remaining[min index (remaining.length - 1)]?
      | .mru =>
          (remaining.foldl (mruStep lastUsedByKey) (none, .finite (-1))).1.or remaining.head?

private theorem mem_of_foldl_mruStep (lastUsedByKey : Record JsNumber) (remaining : List String)
    (best : Option String × JsNumber) {key : String}
    (h : (remaining.foldl (mruStep lastUsedByKey) best).1 = some key) :
    best.1 = some key ∨ key ∈ remaining := by
  induction remaining generalizing best with
  | nil => exact .inl h
  | cons k rest ih =>
    rcases ih _ h with hbest | hmem
    · rw [mruStep] at hbest
      split at hbest
      · obtain rfl := Option.some.inj hbest
        exact .inr (by simp)
      · exact .inl hbest
    · exact .inr (by simp [hmem])

/-- The activated tab is one of the survivors. -/
theorem mem_of_selectActivateOnClose {closedKey key : String}
    {activeKey : Option String} {lastUsedByKey : Record JsNumber}
    (h : selectActivateOnClose keys closedKey activeKey lastUsedByKey policy = some key) :
    key ∈ keys.filter (· ≠ closedKey) := by
  rw [selectActivateOnClose] at h
  split at h
  · cases h
  simp only at h
  split at h
  · cases h
  have hhead : ∀ {l : List String}, l.head? = some key → key ∈ l := fun h =>
    mem_of_mem_head? (Option.mem_def.mpr h)
  split at h
  · rcases Option.or_eq_some_iff.mp h with h | ⟨-, h⟩
    · exact mem_of_getElem? h
    · exact hhead h
  · obtain ⟨index, -, h⟩ := Option.bind_eq_some_iff.mp h
    exact mem_of_getElem? h
  · rcases Option.or_eq_some_iff.mp h with h | ⟨-, h⟩
    · rcases mem_of_foldl_mruStep _ _ _ h with h | h
      · cases h
      · exact h
    · exact hhead h

/-- When the active tab is closed, some survivor is activated as long as there is one. -/
theorem exists_selectActivateOnClose {closedKey : String}
    (hclosed : closedKey ∈ keys) (hremaining : keys.filter (· ≠ closedKey) ≠ [])
    (lastUsedByKey : Record JsNumber) (policy : AnyWorkspaceTabPolicy) :
    ∃ key, selectActivateOnClose keys closedKey (some closedKey) lastUsedByKey policy = some key := by
  obtain ⟨first, rest, hsplit⟩ := exists_cons_of_ne_nil hremaining
  rw [selectActivateOnClose, if_neg (not_not.mpr rfl)]
  dsimp only
  rw [if_neg hremaining]
  have hhead : ∀ o : Option String,
      ∃ key, o.or (keys.filter (· ≠ closedKey)).head? = some key := fun o => by
    rw [hsplit]
    cases o with
    | none => exact ⟨first, rfl⟩
    | some key => exact ⟨key, rfl⟩
  split
  · exact hhead _
  · obtain ⟨index, hindex⟩ := Option.ne_none_iff_exists'.mp
      (mt List.idxOf?_eq_none_iff.mp (not_not.mpr hclosed))
    rw [hindex, Option.bind_some]
    refine ⟨_, getElem?_eq_getElem ?_⟩
    have := length_pos_iff.mpr hremaining
    omega
  · exact hhead _

end Taomni.TabPolicy
