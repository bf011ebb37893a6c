import Taomni.Common.Lists
import Taomni.Layout.Tree
import Taomni.TabPolicy.Model

/-!
# Planning a tab policy change

Reference: `components/editor/workspace/tabPolicy/planning.ts`.

`createTabPolicyPlan` freezes the groups before and after the change, the evicted keys and those of
them that are dirty.
-/

namespace Taomni.TabPolicy

open List
open Layout (LayoutNode)

/-! ## Inputs -/

/-- The fields of an editor group the policy looks at. -/
structure TabPolicyGroup where
  openOrder : List String
  pinnedKeys : List String
  previewKey : Option String
  activeKey : Option String
deriving DecidableEq, Repr

structure TabPolicyGroupImage extends TabPolicyGroup where
  id : String
deriving DecidableEq, Repr

/-- An open buffer; an absent `dirty` reads as false. -/
structure OpenFile where
  dirty : Bool
deriving DecidableEq, Repr

abbrev OpenFiles := Record OpenFile

/-- `!!openFiles[key]?.dirty`. -/
def OpenFiles.dirty (openFiles : OpenFiles) (key : String) : Bool :=
  (openFiles.get? key).any (·.dirty)

structure CreateTabPolicyPlanParams where
  workspaceInstanceId : String
  nextPolicyRaw : Json
  currentPolicy : Option WorkspaceTabPolicyV3
  baseLayoutRevision : ℕ
  currentGroups : Record TabPolicyGroup
  openFiles : OpenFiles
  mruFileKeys : List String
  allowDirtyCandidates : Bool

/-! ## The plan -/

structure TabPolicyPlan where
  workspaceInstanceId : String
  planCreatedAt : ℕ
  baseLayoutRevision : ℕ
  prePolicy : WorkspaceTabPolicyV3
  postPolicy : WorkspaceTabPolicyV3
  preGroups : Record TabPolicyGroupImage
  postGroups : Record TabPolicyGroupImage
  evictionsByGroup : Record (List String)
  allEvictedKeys : List String
  dirtyEvictedKeys : List String
  unreferencedEvictedKeys : List String
  protectedCount : ℕ
  isNoOp : Bool
  requiresConfirmation : Bool
  message : String

/-- `xs.indexOf(x)`. -/
def indexOf (xs : List String) (x : String) : ℤ := (xs.idxOf? x).elim (-1) (↑·)

/-- The metadata of the tabs of one group. -/
def evictionMeta (openFiles : OpenFiles) (mruFileKeys : List String) (group : TabPolicyGroup) :
    Record TabEvictionMeta :=
  .ofEntries (group.openOrder.map fun k =>
    (k,
      { key := k
        dirty := openFiles.dirty k
        pinned := k ∈ group.pinnedKeys
        preview := group.previewKey = some k
        lastUsedAt := 1000000 - indexOf mruFileKeys k }))

/-- The policy a plan works towards: the migrated one with a tighter limit. -/
def normalizedPolicy (nextPolicyRaw : Json) : WorkspaceTabPolicyV3 :=
  let policy := (migrateWorkspaceTabPolicy nextPolicyRaw).policy
  -- `Math.round` keeps the integer limit
  { policy with limitPerLeaf := max 1 (min 50 policy.limitPerLeaf) }

/-- The eviction decision for one group. -/
def groupEviction (params : CreateTabPolicyPlanParams) (group : TabPolicyGroup) :
    TabEvictionResult :=
  enforceTabPolicy group.openOrder (evictionMeta params.openFiles params.mruFileKeys group)
    (.v3 (normalizedPolicy params.nextPolicyRaw)) params.allowDirtyCandidates

/-- A group after its evictions. -/
def groupAfterEviction (id : String) (group : TabPolicyGroup) (evicted : List String) :
    TabPolicyGroupImage :=
  let remainingOpenOrder := group.openOrder.filter (· ∉ evicted)
  -- an empty key is falsy, so it is never treated as evicted
  { id
    openOrder := remainingOpenOrder
    pinnedKeys := group.pinnedKeys.filter (· ∉ evicted)
    activeKey := if group.activeKey.any (fun k => k ≠ "" && k ∈ evicted)
      then remainingOpenOrder.getLast? else group.activeKey
    previewKey := if group.previewKey.any (fun k => k ≠ "" && k ∈ evicted) then none
      else group.previewKey }

/-- Pure plan builder. `now` is what `Date.now()` reads. -/
def createTabPolicyPlan (now : ℕ) (params : CreateTabPolicyPlanParams) : TabPolicyPlan :=
  let currentPolicy := params.currentPolicy.getD defaultWorkspaceTabPolicyV3
  let normalizedPolicy := normalizedPolicy params.nextPolicyRaw
  let groups := params.currentGroups.entries
  let decisions := groups.map fun (groupId, group) => (groupId, groupEviction params group)
  let evictionsByGroup : Record (List String) := .ofEntries (decisions.filterMap fun
    | (groupId, .evicted evictedKeys) => some (groupId, evictedKeys)
    | _ => none)
  let allEvictedKeys := decisions.flatMap fun (_, eviction) => eviction.keys
  let protectedCount := (groups.map fun (_, group) =>
    match groupEviction params group with
    | .overLimitProtected _ => group.openOrder.length
    | _ => 0).sum
  let postGroups : Record TabPolicyGroupImage := .ofEntries (groups.map fun (groupId, group) =>
    (groupId, groupAfterEviction groupId group ((evictionsByGroup.get? groupId).getD [])))
  let uniqueEvictedKeys := appendMissing [] allEvictedKeys
  let dirtyEvictedKeys := uniqueEvictedKeys.filter params.openFiles.dirty
  let remainingKeys := postGroups.entries.flatMap fun (_, group) => group.openOrder
  let policyChanged := currentPolicy ≠ normalizedPolicy
  let evictedCount := uniqueEvictedKeys.length
  { workspaceInstanceId := params.workspaceInstanceId
    planCreatedAt := now
    baseLayoutRevision := params.baseLayoutRevision
    prePolicy := currentPolicy
    postPolicy := normalizedPolicy
    preGroups := .ofEntries (groups.map fun (id, group) => (id, { group with id }))
    postGroups
    evictionsByGroup
    allEvictedKeys := uniqueEvictedKeys
    dirtyEvictedKeys
    unreferencedEvictedKeys := uniqueEvictedKeys.filter (· ∉ remainingKeys)
    protectedCount
    isNoOp := uniqueEvictedKeys = [] ∧ ¬policyChanged
    requiresConfirmation := dirtyEvictedKeys ≠ []
    message :=
      if uniqueEvictedKeys ≠ [] then
        s!"Saved editor tab policy (limit: {normalizedPolicy.limitPerLeaf}, "
          ++ s!"evicted {evictedCount} tabs)"
      else
        s!"Saved editor tab policy (limit: {normalizedPolicy.limitPerLeaf}, "
          ++ s!"order: {normalizedPolicy.order.name})" }

/-- Write the tabs of each group image into its leaf. -/
def applyTabPolicyGroupImagesToLayout (layoutTree : LayoutNode)
    (groups : Record TabPolicyGroupImage) : LayoutNode :=
  groups.entries.foldl (fun nextTree (groupId, group) =>
    (Layout.setLeafTabs nextTree groupId group.openOrder group.activeKey).getD nextTree) layoutTree

/-! ## What gets evicted -/

/-- The metadata under a tab's key describes that tab. -/
theorem evictionMeta_get? {openFiles : OpenFiles} {mruFileKeys : List String}
    {group : TabPolicyGroup} {key : String} {entry : TabEvictionMeta}
    (h : (evictionMeta openFiles mruFileKeys group).get? key = some entry) :
    entry.key = key ∧ entry.dirty = openFiles.dirty key ∧
      entry.pinned = decide (key ∈ group.pinnedKeys) := by
  obtain ⟨k, -, hk⟩ := mem_map.mp (Record.mem_of_get?_ofEntries h)
  obtain ⟨rfl, rfl⟩ := Prod.mk.inj hk
  exact ⟨rfl, rfl, rfl⟩

variable {params : CreateTabPolicyPlanParams}

variable {k : String}

/-- A group loses tabs it had, never pinned ones, and dirty ones only when that is allowed. -/
theorem mem_groupEviction {group : TabPolicyGroup}
    (h : k ∈ (groupEviction params group).keys) : k ∈ group.openOrder ∧ k ∉ group.pinnedKeys ∧
      (params.allowDirtyCandidates = false → params.openFiles.dirty k = false) := by
  obtain ⟨entry, hentry, rfl⟩ := mem_enforceTabPolicy h
  obtain ⟨⟨key, hkey, hget⟩, hpinned, hdirty⟩ := mem_evictionCandidates hentry
  obtain ⟨rfl, hdirtyEq, hpinnedEq⟩ := evictionMeta_get? hget
  refine ⟨hkey, ?_, fun hallow => hdirtyEq ▸ hdirty hallow⟩
  simpa [hpinned] using hpinnedEq

/-- The evicted keys of a plan, and where they come from. -/
theorem mem_allEvictedKeys {now : ℕ} : k ∈ (createTabPolicyPlan now params).allEvictedKeys ↔
      ∃ entry ∈ params.currentGroups.entries, k ∈ (groupEviction params entry.2).keys := by
  simp [createTabPolicyPlan]

theorem mem_dirtyEvictedKeys {now : ℕ} : k ∈ (createTabPolicyPlan now params).dirtyEvictedKeys ↔
      k ∈ (createTabPolicyPlan now params).allEvictedKeys ∧ params.openFiles.dirty k = true :=
  mem_filter

/-!
# The order in which tabs are evicted

Reference: `components/editor/workspace/tabPolicy/planning.ts` and `ordering.ts`.

The evictable tabs of a group fall into four classes: previews before other tabs, and clean tabs before
dirty ones. Within a class the tab goes first whose recency is the least. A plan evicts the front of this
order, as many tabs as the group is over the limit (`groupEviction_keys`).
-/

/-- The class of a tab, in the order of the classes. -/
def TabEvictionMeta.evictionClass (entry : TabEvictionMeta) : ℕ :=
  (if entry.preview then 0 else 2) + (if entry.dirty then 1 else 0)

theorem TabEvictionMeta.evictionClass_eq_iff (left right : TabEvictionMeta) :
    left.evictionClass = right.evictionClass ↔
      left.dirty = right.dirty ∧ left.preview = right.preview := by
  obtain ⟨_, leftDirty, _, leftPreview, _⟩ := left
  obtain ⟨_, rightDirty, _, rightPreview, _⟩ := right
  cases leftDirty <;> cases rightDirty <;> cases leftPreview <;> cases rightPreview <;>
    simp [TabEvictionMeta.evictionClass]

theorem compareEviction_le_iff (left right : TabEvictionMeta) : compareEviction left right ≤ 0 ↔
      left.evictionClass < right.evictionClass ∨
        (left.evictionClass = right.evictionClass ∧ left.lastUsedAt ≤ right.lastUsedAt) := by
  obtain ⟨_, leftDirty, _, leftPreview, leftUsed⟩ := left
  obtain ⟨_, rightDirty, _, rightPreview, rightUsed⟩ := right
  cases leftDirty <;> cases rightDirty <;> cases leftPreview <;> cases rightPreview <;>
    simp [compareEviction, TabEvictionMeta.evictionClass]

section Group

variable (params : CreateTabPolicyPlanParams) (group : TabPolicyGroup)

/-- The metadata of one tab of the group. -/
def tabMeta (k : String) : TabEvictionMeta where
  key := k
  dirty := params.openFiles.dirty k
  pinned := k ∈ group.pinnedKeys
  preview := group.previewKey = some k
  lastUsedAt := 1000000 - indexOf params.mruFileKeys k

/-- The tab is not pinned, and it is clean unless dirty tabs may go. -/
def Evictable (k : String) : Prop :=
  k ∉ group.pinnedKeys ∧ (params.allowDirtyCandidates = true ∨ params.openFiles.dirty k = false)

instance (k : String) : Decidable (Evictable params group k) := inferInstanceAs (Decidable (_ ∧ _))

/-- The evictable tabs, from the right to the left. -/
def evictableTabs : List String := group.openOrder.reverse.filter fun k => Evictable params group k

/-- `a` is not evicted after `b`, as far as the comparator can tell. -/
def EvictLe (a b : String) : Prop :=
  compareEviction (tabMeta params group a) (tabMeta params group b) ≤ 0

instance : DecidableRel (EvictLe params group) := fun _ _ => inferInstanceAs (Decidable (_ ≤ _))

/-- The evictable tabs in the order they go. -/
def evictionOrder : List String := (evictableTabs params group).insertionSort (EvictLe params group)

/-- By how many tabs the group is over the limit. -/
def overflow : ℕ :=
  ((group.openOrder.length : ℤ) - (normalizedPolicy params.nextPolicyRaw).limitPerLeaf).toNat

variable {params group}

theorem evictLe_iff {a b : String} : EvictLe params group a b ↔
      (tabMeta params group a).evictionClass < (tabMeta params group b).evictionClass ∨
        ((tabMeta params group a).evictionClass = (tabMeta params group b).evictionClass ∧
          (tabMeta params group a).lastUsedAt ≤ (tabMeta params group b).lastUsedAt) :=
  compareEviction_le_iff _ _

instance : Std.Total (EvictLe params group) := ⟨fun a b => by rw [evictLe_iff, evictLe_iff]; omega⟩

instance : IsTrans String (EvictLe params group) :=
  ⟨fun a b c => by rw [evictLe_iff, evictLe_iff, evictLe_iff]; omega⟩

theorem evictionMeta_get?_of_mem (h : k ∈ group.openOrder) :
    (evictionMeta params.openFiles params.mruFileKeys group).get? k = some (tabMeta params group k) := by
  refine Record.get?_ofEntries (mem_map.mpr ⟨k, h, rfl⟩) fun w hw => ?_
  obtain ⟨k', -, heq⟩ := mem_map.mp hw
  obtain ⟨rfl, rfl⟩ := Prod.mk.inj heq
  rfl

/-- The candidates are the evictable tabs in order. -/
theorem evictionCandidates_eq :
    evictionCandidates group.openOrder (evictionMeta params.openFiles params.mruFileKeys group)
        params.allowDirtyCandidates = (evictionOrder params group).map (tabMeta params group) := by
  have hmeta : group.openOrder.reverse.filterMap
        (evictionMeta params.openFiles params.mruFileKeys group).get?
      = group.openOrder.reverse.map (tabMeta params group) := by
    rw [← filterMap_eq_map]
    exact filterMap_congr fun k hk => evictionMeta_get?_of_mem (mem_reverse.mp hk)
  have hsort : (evictionOrder params group).map (tabMeta params group) =
      ((evictableTabs params group).map (tabMeta params group)).insertionSort
        fun left right => compareEviction left right ≤ 0 :=
    map_insertionSort _ _ _ _ fun a _ b _ => Iff.rfl
  rw [evictionCandidates, hmeta, filter_map, hsort]
  congr 2
  refine filter_congr fun k _ => ?_
  rw [Function.comp_apply, Bool.eq_iff_iff, decide_eq_true_eq, Evictable]
  dsimp only [tabMeta]
  cases params.allowDirtyCandidates <;> cases params.openFiles.dirty k <;> simp

/-- A plan evicts the front of the order. -/
theorem groupEviction_keys : (groupEviction params group).keys
      = (evictionOrder params group).take (overflow params group) := by
  have hkeys (n : ℕ) : (((evictionOrder params group).map (tabMeta params group)).take n).map
      TabEvictionMeta.key = (evictionOrder params group).take n := by
    rw [← map_take, map_map]
    exact map_id _
  have hlimit : 0 < (normalizedPolicy params.nextPolicyRaw).limitPerLeaf :=
    lt_of_lt_of_le Int.one_pos (le_max_left _ _)
  rw [groupEviction, enforceTabPolicy]
  split
  · next h =>
    have hzero : overflow params group = 0 :=
      Int.toNat_eq_zero.mpr (Int.sub_nonpos_of_le (h.resolve_left (not_le.mpr hlimit)))
    rw [hzero, take_zero]
    rfl
  · rw [evictionCandidates_eq]
    dsimp only
    split
    · next h =>
      have hnil := congrArg (List.map TabEvictionMeta.key) h
      exact (hkeys _).symm.trans hnil |>.symm
    · exact hkeys _

theorem pairwise_evictionOrder (params : CreateTabPolicyPlanParams) (group : TabPolicyGroup) :
    (evictionOrder params group).Pairwise (EvictLe params group) :=
  pairwise_insertionSort _ _

end Group

end Taomni.TabPolicy
