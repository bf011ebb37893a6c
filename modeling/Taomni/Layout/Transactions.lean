import Taomni.Layout.MutationEffects
import Taomni.TabPolicy.Model

/-!
# Atomic layout transactions

Reference: `components/editor/workspace/layoutTree/transactions.ts`.

Each transaction changes the tree and the group dictionary independently and returns both.
-/

namespace Taomni.Layout

open TabPolicy (AnyWorkspaceTabPolicy selectActivateOnClose)

/-- Atomic Split Leaf Mutation, with the id counter it leaves behind. -/
def atomicSplitLeaf (clock : ℕ → ℕ) (tree : LayoutNode) (groups : Groups) (leafId : String)
    (orientation : Orientation) (newFileKey customNewLeafId : Option String) (counter : ℕ) :
    LayoutMutationResult × ℕ :=
  match findLeafNode tree leafId with
  | none => (.noOp s!"Target leaf \"{leafId}\" not found in layout tree.", counter)
  | some _ =>
      let (newLeafId, counter) := match customNewLeafId with
        | some id => (id, counter)
        | none => generateLayoutId clock .leaf counter
      match splitLeafNode clock tree leafId orientation newLeafId newFileKey counter with
      | (none, counter) => (.noOp "Tree split failed.", counter)
      | (some newTree, counter) =>
          let newGroup : LayoutEditorGroupState :=
            { id := newLeafId
              openOrder := keysOfNewFile newFileKey
              activeKey := newFileKey
              previewKey := none
              pinnedKeys := [] }
          (.changed newTree (groups.set newLeafId newGroup) newLeafId none, counter)

/-- Validate and commit a layout mutation. -/
def commitLayoutMutation (result : LayoutMutationResult) : LayoutMutationResult :=
  match result with
  | .changed tree groups _ _ =>
      let treeValidation := validateLayoutTree tree.toJson
      if !treeValidation.1 then .failed (.treeInvalid treeValidation.2)
      else
        let errors := validateTreeGroupConsistency tree groups
        if errors ≠ [] then .failed (.inconsistent errors) else result
  | result => result

/-- The group that receives the tabs of a closed leaf, and the keys it did not have. -/
def migrateTabs (targetGroup : LayoutEditorGroupState)
    (closedGroup : Option LayoutEditorGroupState) : LayoutEditorGroupState × List String :=
  match closedGroup with
  | none => (targetGroup, [])
  | some closed =>
      if closed.openOrder = [] then (targetGroup, [])
      else
        let combinedOrder := appendMissing targetGroup.openOrder closed.openOrder
        ({ targetGroup with
            openOrder := combinedOrder
            activeKey := targetGroup.activeKey.or (closed.activeKey.or combinedOrder.head?) },
          combinedOrder.drop targetGroup.openOrder.length)

/-- `targetSiblingId`: the leaf that receives the tabs of a closed leaf. -/
def targetSiblingId (tree : LayoutNode) (leafId : String) : Option String :=
  ((findAdjacentSiblingLeaf tree leafId).map (·.id)).or
    (((getAllLeafNodes tree).find? (·.id ≠ leafId)).map (·.id))

/-- The group of the receiving leaf; a missing one is created from the tree leaf. -/
def destinationGroup (tree : LayoutNode) (groups : Groups) (leafId : String) :
    LayoutEditorGroupState :=
  let destLeafNode := findLeafNode tree leafId
  (groups.get? leafId).getD
    { id := leafId
      openOrder := (destLeafNode.map (·.openFileKeys)).getD []
      activeKey := destLeafNode.bind (·.activeKey)
      previewKey := none
      pinnedKeys := [] }

/-- Write a group's tabs into its leaf. -/
def syncLeaf (tree : LayoutNode) (leafId : String) (group : LayoutEditorGroupState) : LayoutNode :=
  updateLeafInTree tree leafId fun leaf =>
    { leaf with openFileKeys := group.openOrder, activeKey := group.activeKey }

/-- Atomic Close Leaf Mutation: migrates the tabs to the adjacent sibling leaf. -/
def atomicCloseLeaf (tree : LayoutNode) (groups : Groups) (activeGroupId leafId : String) :
    LayoutMutationResult :=
  if (getAllLeafNodes tree).length ≤ 1 then
    .noOp "Cannot close the last remaining editor leaf."
  else
    match findLeafNode tree leafId with
    | none => .noOp s!"Target leaf \"{leafId}\" not found in layout tree."
    | some _ =>
        match (targetSiblingId tree leafId).filter (· ≠ "") with
        | none => .noOp "Cannot determine destination leaf for migration."
        | some targetSiblingId =>
            match closeLeafNode tree leafId with
            | none => .noOp "Tree close leaf resulted in identical tree."
            | some newTree =>
                let nextGroups := groups.delete leafId
                let (destGroup, migratedKeys) := migrateTabs
                  (destinationGroup newTree nextGroups targetSiblingId) (groups.get? leafId)
                let syncedTree := syncLeaf newTree targetSiblingId destGroup
                let nextActiveId := if activeGroupId = leafId then targetSiblingId else activeGroupId
                .changed syncedTree (nextGroups.set targetSiblingId destGroup) nextActiveId
                  (some { destinationLeafId := targetSiblingId, migratedKeys })

/-- Atomic Move Tab Mutation. -/
def atomicMoveTab (tree : LayoutNode) (groups : Groups)
    (sourceLeafId targetLeafId fileKey : String) : LayoutMutationResult :=
  if sourceLeafId = targetLeafId then .noOp "Source and target leaf are identical."
  else
    match findLeafNode tree sourceLeafId, findLeafNode tree targetLeafId with
    | some _, some _ =>
        match (groups.get? sourceLeafId).filter (fileKey ∈ ·.openOrder) with
        | none => .noOp s!"File \"{fileKey}\" not found in source leaf \"{sourceLeafId}\"."
        | some sourceGroup =>
            match moveTabBetweenLeaves tree sourceLeafId targetLeafId fileKey with
            | none => .noOp "moveTabBetweenLeaves returned unchanged tree."
            | some newTree =>
                let targetGroup := (groups.get? targetLeafId).getD (.fresh targetLeafId)
                let nextSource := sourceGroup.withoutTab fileKey
                  (activeAfterRemoval sourceGroup.openOrder sourceGroup.activeKey fileKey)
                let nextTarget := targetGroup.withTab fileKey
                .changed newTree ((groups.set sourceLeafId nextSource).set targetLeafId nextTarget)
                  targetLeafId none
    | _, _ => .noOp "Source or target leaf not found in tree."

/-- Atomic Set Leaf Active Tab Mutation. -/
def atomicSetLeafActiveTab (tree : LayoutNode) (groups : Groups) (activeGroupId leafId : String)
    (fileKey : Option String) : LayoutMutationResult :=
  match findLeafNode tree leafId with
  | none => .noOp s!"Leaf \"{leafId}\" not found in tree."
  | some _ =>
      let group := groups.get? leafId
      if group.any fun g => fileKey.any (· ∉ g.openOrder) then
        let shown := fileKey.getD ""
        .noOp s!"File \"{shown}\" not in group \"{leafId}\"."
      else if group.any (fun g => g.activeKey = fileKey) ∧ activeGroupId = leafId then
        .noOp "Tab is already active."
      else
        let newTree := (setLeafActiveTab tree leafId fileKey).getD tree
        let nextGroup := { group.getD (.fresh leafId) with activeKey := fileKey }
        .changed newTree (groups.set leafId nextGroup) leafId none

/-- The tab a group activates when one of its tabs is closed, under the policy if there is one. -/
def activeAfterClose (group : LayoutEditorGroupState) (fileKey : String)
    (policy : Option AnyWorkspaceTabPolicy) (lastUsedByKey : Option (Record JsNumber)) :
    Option String :=
  match policy with
  | some policy =>
      selectActivateOnClose group.openOrder fileKey group.activeKey (lastUsedByKey.getD .empty) policy
  | none => activeAfterRemoval group.openOrder group.activeKey fileKey

/-- Atomic Close Tab in Leaf Mutation. -/
def atomicCloseTabInLeaf (tree : LayoutNode) (groups : Groups) (activeGroupId leafId fileKey : String)
    (policy : Option AnyWorkspaceTabPolicy) (lastUsedByKey : Option (Record JsNumber)) :
    LayoutMutationResult :=
  match findLeafNode tree leafId, (groups.get? leafId).filter (fileKey ∈ ·.openOrder) with
  | some _, some group =>
      let nextGroup := group.withoutTab fileKey (activeAfterClose group fileKey policy lastUsedByKey)
      let newTree := syncLeaf tree leafId nextGroup
      let nextGroups := groups.set leafId nextGroup
      -- an emptied active leaf hands the active group to a leaf that still has tabs
      let nextActiveGroupId :=
        if activeGroupId = leafId ∧ nextGroup.openOrder = [] then
          ((leafIds newTree).find? fun candidateId =>
            (nextGroups.get? candidateId).any fun g => g.openOrder ≠ []).getD activeGroupId
        else activeGroupId
      .changed newTree nextGroups nextActiveGroupId none
  | _, _ => .noOp s!"File \"{fileKey}\" not found in leaf \"{leafId}\"."

/-! ## What a changed result consists of -/

section Inversion

variable {clock : ℕ → ℕ} {tree tree' : LayoutNode} {groups groups' : Groups}
  {activeGroupId activeGroupId' leafId fileKey : String} {migration : Option LayoutMigration}

theorem atomicSplitLeaf_changed {orientation : Orientation}
    {newFileKey customNewLeafId : Option String} {counter : ℕ}
    (h : (atomicSplitLeaf clock tree groups leafId orientation newFileKey customNewLeafId counter).1
      = .changed tree' groups' activeGroupId' migration) :
    ∃ newLeafId finalNewLeafId counter', leafId ∈ leafIds tree ∧
      tree' = (splitLeafRec clock leafId orientation
        { id := finalNewLeafId, openFileKeys := keysOfNewFile newFileKey, activeKey := newFileKey }
        tree counter').1 ∧
      groups' = groups.set newLeafId
        { id := newLeafId
          openOrder := keysOfNewFile newFileKey
          activeKey := newFileKey
          previewKey := none
          pinnedKeys := [] } ∧
      activeGroupId' = newLeafId ∧
      (customNewLeafId = none → newLeafId = (generateLayoutId clock .leaf counter).1 ∧
        (newLeafId ∉ leafIds tree → finalNewLeafId = newLeafId ∧ counter' = counter + 1)) := by
  simp only [atomicSplitLeaf] at h
  cases hfind : findLeafNode tree leafId with
  | none => simp [hfind] at h
  | some leaf =>
    obtain ⟨hmem, rfl⟩ := findLeafNode_some hfind
    simp only [hfind, splitLeafNode] at h
    obtain ⟨rfl, rfl, rfl, -⟩ := LayoutMutationResult.changed.inj h
    refine ⟨_, _, _, List.mem_map_of_mem hmem, rfl, rfl, rfl, ?_⟩
    rintro rfl
    refine ⟨rfl, fun hnot => ?_⟩
    simp only [if_neg hnot, true_and]
    rfl

theorem atomicCloseLeaf_changed (h : atomicCloseLeaf tree groups activeGroupId leafId
      = .changed tree' groups' activeGroupId' migration) :
    ∃ leaf target newTree destGroup, findLeafNode tree leafId = some leaf ∧
      targetSiblingId tree leafId = some target ∧ closeLeafNode tree leafId = some newTree ∧
      destGroup = (migrateTabs (destinationGroup newTree (groups.delete leafId) target)
        (groups.get? leafId)).1 ∧ tree' = syncLeaf newTree target destGroup ∧
      groups' = (groups.delete leafId).set target destGroup ∧
      activeGroupId' = (if activeGroupId = leafId then target else activeGroupId) ∧
      migration.map (·.destinationLeafId) = some target := by
  rw [atomicCloseLeaf] at h
  split at h
  · cases h
  cases hfind : findLeafNode tree leafId with
  | none => simp [hfind] at h
  | some leaf =>
  cases htarget : (targetSiblingId tree leafId).filter (· ≠ "") with
  | none => simp only [hfind, htarget] at h; cases h
  | some target =>
  cases hclose : closeLeafNode tree leafId with
  | none => simp only [hfind, htarget, hclose] at h; cases h
  | some newTree =>
    simp only [hfind, htarget, hclose] at h
    obtain ⟨rfl, rfl, rfl, rfl⟩ := LayoutMutationResult.changed.inj h
    exact ⟨leaf, target, newTree, _, rfl, (Option.filter_eq_some_iff.mp htarget).1, rfl, rfl, rfl,
      rfl, rfl, rfl⟩

theorem atomicMoveTab_changed {sourceLeafId targetLeafId : String}
    (h : atomicMoveTab tree groups sourceLeafId targetLeafId fileKey
      = .changed tree' groups' activeGroupId' migration) :
    ∃ source target sourceGroup, sourceLeafId ≠ targetLeafId ∧
      findLeafNode tree sourceLeafId = some source ∧ findLeafNode tree targetLeafId = some target ∧
      groups.get? sourceLeafId = some sourceGroup ∧ fileKey ∈ sourceGroup.openOrder ∧
      fileKey ∈ source.openFileKeys ∧
      tree' = tree.mapLeaves (moveTabUpdate sourceLeafId targetLeafId fileKey) ∧
      groups' = (groups.set sourceLeafId (sourceGroup.withoutTab fileKey
          (activeAfterRemoval sourceGroup.openOrder sourceGroup.activeKey fileKey))).set targetLeafId
        (((groups.get? targetLeafId).getD (.fresh targetLeafId)).withTab fileKey) ∧
      activeGroupId' = targetLeafId := by
  rw [atomicMoveTab] at h
  split at h
  · cases h
  next hne =>
  cases hsource : findLeafNode tree sourceLeafId with
  | none => simp [hsource] at h
  | some source =>
  cases htarget : findLeafNode tree targetLeafId with
  | none => simp [hsource, htarget] at h
  | some target =>
  cases hgroup : (groups.get? sourceLeafId).filter (fileKey ∈ ·.openOrder) with
  | none => simp only [hsource, htarget, hgroup] at h; cases h
  | some sourceGroup =>
    obtain ⟨hget, hmem⟩ := Option.filter_eq_some_iff.mp hgroup
    by_cases hopen : fileKey ∈ source.openFileKeys
    · simp only [hsource, htarget, hgroup, moveTabBetweenLeaves, if_neg hne, hopen,
        not_true_eq_false, if_false] at h
      obtain ⟨rfl, rfl, rfl, -⟩ := LayoutMutationResult.changed.inj h
      exact ⟨source, target, sourceGroup, hne, rfl, rfl, hget, of_decide_eq_true hmem, hopen, rfl,
        rfl, rfl⟩
    · simp only [hsource, htarget, hgroup, moveTabBetweenLeaves, if_neg hne, hopen,
        not_false_eq_true, if_true] at h
      cases h

theorem atomicCloseTabInLeaf_changed {policy : Option AnyWorkspaceTabPolicy}
    {lastUsedByKey : Option (Record JsNumber)}
    (h : atomicCloseTabInLeaf tree groups activeGroupId leafId fileKey policy lastUsedByKey
      = .changed tree' groups' activeGroupId' migration) :
    ∃ leaf group nextGroup, findLeafNode tree leafId = some leaf ∧
      groups.get? leafId = some group ∧ fileKey ∈ group.openOrder ∧
      nextGroup = group.withoutTab fileKey (activeAfterClose group fileKey policy lastUsedByKey) ∧
      tree' = syncLeaf tree leafId nextGroup ∧ groups' = groups.set leafId nextGroup ∧
      (activeGroupId' = activeGroupId ∨ activeGroupId' ∈ leafIds tree') := by
  rw [atomicCloseTabInLeaf] at h
  cases hfind : findLeafNode tree leafId with
  | none => simp [hfind] at h
  | some leaf =>
  cases hgroup : (groups.get? leafId).filter (fileKey ∈ ·.openOrder) with
  | none => simp only [hfind, hgroup] at h; cases h
  | some group =>
    obtain ⟨hget, hmem⟩ := Option.filter_eq_some_iff.mp hgroup
    simp only [hfind, hgroup] at h
    obtain ⟨rfl, rfl, rfl, -⟩ := LayoutMutationResult.changed.inj h
    refine ⟨leaf, group, _, rfl, hget, of_decide_eq_true hmem, rfl, rfl, rfl, ?_⟩
    split
    · cases hfound : (leafIds _).find? _ with
      | none => exact .inl rfl
      | some candidateId => exact .inr (List.mem_of_find?_eq_some hfound)
    · exact .inl rfl

end Inversion

/-!
# Layout actions of the workspace store

Reference: `stores/codeWorkspace/layout.ts`.

Every action builds a raw mutation from the current instance, passes it through
`commitLayoutMutation` and writes a changed result back. `LayoutOp` lists the actions and
`LayoutState.step` runs one of them.
-/

open TabPolicy (AnyWorkspaceTabPolicy)

/-- The fields of a workspace instance that layout actions read and write. -/
structure CodeWorkspaceUi where
  layoutRevision : ℕ
  layoutTreeV2 : LayoutNode
  editorGroups : Groups
  activeEditorGroupId : String
  splitOrientation : Option Orientation
  openOrder : List String
  activeKey : Option String

/-- An instance beside the module-wide id counter. -/
structure LayoutState where
  ui : CodeWorkspaceUi
  counter : ℕ

/-- One layout action with its arguments. -/
inductive LayoutOp where
  | splitLayoutLeaf (leafId : String) (orientation : Orientation) (newFileKey : Option String)
  | closeLayoutLeaf (leafId : String)
  | moveLayoutTab (sourceLeafId targetLeafId fileKey : String)
  | setLeafActiveTab (leafId : String) (fileKey : Option String)
  | closeLayoutTabInLeaf (leafId fileKey : String) (policy : Option AnyWorkspaceTabPolicy)
      (lastUsedByKey : Option (Record JsNumber))
  | setLayoutNodeRatios (splitId : String) (ratios : List JsNumber)
  | equalizeLayoutRatios (leafId : String)
  | stretchLayoutLeaf (leafId : String) (options : StretchOptions)
  | unsplitAllLayout

/-- The orientation the store mirrors: that of a root split. -/
def rootOrientation : LayoutNode → Option Orientation
  | .leaf _ => none
  | .split _ orientation _ _ => some orientation

/-- A ratio action changes the tree only, or nothing when the reducer kept the reference. -/
def ratioMutation (ui : CodeWorkspaceUi) (nextTree : Option LayoutNode) : LayoutMutationResult :=
  match nextTree with
  | none => .noOp "unchanged"
  | some tree => .changed tree ui.editorGroups ui.activeEditorGroupId none

/-- The pinned tabs of every absorbed leaf that survive the merge. -/
def mergedPinnedKeys (ui : CodeWorkspaceUi) (openOrder : List String) : List String :=
  appendMissing [] (((getAllLeafNodes ui.layoutTreeV2).flatMap fun leaf =>
    ((ui.editorGroups.get? leaf.id).map (·.pinnedKeys)).getD []).filter (· ∈ openOrder))

/-- The mutation `unsplitAllLayout` commits. -/
def unsplitAllMutation (ui : CodeWorkspaceUi) : LayoutMutationResult :=
  match unsplitAllLeaves ui.layoutTreeV2 (some ui.activeEditorGroupId) with
  | none => .noOp "unchanged"
  | some (survivor, openOrder) =>
      let previewCandidate := (ui.editorGroups.get? survivor.id).bind (·.previewKey)
      -- dormant empty groups carry no layout truth and stay as they are
      let dormant := ui.editorGroups.filter fun id group =>
        id ≠ survivor.id ∧ group.openOrder = []
      let nextGroups := dormant.set survivor.id
        { id := survivor.id
          openOrder
          activeKey := survivor.activeKey
          previewKey := previewCandidate.filter (· ∈ openOrder)
          pinnedKeys := mergedPinnedKeys ui openOrder }
      .changed (.leaf survivor) nextGroups survivor.id none

/-- The raw mutation of an action, before `commitLayoutMutation`. -/
def LayoutOp.raw (clock : ℕ → ℕ) (s : LayoutState) : LayoutOp → LayoutMutationResult × ℕ
  | splitLayoutLeaf leafId orientation newFileKey =>
      atomicSplitLeaf clock s.ui.layoutTreeV2 s.ui.editorGroups leafId orientation newFileKey none
        s.counter
  | closeLayoutLeaf leafId =>
      (atomicCloseLeaf s.ui.layoutTreeV2 s.ui.editorGroups s.ui.activeEditorGroupId leafId, s.counter)
  | moveLayoutTab sourceLeafId targetLeafId fileKey =>
      (atomicMoveTab s.ui.layoutTreeV2 s.ui.editorGroups sourceLeafId targetLeafId fileKey, s.counter)
  | setLeafActiveTab leafId fileKey =>
      (atomicSetLeafActiveTab s.ui.layoutTreeV2 s.ui.editorGroups s.ui.activeEditorGroupId leafId
        fileKey, s.counter)
  | closeLayoutTabInLeaf leafId fileKey policy lastUsedByKey =>
      (atomicCloseTabInLeaf s.ui.layoutTreeV2 s.ui.editorGroups s.ui.activeEditorGroupId leafId
        fileKey policy lastUsedByKey, s.counter)
  | setLayoutNodeRatios splitId ratios =>
      (ratioMutation s.ui (updateSplitNodeRatios s.ui.layoutTreeV2 splitId ratios), s.counter)
  | equalizeLayoutRatios leafId =>
      (ratioMutation s.ui (equalizeLeafParentSplit s.ui.layoutTreeV2 leafId), s.counter)
  | stretchLayoutLeaf leafId options =>
      (ratioMutation s.ui (stretchLeafInTree s.ui.layoutTreeV2 leafId options), s.counter)
  | unsplitAllLayout => (unsplitAllMutation s.ui, s.counter)

/-- Write a committed change back. The tab mirror (`openOrder`, `activeKey`) and the orientation
mirror follow the action as the store has it. -/
def LayoutOp.write (ui : CodeWorkspaceUi) (tree : LayoutNode) (groups : Groups)
    (activeGroupId : String) (op : LayoutOp) : CodeWorkspaceUi :=
  let activeGroup := groups.get? activeGroupId
  let next := { ui with
    layoutRevision := ui.layoutRevision + 1
    layoutTreeV2 := tree
    editorGroups := groups
    activeEditorGroupId := activeGroupId }
  match op with
  | splitLayoutLeaf _ orientation _ => { next with splitOrientation := some orientation }
  | closeLayoutLeaf _ | unsplitAllLayout => { next with
      splitOrientation := rootOrientation tree
      openOrder := (activeGroup.map (·.openOrder)).getD ui.openOrder
      activeKey := activeGroup.bind (·.activeKey) }
  | moveLayoutTab .. | setLeafActiveTab .. | closeLayoutTabInLeaf .. => { next with
      openOrder := (activeGroup.map (·.openOrder)).getD ui.openOrder
      activeKey := (activeGroup.bind (·.activeKey)).or ui.activeKey }
  | setLayoutNodeRatios .. | equalizeLayoutRatios _ | stretchLayoutLeaf .. =>
      { ui with layoutRevision := ui.layoutRevision + 1, layoutTreeV2 := tree }

/-- Run one layout action. -/
def LayoutState.step (clock : ℕ → ℕ) (s : LayoutState) (op : LayoutOp) : LayoutState :=
  let (raw, counter) := op.raw clock s
  match commitLayoutMutation raw with
  | .changed tree groups activeGroupId _ => { ui := op.write s.ui tree groups activeGroupId, counter }
  | _ => { s with counter }

end Taomni.Layout
