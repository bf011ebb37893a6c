import Taomni.Layout.Invariant

/-!
# Runs of layout actions

`LayoutState.run` performs a list of actions. A run that starts in a good layout stays in one, and
`commitLayoutMutation` rejects none of its mutations, as long as no split is handed the empty string
as its new file and the ids it generates are fresh.
-/

namespace Taomni.Layout

open List

instance (tree : LayoutNode) (groups : Groups) (activeGroupId : String) :
    Decidable (GoodLayout tree groups activeGroupId) :=
  decidable_of_iff ((validateLayoutTree tree.toJson).1 = true ∧
      (∀ leaf ∈ getAllLeafNodes tree, ∀ key ∈ leaf.activeKey, key ∈ leaf.openFileKeys) ∧
      (∀ leaf ∈ getAllLeafNodes tree, leaf.openFileKeys.Nodup) ∧
      validateTreeGroupConsistency tree groups = [] ∧
      (∀ leaf ∈ getAllLeafNodes tree, ∀ group ∈ groups.get? leaf.id,
        group.openOrder = leaf.openFileKeys) ∧
      activeGroupId ∈ leafIds tree)
    ⟨fun ⟨valid, activeKey, nodup, consistent, sameOrder, active⟩ =>
      { valid, activeKey, nodup, consistent, sameOrder, active },
    fun h => ⟨h.valid, h.activeKey, h.nodup, h.consistent, h.sameOrder, h.active⟩⟩

/-- The layout of the instance is good. -/
def LayoutState.Good (s : LayoutState) : Prop :=
  GoodLayout s.ui.layoutTreeV2 s.ui.editorGroups s.ui.activeEditorGroupId

instance (s : LayoutState) : Decidable s.Good := inferInstanceAs (Decidable (GoodLayout _ _ _))

/-- Perform the actions in order. -/
def LayoutState.run (clock : ℕ → ℕ) (s : LayoutState) (ops : List LayoutOp) : LayoutState :=
  ops.foldl (LayoutState.step clock) s

/-- A split names a real file or none. -/
def LayoutOp.NoEmptyNewKey : LayoutOp → Prop
  | splitLayoutLeaf _ _ newFileKey => newFileKey ≠ some ""
  | _ => True

instance : DecidablePred LayoutOp.NoEmptyNewKey
  | .splitLayoutLeaf _ _ newFileKey => inferInstanceAs (Decidable (newFileKey ≠ some ""))
  | .closeLayoutLeaf _ | .moveLayoutTab .. | .setLeafActiveTab .. | .closeLayoutTabInLeaf ..
  | .setLayoutNodeRatios .. | .equalizeLayoutRatios _ | .stretchLayoutLeaf ..
  | .unsplitAllLayout => isTrue trivial

/-- The ids the action generates in this state are fresh. -/
def LayoutOp.FreshIds (clock : ℕ → ℕ) (s : LayoutState) : LayoutOp → Prop
  | splitLayoutLeaf .. => FreshSplitIds clock s.ui.layoutTreeV2 s.counter
  | _ => True

instance (clock : ℕ → ℕ) (s : LayoutState) : DecidablePred (LayoutOp.FreshIds clock s)
  | .splitLayoutLeaf .. => inferInstanceAs (Decidable (FreshSplitIds _ _ _))
  | .closeLayoutLeaf _ | .moveLayoutTab .. | .setLeafActiveTab .. | .closeLayoutTabInLeaf ..
  | .setLayoutNodeRatios .. | .equalizeLayoutRatios _ | .stretchLayoutLeaf ..
  | .unsplitAllLayout => isTrue trivial

/-- Every id generated along the run is fresh when it is generated. -/
def LayoutState.FreshRun (clock : ℕ → ℕ) (s : LayoutState) : List LayoutOp → Prop
  | [] => True
  | op :: ops => op.FreshIds clock s ∧ FreshRun clock (s.step clock op) ops

instance LayoutState.decidableFreshRun (clock : ℕ → ℕ) (s : LayoutState) :
    (ops : List LayoutOp) → Decidable (s.FreshRun clock ops)
  | [] => isTrue trivial
  | op :: ops =>
      have : Decidable ((s.step clock op).FreshRun clock ops) :=
        decidableFreshRun clock (s.step clock op) ops
      inferInstanceAs (Decidable (_ ∧ _))

/-! ## One action -/

variable {tree : LayoutNode}

/-- A good mutation passes both validators unchanged. -/
theorem commitLayoutMutation_changed {groups : Groups} {activeGroupId : String}
    (h : GoodLayout tree groups activeGroupId) (migration : Option LayoutMigration) :
    commitLayoutMutation (.changed tree groups activeGroupId migration)
      = .changed tree groups activeGroupId migration := by
  simp [commitLayoutMutation, h.valid, h.consistent]

variable {s : LayoutState}

variable {op : LayoutOp}

/-- Every action turns a good layout into a good mutation. -/
theorem LayoutOp.raw_good {clock : ℕ → ℕ} (hs : s.Good)
    (hkey : op.NoEmptyNewKey) (hfresh : op.FreshIds clock s) {groups : Groups}
    {activeGroupId : String} {migration : Option LayoutMigration}
    (hraw : (op.raw clock s).1 = .changed tree groups activeGroupId migration) :
    GoodLayout tree groups activeGroupId := by
  cases op with
  | splitLayoutLeaf leafId orientation newFileKey => exact hs.atomicSplitLeaf hkey hfresh hraw
  | closeLayoutLeaf leafId => exact hs.atomicCloseLeaf hraw
  | moveLayoutTab sourceLeafId targetLeafId fileKey => exact hs.atomicMoveTab hraw
  | setLeafActiveTab leafId fileKey => exact hs.atomicSetLeafActiveTab hraw
  | closeLayoutTabInLeaf leafId fileKey policy lastUsedByKey =>
    exact hs.atomicCloseTabInLeaf hraw
  | setLayoutNodeRatios splitId ratios =>
    exact hs.ratioMutation (fun _ h => onlyRatiosChanged_updateSplitNodeRatios h) hraw
  | equalizeLayoutRatios leafId =>
    exact hs.ratioMutation (fun _ h => onlyRatiosChanged_equalizeLeafParentSplit _ _ h) hraw
  | stretchLayoutLeaf leafId options =>
    exact hs.ratioMutation (fun _ h => onlyRatiosChanged_stretchLeafInTree h) hraw
  | unsplitAllLayout => exact hs.unsplitAllMutation hraw

/-- The actions themselves only change the layout or refuse to; rejecting is up to the commit. -/
theorem LayoutOp.raw_isFailed (clock : ℕ → ℕ) (s : LayoutState) (op : LayoutOp) :
    (op.raw clock s).1.isFailed = false := by
  have hratio : ∀ nextTree, (ratioMutation s.ui nextTree).isFailed = false := by
    rintro (_ | _) <;> rfl
  cases op with
  | splitLayoutLeaf leafId orientation newFileKey =>
    simp only [raw, atomicSplitLeaf]
    repeat' split
    all_goals rfl
  | closeLayoutLeaf leafId =>
    simp only [raw, atomicCloseLeaf]
    repeat' split
    all_goals rfl
  | moveLayoutTab sourceLeafId targetLeafId fileKey =>
    simp only [raw, atomicMoveTab]
    repeat' split
    all_goals rfl
  | setLeafActiveTab leafId fileKey =>
    simp only [raw, atomicSetLeafActiveTab]
    repeat' split
    all_goals rfl
  | closeLayoutTabInLeaf leafId fileKey policy lastUsedByKey =>
    simp only [raw, atomicCloseTabInLeaf]
    split <;> rfl
  | setLayoutNodeRatios splitId ratios => exact hratio _
  | equalizeLayoutRatios leafId => exact hratio _
  | stretchLayoutLeaf leafId options => exact hratio _
  | unsplitAllLayout =>
    simp only [raw, unsplitAllMutation]
    split <;> rfl

/-- A ratio action leaves the groups and the active group of its mutation as they were. -/
private theorem ratioMutation_groups {ui : CodeWorkspaceUi} {nextTree : Option LayoutNode}
    {groups : Groups} {activeGroupId : String} {migration : Option LayoutMigration}
    (h : ratioMutation ui nextTree = .changed tree groups activeGroupId migration) :
    groups = ui.editorGroups ∧ activeGroupId = ui.activeEditorGroupId := by
  cases nextTree with
  | none => cases h
  | some _ =>
    obtain ⟨-, hgroups, hactive, -⟩ := LayoutMutationResult.changed.inj h
    exact ⟨hgroups.symm, hactive.symm⟩

/-- What an action writes back is its mutation. -/
theorem LayoutOp.write_layout {clock : ℕ → ℕ}
    {groups : Groups} {activeGroupId : String} {migration : Option LayoutMigration}
    (hraw : (op.raw clock s).1 = .changed tree groups activeGroupId migration) :
    (op.write s.ui tree groups activeGroupId).layoutTreeV2 = tree ∧
      (op.write s.ui tree groups activeGroupId).editorGroups = groups ∧
      (op.write s.ui tree groups activeGroupId).activeEditorGroupId = activeGroupId := by
  cases op with
  | setLayoutNodeRatios splitId ratios =>
    obtain ⟨rfl, rfl⟩ := ratioMutation_groups hraw
    exact ⟨rfl, rfl, rfl⟩
  | equalizeLayoutRatios leafId =>
    obtain ⟨rfl, rfl⟩ := ratioMutation_groups hraw
    exact ⟨rfl, rfl, rfl⟩
  | stretchLayoutLeaf leafId options =>
    obtain ⟨rfl, rfl⟩ := ratioMutation_groups hraw
    exact ⟨rfl, rfl, rfl⟩
  | _ => exact ⟨rfl, rfl, rfl⟩

/-- One action keeps a good layout good. -/
theorem LayoutState.step_good {clock : ℕ → ℕ} (hs : s.Good)
    (hkey : op.NoEmptyNewKey) (hfresh : op.FreshIds clock s) : (s.step clock op).Good := by
  cases hraw : (op.raw clock s).1 with
  | changed tree groups activeGroupId migration =>
    have hgood := op.raw_good hs hkey hfresh hraw
    obtain ⟨htree, hgroups, hactive⟩ := LayoutOp.write_layout hraw
    simp only [LayoutState.step, hraw, commitLayoutMutation_changed hgood, LayoutState.Good, htree,
      hgroups, hactive]
    exact hgood
  | noOp reason =>
    simp only [LayoutState.step, hraw, commitLayoutMutation]
    exact hs
  | failed reason =>
    simp only [LayoutState.step, hraw, commitLayoutMutation]
    exact hs

/-! ## Whole runs -/

theorem LayoutState.run_good {clock : ℕ → ℕ} {ops : List LayoutOp} (hs : s.Good)
    (hkeys : ∀ op ∈ ops, op.NoEmptyNewKey) (hfresh : s.FreshRun clock ops) : (s.run clock ops).Good := by
  induction ops generalizing s with
  | nil => exact hs
  | cons op rest ih =>
    obtain ⟨hhere, hrest⟩ := hfresh
    obtain ⟨hkey, hkeys⟩ := forall_mem_cons.mp hkeys
    exact ih (LayoutState.step_good hs hkey hhere) hkeys hrest

private theorem LayoutState.freshRun_append {clock : ℕ → ℕ}
    {before after : List LayoutOp} (h : s.FreshRun clock (before ++ after)) :
    s.FreshRun clock before ∧ (s.run clock before).FreshRun clock after := by
  induction before generalizing s with
  | nil => exact ⟨trivial, h⟩
  | cons op rest ih =>
    obtain ⟨hbefore, hafter⟩ := ih h.2
    exact ⟨⟨h.1, hbefore⟩, hafter⟩

/-- Every mutation along a run from a good layout is good, and is committed as it is. -/
theorem raw_good_along_run (clock : ℕ → ℕ) (s : LayoutState) (ops : List LayoutOp) (hs : s.Good)
    (hfresh : s.FreshRun clock ops) (hkeys : ∀ op ∈ ops, op.NoEmptyNewKey)
    (before : List LayoutOp) (op : LayoutOp) (hop : before ++ [op] <+: ops) :
    (∀ tree groups activeGroupId migration,
      (op.raw clock (s.run clock before)).1 = .changed tree groups activeGroupId migration →
      GoodLayout tree groups activeGroupId) ∧
    (commitLayoutMutation (op.raw clock (s.run clock before)).1).isFailed = false := by
  obtain ⟨after, rfl⟩ := hop
  rw [append_assoc] at hfresh hkeys
  obtain ⟨hbefore, hrest⟩ := LayoutState.freshRun_append hfresh
  have hgood : (s.run clock before).Good :=
    LayoutState.run_good hs (fun o ho => hkeys o (mem_append_left _ ho)) hbefore
  have hraw : ∀ tree groups activeGroupId migration,
      (op.raw clock (s.run clock before)).1 = .changed tree groups activeGroupId migration →
      GoodLayout tree groups activeGroupId := fun _ _ _ _ h =>
    op.raw_good hgood (hkeys op (by simp)) hrest.1 h
  refine ⟨hraw, ?_⟩
  have hnot := op.raw_isFailed clock (s.run clock before)
  cases h : (op.raw clock (s.run clock before)).1 with
  | changed tree groups activeGroupId migration =>
    rw [commitLayoutMutation_changed (hraw _ _ _ _ h)]
    rfl
  | noOp reason => rfl
  | failed reason => rw [h] at hnot; exact hnot

/-- One leaf with one open file. -/
def singleFileState : LayoutState where
  ui :=
    { layoutRevision := 0
      layoutTreeV2 := .leaf { id := "leaf-primary", openFileKeys := ["a"], activeKey := some "a" }
      editorGroups := Record.empty.set "leaf-primary"
        { id := "leaf-primary", openOrder := ["a"], activeKey := some "a", previewKey := none,
          pinnedKeys := [] }
      activeEditorGroupId := "leaf-primary"
      splitOrientation := none
      openOrder := ["a"]
      activeKey := some "a" }
  counter := 0

theorem raw_good_along_split_close : (∀ tree groups activeGroupId migration,
      ((LayoutOp.closeLayoutLeaf "leaf-primary").raw (fun _ => 0) (singleFileState.run (fun _ => 0)
        [.splitLayoutLeaf "leaf-primary" .vertical (some "b")])).1
        = .changed tree groups activeGroupId migration → GoodLayout tree groups activeGroupId) ∧
    (commitLayoutMutation ((LayoutOp.closeLayoutLeaf "leaf-primary").raw (fun _ => 0)
      (singleFileState.run (fun _ => 0)
        [.splitLayoutLeaf "leaf-primary" .vertical (some "b")])).1).isFailed = false :=
  raw_good_along_run (fun _ => 0) singleFileState
    [.splitLayoutLeaf "leaf-primary" .vertical (some "b"), .closeLayoutLeaf "leaf-primary"]
    (by decide) (by decide) (by decide) _ _ (prefix_refl _)

/-- Splitting with the empty string opens no tab but activates one; closing the other leaf then
hands tabs to that leaf, and the commit fails. -/
theorem split_with_empty_key_fails : singleFileState.Good ∧ singleFileState.FreshRun (fun _ => 0)
      [.splitLayoutLeaf "leaf-primary" .vertical (some ""), .closeLayoutLeaf "leaf-primary"] ∧
    ¬ (singleFileState.run (fun _ => 0) [.splitLayoutLeaf "leaf-primary" .vertical (some "")]).Good ∧
    (commitLayoutMutation ((LayoutOp.closeLayoutLeaf "leaf-primary").raw (fun _ => 0)
      (singleFileState.run (fun _ => 0)
        [.splitLayoutLeaf "leaf-primary" .vertical (some "")])).1).isFailed = true := by
  decide +kernel

/-!
# No layout change drops a tab

Over an accepted tree whose groups are consistent with it, splitting, closing a leaf, moving a tab
and unsplitting keep the set of open files, and closing a tab removes one key from one leaf. The
receiving leaf keeps its old tabs in order at the front.
-/

open TabPolicy (AnyWorkspaceTabPolicy)

/-- The file keys open anywhere in the tree. -/
def openKeys (tree : LayoutNode) : List String :=
  (getAllLeafNodes tree).flatMap LeafGroupNode.openFileKeys

/-- The tabs of one leaf, none when there is no such leaf. -/
def leafKeys (tree : LayoutNode) (leafId : String) : List String :=
  ((findLeafNode tree leafId).map (·.openFileKeys)).getD []

theorem mem_openKeys {k : String} :
    k ∈ openKeys tree ↔ ∃ leaf ∈ getAllLeafNodes tree, k ∈ leaf.openFileKeys :=
  mem_flatMap

variable {leafId : String}

theorem leafKeys_eq {leaf : LeafGroupNode}
    (h : findLeafNode tree leafId = some leaf) : leafKeys tree leafId = leaf.openFileKeys := by
  rw [leafKeys, h]
  rfl

/-! ## Rewriting leaves in place -/

theorem findLeafNode_mapLeaves {f : LeafGroupNode → LeafGroupNode}
    (hf : ∀ node, (f node).id = node.id) (tree : LayoutNode) (leafId : String) :
    findLeafNode (tree.mapLeaves f) leafId = (findLeafNode tree leafId).map f := by
  rw [findLeafNode_eq_find?, findLeafNode_eq_find?, getAllLeafNodes_mapLeaves, find?_map]
  simp only [Function.comp_def, hf]

theorem findLeafNode_syncLeaf (tree : LayoutNode) (leafId i : String) (group : LayoutEditorGroupState) :
    findLeafNode (syncLeaf tree leafId group) i = (findLeafNode tree i).map fun leaf =>
      if leaf.id = leafId then
        { leaf with openFileKeys := group.openOrder, activeKey := group.activeKey }
      else leaf :=
  findLeafNode_mapLeaves (fun node => by split <;> rfl) tree i

/-- The synced leaf shows the group's tabs. -/
theorem leafKeys_syncLeaf_self (hmem : leafId ∈ leafIds tree) (group : LayoutEditorGroupState) :
    leafKeys (syncLeaf tree leafId group) leafId = group.openOrder := by
  obtain ⟨leaf, hfind⟩ := Option.ne_none_iff_exists'.mp
    (mt findLeafNode_eq_none_iff.mp (not_not.mpr hmem))
  rw [leafKeys, findLeafNode_syncLeaf, hfind]
  simp [(findLeafNode_some hfind).2]

/-- The other leaves stay as they are. -/
theorem leafKeys_syncLeaf_ne {i : String} (hne : i ≠ leafId) (tree : LayoutNode)
    (group : LayoutEditorGroupState) : leafKeys (syncLeaf tree leafId group) i = leafKeys tree i := by
  rw [leafKeys, leafKeys, findLeafNode_syncLeaf]
  cases hfind : findLeafNode tree i with
  | none => rfl
  | some leaf =>
    have hid : leaf.id ≠ leafId := (findLeafNode_some hfind).2 ▸ hne
    simp [hid]

theorem mem_openKeys_syncLeaf {k : String}
    (hmem : leafId ∈ leafIds tree) {group : LayoutEditorGroupState} :
    k ∈ openKeys (syncLeaf tree leafId group) ↔ k ∈ group.openOrder ∨
      ∃ leaf ∈ getAllLeafNodes tree, leaf.id ≠ leafId ∧ k ∈ leaf.openFileKeys := by
  rw [mem_openKeys, syncLeaf, updateLeafInTree, getAllLeafNodes_mapLeaves]
  constructor
  · rintro ⟨leaf, hleaf, hk⟩
    obtain ⟨l, hl, rfl⟩ := mem_map.mp hleaf
    split at hk
    · exact .inl hk
    · next hne => exact .inr ⟨l, hl, hne, hk⟩
  · rintro (hk | ⟨l, hl, hne, hk⟩)
    · obtain ⟨l, hl, hid⟩ := mem_map.mp hmem
      exact ⟨_, mem_map_of_mem hl, by simpa [hid] using hk⟩
    · exact ⟨_, mem_map_of_mem hl, by simpa [hne] using hk⟩

/-! ## The actions -/

section Actions

variable {clock : ℕ → ℕ} {tree tree' : LayoutNode} {groups groups' : Groups}
  {activeGroupId activeGroupId' : String} {migration : Option LayoutMigration}

/-- Splitting without a new file adds an empty leaf. -/
theorem atomicSplitLeaf_keys {orientation : Orientation} {customNewLeafId : Option String} {counter : ℕ}
    (h : (atomicSplitLeaf clock tree groups leafId orientation none customNewLeafId counter).1
      = .changed tree' groups' activeGroupId' migration) :
    (∀ k, k ∈ openKeys tree' ↔ k ∈ openKeys tree) ∧
      ∀ leaf ∈ getAllLeafNodes tree, leaf ∈ getAllLeafNodes tree' := by
  obtain ⟨newId, finalId, counter', hmem, rfl, -⟩ := atomicSplitLeaf_changed h
  refine ⟨fun k => ?_, fun leaf hleaf => mem_getAllLeafNodes_splitLeafRec.mpr (.inl hleaf)⟩
  rw [mem_openKeys, mem_openKeys]
  constructor
  · rintro ⟨leaf, hleaf, hk⟩
    rcases mem_getAllLeafNodes_splitLeafRec.mp hleaf with hleaf | ⟨rfl, -⟩
    · exact ⟨leaf, hleaf, hk⟩
    · cases hk
  · rintro ⟨leaf, hleaf, hk⟩
    exact ⟨leaf, mem_getAllLeafNodes_splitLeafRec.mpr (.inl hleaf), hk⟩

/-- A found leaf of a consistent tree has a group with the same keys. -/
theorem Consistent.found (hcons : Consistent tree groups) {leaf : LeafGroupNode}
    (hfind : findLeafNode tree leafId = some leaf) :
    ∃ group, groups.get? leafId = some group ∧ ∀ k, k ∈ leaf.openFileKeys ↔ k ∈ group.openOrder := by
  obtain ⟨hmem, rfl⟩ := findLeafNode_some hfind
  obtain ⟨group, hget, hagrees⟩ := hcons.leaf leaf hmem
  exact ⟨group, hget, hagrees.keys⟩

/-- Closing a leaf hands its tabs to another leaf, behind the tabs of that leaf's group. -/
theorem atomicCloseLeaf_keys (hids : (leafIds tree).Nodup) (hcons : Consistent tree groups)
    (h : atomicCloseLeaf tree groups activeGroupId leafId
      = .changed tree' groups' activeGroupId' migration) :
    (∀ k, k ∈ openKeys tree' ↔ k ∈ openKeys tree) ∧
      ∃ target group, migration.map (·.destinationLeafId) = some target ∧ target ≠ leafId ∧
        target ∈ leafIds tree ∧ groups.get? target = some group ∧
        group.openOrder <+: leafKeys tree' target := by
  obtain ⟨leaf, target, newTree, destGroup, hfind, htarget, hclose, hdest, rfl, rfl, -, hmig⟩ :=
    atomicCloseLeaf_changed h
  obtain ⟨htmem, htne⟩ := targetSiblingId_mem hids htarget
  obtain ⟨-, hleaves⟩ := closeLeafNode_some hclose
  obtain ⟨dest, hfindDest⟩ := Option.ne_none_iff_exists'.mp
    (mt findLeafNode_eq_none_iff.mp (not_not.mpr htmem))
  obtain ⟨hdestMem, hdestId⟩ := findLeafNode_some hfindDest
  obtain ⟨cgroup, hcget, hckeys⟩ := hcons.found hfind
  obtain ⟨dgroup, hdget, hdkeys⟩ := hcons.found hfindDest
  have htmem' : target ∈ leafIds newTree := by
    rw [leafIds, hleaves]
    exact mem_map.mpr ⟨dest, by simp [hdestMem, hdestId, htne], hdestId⟩
  rw [destinationGroup, Record.get?_delete, if_neg htne, hdget, Option.getD_some, hcget] at hdest
  have horder : destGroup.openOrder = appendMissing dgroup.openOrder cgroup.openOrder :=
    hdest ▸ migrateTabs_openOrder dgroup cgroup
  refine ⟨fun k => ?_, target, dgroup, hmig, htne, htmem, hdget, ?_⟩
  · rw [mem_openKeys_syncLeaf htmem', horder, mem_appendMissing, mem_openKeys, hleaves]
    constructor
    · rintro ((hk | hk) | ⟨l, hl, -, hk⟩)
      · exact ⟨dest, hdestMem, (hdkeys k).mpr hk⟩
      · exact ⟨leaf, (findLeafNode_some hfind).1, (hckeys k).mpr hk⟩
      · exact ⟨l, mem_of_mem_filter hl, hk⟩
    · rintro ⟨l, hl, hk⟩
      by_cases hlt : l.id = target
      · obtain rfl := eq_of_findLeafNode hids hfindDest hl hlt
        exact .inl (.inl ((hdkeys k).mp hk))
      · by_cases hlc : l.id = leafId
        · obtain rfl := eq_of_findLeafNode hids hfind hl hlc
          exact .inl (.inr ((hckeys k).mp hk))
        · exact .inr ⟨l, by simp [hl, hlc], hlt, hk⟩
  · rw [leafKeys_syncLeaf_self htmem', horder]
    exact prefix_appendMissing _ _

/-- Moving a tab takes it from the source and puts it behind the tabs of the target. -/
theorem atomicMoveTab_keys {sourceLeafId targetLeafId fileKey : String}
    (h : atomicMoveTab tree groups sourceLeafId targetLeafId fileKey
      = .changed tree' groups' activeGroupId' migration) :
    (∀ k, k ∈ openKeys tree' ↔ k ∈ openKeys tree) ∧
      leafKeys tree targetLeafId <+: leafKeys tree' targetLeafId := by
  obtain ⟨source, target, sgroup, hne, hsource, htarget, -, -, hkey, rfl, -⟩ :=
    atomicMoveTab_changed h
  obtain ⟨hsmem, hsid⟩ := findLeafNode_some hsource
  obtain ⟨htmem, htid⟩ := findLeafNode_some htarget
  have hupdateId : ∀ node, (moveTabUpdate sourceLeafId targetLeafId fileKey node).id = node.id := by
    intro node
    rw [moveTabUpdate]
    split
    · rfl
    · split <;> rfl
  have htne : target.id ≠ sourceLeafId := htid ▸ hne.symm
  refine ⟨fun k => ?_, ?_⟩
  · rw [mem_openKeys, mem_openKeys, getAllLeafNodes_mapLeaves]
    constructor
    · rintro ⟨leaf, hleaf, hk⟩
      obtain ⟨l, hl, rfl⟩ := mem_map.mp hleaf
      rw [moveTabUpdate] at hk
      split at hk
      · exact ⟨l, hl, mem_of_mem_filter hk⟩
      split at hk
      · by_cases hmem : k ∈ l.openFileKeys
        · exact ⟨l, hl, hmem⟩
        · obtain rfl : k = fileKey := by
            dsimp only at hk
            split at hk
            · exact absurd hk hmem
            · simpa [hmem] using hk
          exact ⟨source, hsmem, hkey⟩
      · exact ⟨l, hl, hk⟩
    · rintro ⟨l, hl, hk⟩
      by_cases hmoved : l.id = sourceLeafId ∧ k = fileKey
      · obtain ⟨-, rfl⟩ := hmoved
        refine ⟨_, mem_map_of_mem htmem, ?_⟩
        rw [moveTabUpdate, if_neg htne, if_pos htid]
        dsimp only
        split <;> simp_all
      · refine ⟨_, mem_map_of_mem hl, ?_⟩
        rw [moveTabUpdate]
        split
        · next hs => simpa [hk] using fun heq => hmoved ⟨hs, heq⟩
        · split
          · dsimp only
            split
            · exact hk
            · exact mem_append_left _ hk
          · exact hk
  · rw [leafKeys_eq htarget, leafKeys, findLeafNode_mapLeaves hupdateId, htarget, Option.map_some,
      Option.map_some, Option.getD_some, moveTabUpdate, if_neg htne, if_pos htid]
    dsimp only
    split
    · exact prefix_refl _
    · exact prefix_append _ _

/-- Unsplitting keeps every key, behind those of the first leaf. -/
theorem unsplitAllMutation_keys {ui : CodeWorkspaceUi}
    (h : unsplitAllMutation ui = .changed tree' groups' activeGroupId' migration) :
    (∀ k, k ∈ openKeys tree' ↔ k ∈ openKeys ui.layoutTreeV2) ∧
      ∃ first ∈ (getAllLeafNodes ui.layoutTreeV2).head?, leafIds tree' = [first.id] ∧
        appendMissing [] first.openFileKeys <+: leafKeys tree' first.id := by
  rw [unsplitAllMutation] at h
  cases hunsplit : unsplitAllLeaves ui.layoutTreeV2 (some ui.activeEditorGroupId) with
  | none => simp [hunsplit] at h
  | some result =>
    obtain ⟨survivor, keys⟩ := result
    obtain ⟨⟨first, hfirst, hid⟩, hkeys, hopen, -⟩ := unsplitAllLeaves_some hunsplit
    simp only [hunsplit] at h
    obtain ⟨rfl, -⟩ := LayoutMutationResult.changed.inj h
    refine ⟨fun k => ?_, first, hfirst, by simp [hid], ?_⟩
    · simp [openKeys, hopen, hkeys]
    · obtain ⟨rest, hrest⟩ := List.head?_eq_some_iff.mp hfirst
      rw [← hid, leafKeys, findLeafNode, if_pos rfl, Option.map_some, Option.getD_some, hopen, hkeys,
        hrest, flatMap_cons, appendMissing_append]
      exact prefix_appendMissing _ _

/-- Closing a tab removes its key from its leaf and touches no other leaf. -/
theorem atomicCloseTabInLeaf_keys (hcons : Consistent tree groups) {fileKey : String}
    {policy : Option AnyWorkspaceTabPolicy} {lastUsedByKey : Option (Record JsNumber)}
    (h : atomicCloseTabInLeaf tree groups activeGroupId leafId fileKey policy lastUsedByKey
      = .changed tree' groups' activeGroupId' migration) :
    leafIds tree' = leafIds tree ∧ fileKey ∈ leafKeys tree leafId ∧
      (∀ k, k ∈ leafKeys tree' leafId ↔ k ∈ leafKeys tree leafId ∧ k ≠ fileKey) ∧
      ∀ i, i ≠ leafId → leafKeys tree' i = leafKeys tree i := by
  obtain ⟨leaf, group, nextGroup, hfind, hget, hkey, hnext, rfl, -⟩ := atomicCloseTabInLeaf_changed h
  obtain ⟨group', hget', hkeys⟩ := hcons.found hfind
  obtain rfl : group' = group := Option.some.inj (hget'.symm.trans hget)
  have hmem : leafId ∈ leafIds tree := by
    obtain ⟨hl, rfl⟩ := findLeafNode_some hfind
    exact mem_map_of_mem hl
  have horder : nextGroup.openOrder = group'.openOrder.filter (· ≠ fileKey) := hnext ▸ rfl
  refine ⟨leafIds_syncLeaf _ _ _, ?_, fun k => ?_, fun i hi => leafKeys_syncLeaf_ne hi _ _⟩
  · rw [leafKeys_eq hfind]
    exact (hkeys fileKey).mpr hkey
  · rw [leafKeys_syncLeaf_self hmem, leafKeys_eq hfind, horder, mem_filter, hkeys,
      decide_eq_true_eq]

end Actions

/-- A split of leaves with these ids and tabs, each active on none, under equal ratios. -/
def rowOfLeaves (leaves : List (String × List String)) : LayoutNode :=
  .split "split-root" .horizontal (leaves.map fun (id, openFileKeys) =>
    .leaf { id, openFileKeys, activeKey := none }) (equalRatios leaves.length)

/-- Groups with these ids and tabs, each active on none. -/
def groupsOf (groups : List (String × List String)) : Groups :=
  groups.foldl (fun acc (id, openOrder) => acc.set id { LayoutEditorGroupState.fresh id with openOrder })
    .empty

/-- The tree of a changed result. -/
def LayoutMutationResult.tree? : LayoutMutationResult → Option LayoutNode
  | changed tree _ _ _ => some tree
  | _ => none

/-- No layout change drops a tab, and the receiving leaf keeps the order it had. -/
theorem layout_changes_keep_tabs (clock : ℕ → ℕ) (ui : CodeWorkspaceUi)
    (hvalid : (validateLayoutTree ui.layoutTreeV2.toJson).1 = true)
    (hcons : validateTreeGroupConsistency ui.layoutTreeV2 ui.editorGroups = []) :
    (∀ leafId orientation customNewLeafId counter tree' groups' activeGroupId' migration,
      (atomicSplitLeaf clock ui.layoutTreeV2 ui.editorGroups leafId orientation none customNewLeafId
        counter).1 = .changed tree' groups' activeGroupId' migration →
      (∀ k, k ∈ openKeys tree' ↔ k ∈ openKeys ui.layoutTreeV2) ∧
        ∀ leaf ∈ getAllLeafNodes ui.layoutTreeV2, leaf ∈ getAllLeafNodes tree') ∧
    (∀ leafId tree' groups' activeGroupId' migration,
      atomicCloseLeaf ui.layoutTreeV2 ui.editorGroups ui.activeEditorGroupId leafId
        = .changed tree' groups' activeGroupId' migration →
      (∀ k, k ∈ openKeys tree' ↔ k ∈ openKeys ui.layoutTreeV2) ∧
        ∃ target group, migration.map (·.destinationLeafId) = some target ∧ target ≠ leafId ∧
          target ∈ leafIds ui.layoutTreeV2 ∧ ui.editorGroups.get? target = some group ∧
          group.openOrder <+: leafKeys tree' target) ∧
    (∀ sourceLeafId targetLeafId fileKey tree' groups' activeGroupId' migration,
      atomicMoveTab ui.layoutTreeV2 ui.editorGroups sourceLeafId targetLeafId fileKey
        = .changed tree' groups' activeGroupId' migration →
      (∀ k, k ∈ openKeys tree' ↔ k ∈ openKeys ui.layoutTreeV2) ∧
        leafKeys ui.layoutTreeV2 targetLeafId <+: leafKeys tree' targetLeafId) ∧
    (∀ tree' groups' activeGroupId' migration,
      unsplitAllMutation ui = .changed tree' groups' activeGroupId' migration →
      (∀ k, k ∈ openKeys tree' ↔ k ∈ openKeys ui.layoutTreeV2) ∧
        ∃ first ∈ (getAllLeafNodes ui.layoutTreeV2).head?, leafIds tree' = [first.id] ∧
          appendMissing [] first.openFileKeys <+: leafKeys tree' first.id) ∧
    ∀ leafId fileKey policy lastUsedByKey tree' groups' activeGroupId' migration,
      atomicCloseTabInLeaf ui.layoutTreeV2 ui.editorGroups ui.activeEditorGroupId leafId fileKey
        policy lastUsedByKey = .changed tree' groups' activeGroupId' migration →
      leafIds tree' = leafIds ui.layoutTreeV2 ∧ fileKey ∈ leafKeys ui.layoutTreeV2 leafId ∧
        (∀ k, k ∈ leafKeys tree' leafId ↔ k ∈ leafKeys ui.layoutTreeV2 leafId ∧ k ≠ fileKey) ∧
        ∀ i, i ≠ leafId → leafKeys tree' i = leafKeys ui.layoutTreeV2 i := by
  obtain ⟨-, hnodup⟩ := (validateLayoutTree_toJson_iff _).mp hvalid
  have hids := hnodup.sublist (leafIds_sublist_ids ui.layoutTreeV2)
  have hconsistent := validateTreeGroupConsistency_eq_nil_iff.mp hcons
  exact ⟨fun _ _ _ _ _ _ _ _ h => atomicSplitLeaf_keys h,
    fun _ _ _ _ _ h => atomicCloseLeaf_keys hids hconsistent h,
    fun _ _ _ _ _ _ _ h => atomicMoveTab_keys h,
    fun _ _ _ _ h => unsplitAllMutation_keys h,
    fun _ _ _ _ _ _ _ _ h => atomicCloseTabInLeaf_keys hconsistent h⟩

theorem layout_changes_keep_tabs_row : ∃ tree' groups' activeGroupId' migration,
      atomicCloseLeaf (rowOfLeaves [("a", ["x"]), ("b", ["y"])])
        (groupsOf [("a", ["x"]), ("b", ["y"])]) "a" "a"
        = .changed tree' groups' activeGroupId' migration ∧
      ∀ k, k ∈ openKeys tree' ↔ k ∈ openKeys (rowOfLeaves [("a", ["x"]), ("b", ["y"])]) :=
  ⟨_, _, _, _, rfl, ((layout_changes_keep_tabs (fun _ => 0)
    { singleFileState.ui with
      layoutTreeV2 := rowOfLeaves [("a", ["x"]), ("b", ["y"])]
      editorGroups := groupsOf [("a", ["x"]), ("b", ["y"])]
      activeEditorGroupId := "a" }
    (by decide +kernel) (by decide +kernel)).2.1 "a" _ _ _ _ rfl).1⟩

/-- Consistent groups alone do not keep the tabs: two leaves with one id lose their tab, and a group
that lists its leaf's tabs in another order imposes that order. -/
theorem atomicCloseLeaf_counterexample :
    (validateTreeGroupConsistency (rowOfLeaves [("a", ["x"]), ("a", ["x"]), ("b", [])])
        (groupsOf [("a", ["x"]), ("b", [])]) = [] ∧
      "x" ∈ openKeys (rowOfLeaves [("a", ["x"]), ("a", ["x"]), ("b", [])]) ∧
      (atomicCloseLeaf (rowOfLeaves [("a", ["x"]), ("a", ["x"]), ("b", [])])
        (groupsOf [("a", ["x"]), ("b", [])]) "b" "a").tree?.map openKeys = some []) ∧
    (validateTreeGroupConsistency (rowOfLeaves [("a", ["x", "y"]), ("b", [])])
        (groupsOf [("a", ["y", "x"]), ("b", [])]) = [] ∧
      leafKeys (rowOfLeaves [("a", ["x", "y"]), ("b", [])]) "a" = ["x", "y"] ∧
      (atomicCloseLeaf (rowOfLeaves [("a", ["x", "y"]), ("b", [])])
        (groupsOf [("a", ["y", "x"]), ("b", [])]) "a" "b").tree?.map (leafKeys · "a")
        = some ["y", "x"]) := by
  decide

end Taomni.Layout
