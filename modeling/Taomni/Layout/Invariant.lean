import Taomni.Layout.Transactions

/-!
# The layout invariant

`GoodLayout` is the invariant of a committed layout: an accepted tree, tabs listed once with the
active tab among them, groups that repeat the leaves exactly, and an active group that is a leaf.
`Mirrors` is its part about leaves and groups, which sees the tree only through its list of leaves.
Each transaction keeps the invariant; `GoodLayout.run` carries it through a whole run of actions.
-/

namespace Taomni.Layout

open List
open TabPolicy (AnyWorkspaceTabPolicy selectActivateOnClose mem_of_selectActivateOnClose)
open Record (get?_delete get?_set_ne get?_set_self)

/-- The invariant of a committed layout. -/
structure GoodLayout (tree : LayoutNode) (groups : Groups) (activeGroupId : String) : Prop where
  valid : (validateLayoutTree tree.toJson).1 = true
  activeKey : ∀ leaf ∈ getAllLeafNodes tree, ∀ key ∈ leaf.activeKey, key ∈ leaf.openFileKeys
  nodup : ∀ leaf ∈ getAllLeafNodes tree, leaf.openFileKeys.Nodup
  consistent : validateTreeGroupConsistency tree groups = []
  sameOrder : ∀ leaf ∈ getAllLeafNodes tree, ∀ group ∈ groups.get? leaf.id,
    group.openOrder = leaf.openFileKeys
  active : activeGroupId ∈ leafIds tree

/-! ## Leaves beside their groups -/

/-- The tabs of a leaf are distinct and its active tab is one of them. -/
structure LeafGroupNode.TabsOk (leaf : LeafGroupNode) : Prop where
  activeKey : ∀ key ∈ leaf.activeKey, key ∈ leaf.openFileKeys
  nodup : leaf.openFileKeys.Nodup

/-- The group of a leaf repeats its tabs in order, and its active tab. -/
structure LeafMirrored (groups : Groups) (leaf : LeafGroupNode) : Prop where
  tabs : leaf.TabsOk
  group : ∃ group, groups.get? leaf.id = some group ∧ group.openOrder = leaf.openFileKeys ∧
    group.activeKey = leaf.activeKey

/-- Every leaf is mirrored by its group and every other group is empty. -/
structure Mirrors (leaves : List LeafGroupNode) (groups : Groups) : Prop where
  leaf : ∀ leaf ∈ leaves, LeafMirrored groups leaf
  dormant : ∀ i group, groups.get? i = some group → i ∉ leaves.map LeafGroupNode.id →
    group.openOrder = []

variable {tree : LayoutNode}

variable {groups : Groups}

theorem Mirrors.consistent (h : Mirrors (getAllLeafNodes tree) groups) : Consistent tree groups where
  leaf leaf hleaf := by
    obtain ⟨group, hget, horder, hactive⟩ := (h.leaf leaf hleaf).group
    exact ⟨group, hget, fun k => by rw [horder], hactive.symm⟩
  dormant := h.dormant

variable {activeGroupId : String}

/-- The invariant, with the validators spelled out. -/
theorem goodLayout_iff : GoodLayout tree groups activeGroupId ↔
      WellShaped tree ∧ tree.ids.Nodup ∧ Mirrors (getAllLeafNodes tree) groups ∧
        activeGroupId ∈ leafIds tree := by
  constructor
  · intro h
    obtain ⟨hshape, hids⟩ := (validateLayoutTree_toJson_iff tree).mp h.valid
    have hcons := validateTreeGroupConsistency_eq_nil_iff.mp h.consistent
    refine ⟨hshape, hids, ⟨fun leaf hleaf => ⟨⟨h.activeKey leaf hleaf, h.nodup leaf hleaf⟩, ?_⟩,
      hcons.dormant⟩, h.active⟩
    obtain ⟨group, hget, hagrees⟩ := hcons.leaf leaf hleaf
    exact ⟨group, hget, h.sameOrder leaf hleaf group hget, hagrees.activeKey.symm⟩
  · rintro ⟨hshape, hids, hmirrors, hactive⟩
    refine ⟨(validateLayoutTree_toJson_iff tree).mpr ⟨hshape, hids⟩,
      fun leaf hleaf => (hmirrors.leaf leaf hleaf).tabs.activeKey,
      fun leaf hleaf => (hmirrors.leaf leaf hleaf).tabs.nodup,
      validateTreeGroupConsistency_eq_nil_iff.mpr hmirrors.consistent, ?_, hactive⟩
    intro leaf hleaf group hgroup
    obtain ⟨group', hget, horder, -⟩ := (hmirrors.leaf leaf hleaf).group
    obtain rfl : group' = group := Option.some.inj (hget.symm.trans hgroup)
    exact horder

theorem LeafGroupNode.TabsOk.wellFormed {leaf : LeafGroupNode} (h : leaf.TabsOk)
    (hid : isBlank leaf.id = false) : leaf.WellFormed :=
  ⟨hid, fun key hkey => .inr (h.activeKey key hkey)⟩

variable {f : LeafGroupNode → LeafGroupNode}

/-- Rewriting the leaves without renaming them, with groups that still mirror each leaf. -/
theorem Mirrors.map {leaves : List LeafGroupNode} {groups groups' : Groups} (h : Mirrors leaves groups)
    (hid : ∀ leaf, (f leaf).id = leaf.id) (hleaf : ∀ leaf ∈ leaves, LeafMirrored groups' (f leaf))
    (hother : ∀ i, i ∉ leaves.map LeafGroupNode.id → groups'.get? i = groups.get? i) :
    Mirrors (leaves.map f) groups' where
  leaf leaf hmem := by
    obtain ⟨l, hl, rfl⟩ := mem_map.mp hmem
    exact hleaf l hl
  dormant i group hget hi := by
    have hi' : i ∉ leaves.map LeafGroupNode.id := by
      simpa [map_map, Function.comp_def, hid] using hi
    rw [hother i hi'] at hget
    exact h.dormant i group hget hi'

/-- A tree whose leaves are rewritten in place stays good when the groups follow. -/
theorem GoodLayout.mapLeaves {groups groups' : Groups}
    {activeGroupId activeGroupId' : String} (h : GoodLayout tree groups activeGroupId)
    (hid : ∀ leaf, (f leaf).id = leaf.id)
    (hleaf : ∀ leaf ∈ getAllLeafNodes tree, LeafMirrored groups' (f leaf))
    (hother : ∀ i, i ∉ leafIds tree → groups'.get? i = groups.get? i)
    (hactive : activeGroupId' ∈ leafIds tree) :
    GoodLayout (tree.mapLeaves f) groups' activeGroupId' := by
  obtain ⟨hshape, hids, hmirrors, -⟩ := goodLayout_iff.mp h
  refine goodLayout_iff.mpr ⟨hshape.mapLeaves fun leaf hl => ?_, ?_, ?_, ?_⟩
  · exact (hleaf leaf hl).tabs.wellFormed (by rw [hid]; exact (hshape.leafWellFormed leaf hl).1)
  · rw [ids_mapLeaves hid]; exact hids
  · rw [getAllLeafNodes_mapLeaves]; exact hmirrors.map hid hleaf hother
  · rw [leafIds_mapLeaves hid]; exact hactive

/-- The leaf ids of a good layout are distinct. -/
theorem GoodLayout.leafIds_nodup (h : GoodLayout tree groups activeGroupId) : (leafIds tree).Nodup :=
  (goodLayout_iff.mp h).2.1.sublist (leafIds_sublist_ids tree)

variable {leafId : String}

/-- The leaf found under an id and its group. -/
theorem GoodLayout.found (h : GoodLayout tree groups activeGroupId) {leaf : LeafGroupNode}
    (hfind : findLeafNode tree leafId = some leaf) :
    leaf.id = leafId ∧ leafId ∈ leafIds tree ∧ leaf.TabsOk ∧
      ∃ group, groups.get? leafId = some group ∧ group.openOrder = leaf.openFileKeys ∧
        group.activeKey = leaf.activeKey := by
  obtain ⟨hmem, rfl⟩ := findLeafNode_some hfind
  obtain ⟨htabs, hgroup⟩ := (goodLayout_iff.mp h).2.2.1.leaf leaf hmem
  exact ⟨rfl, mem_map_of_mem hmem, htabs, hgroup⟩

/-! ## Transactions that rewrite one leaf -/

variable {activeGroupId' : String}

/-- Rewriting one leaf and its group alike keeps the layout good. -/
theorem GoodLayout.updateLeaf (h : GoodLayout tree groups activeGroupId)
    (updater : LeafGroupNode → LeafGroupNode) (group : LayoutEditorGroupState)
    (hid : ∀ leaf, (updater leaf).id = leaf.id)
    (hleaf : ∀ leaf ∈ getAllLeafNodes tree, leaf.id = leafId → (updater leaf).TabsOk ∧
      group.openOrder = (updater leaf).openFileKeys ∧ group.activeKey = (updater leaf).activeKey)
    (hmem : leafId ∈ leafIds tree) (hactive : activeGroupId' ∈ leafIds tree) :
    GoodLayout (updateLeafInTree tree leafId updater) (groups.set leafId group) activeGroupId' := by
  refine h.mapLeaves (fun leaf => ?_) (fun leaf hl => ?_) (fun i hi => ?_) hactive
  · split
    · exact hid leaf
    · rfl
  · split
    · next heq =>
      obtain ⟨htabs, horder, hact⟩ := hleaf leaf hl heq
      exact ⟨htabs, group, by rw [hid, heq, get?_set_self], horder, hact⟩
    · next hne =>
      obtain ⟨htabs, g, hget, hrest⟩ := (goodLayout_iff.mp h).2.2.1.leaf leaf hl
      exact ⟨htabs, g, by rw [get?_set_ne _ _ hne, hget], hrest⟩
  · exact get?_set_ne _ _ fun heq => hi (heq ▸ hmem)

variable {migration : Option LayoutMigration}

variable {tree' : LayoutNode}

variable {groups' : Groups}

theorem GoodLayout.atomicSetLeafActiveTab (h : GoodLayout tree groups activeGroupId)
    {fileKey : Option String}

    (hres : atomicSetLeafActiveTab tree groups activeGroupId leafId fileKey
      = .changed tree' groups' activeGroupId' migration) :
    GoodLayout tree' groups' activeGroupId' := by
  rw [Layout.atomicSetLeafActiveTab] at hres
  cases hfind : findLeafNode tree leafId with
  | none => simp [hfind] at hres
  | some leaf =>
    obtain ⟨-, hmem, htabs, group, hget, horder, -⟩ := h.found hfind
    simp only [hfind, hget, Option.any_some, Option.getD_some] at hres
    split at hres
    · cases hres
    next hopen =>
    split at hres
    · cases hres
    obtain ⟨rfl, rfl, rfl, -⟩ := LayoutMutationResult.changed.inj hres
    rw [horder] at hopen
    have hset : setLeafActiveTab tree leafId fileKey
        = some (updateLeafInTree tree leafId fun node => { node with activeKey := fileKey }) := by
      rw [setLeafActiveTab, hfind]
      simp only [if_neg hopen]
    rw [hset, Option.getD_some]
    refine h.updateLeaf (fun node => { node with activeKey := fileKey })
      { group with activeKey := fileKey } (fun _ => rfl) (fun l hl hid => ?_) hmem hmem
    obtain rfl := eq_of_findLeafNode h.leafIds_nodup hfind hl hid
    refine ⟨⟨fun key hkey => ?_, htabs.nodup⟩, horder, rfl⟩
    obtain rfl : fileKey = some key := hkey
    simpa using hopen

/-- Once a key is removed, the active tab is the first survivor or the untouched active tab. -/
theorem mem_of_activeAfterRemoval {order : List String} {activeKey : Option String}
    {fileKey key : String} (hactive : ∀ k ∈ activeKey, k ∈ order)
    (h : activeAfterRemoval order activeKey fileKey = some key) : key ∈ order.filter (· ≠ fileKey) := by
  rw [activeAfterRemoval] at h
  split at h
  · exact mem_of_mem_head? (Option.mem_def.mpr h)
  · next hne =>
    obtain rfl := h
    exact mem_filter.mpr ⟨hactive key rfl, by simpa using hne⟩

variable {group : LayoutEditorGroupState} {lastUsedByKey : Option (Record JsNumber)}
  {policy : Option AnyWorkspaceTabPolicy}

theorem mem_of_activeAfterClose {fileKey key : String}
    (hactive : ∀ k ∈ group.activeKey, k ∈ group.openOrder)
    (h : activeAfterClose group fileKey policy lastUsedByKey = some key) :
    key ∈ group.openOrder.filter (· ≠ fileKey) := by
  cases policy with
  | none => exact mem_of_activeAfterRemoval hactive h
  | some policy => exact mem_of_selectActivateOnClose h

/-- Syncing a leaf from a well-kept group keeps the layout good. -/
theorem GoodLayout.syncLeaf (h : GoodLayout tree groups activeGroupId)
    (hactiveKey : ∀ key ∈ group.activeKey, key ∈ group.openOrder) (hnodup : group.openOrder.Nodup)
    (hmem : leafId ∈ leafIds tree) (hactive : activeGroupId' ∈ leafIds tree) :
    GoodLayout (syncLeaf tree leafId group) (groups.set leafId group) activeGroupId' :=
  h.updateLeaf (fun leaf => { leaf with
      openFileKeys := group.openOrder, activeKey := group.activeKey }) group
    (fun _ => rfl) (fun _ _ _ => ⟨⟨hactiveKey, hnodup⟩, rfl, rfl⟩) hmem hactive

theorem leafIds_syncLeaf (tree : LayoutNode) (leafId : String) (group : LayoutEditorGroupState) :
    leafIds (syncLeaf tree leafId group) = leafIds tree :=
  leafIds_mapLeaves (fun _ => by split <;> rfl) tree

theorem GoodLayout.atomicCloseTabInLeaf (h : GoodLayout tree groups activeGroupId) {fileKey : String}

    (hres : atomicCloseTabInLeaf tree groups activeGroupId leafId fileKey policy lastUsedByKey
      = .changed tree' groups' activeGroupId' migration) :
    GoodLayout tree' groups' activeGroupId' := by
  obtain ⟨leaf, group, nextGroup, hfind, hget, -, rfl, rfl, rfl, hactiveGroup⟩ :=
    atomicCloseTabInLeaf_changed hres
  obtain ⟨-, hmem, htabs, group', hget', horder, hactive⟩ := h.found hfind
  obtain rfl : group' = group := Option.some.inj (hget'.symm.trans hget)
  rw [leafIds_syncLeaf] at hactiveGroup
  refine h.syncLeaf (fun key hkey => ?_) ?_ hmem ?_
  · exact mem_of_activeAfterClose (fun k hk => horder ▸ htabs.activeKey k (hactive ▸ hk)) hkey
  · exact (horder ▸ htabs.nodup).filter _
  · rcases hactiveGroup with rfl | hactiveGroup
    · exact h.active
    · exact hactiveGroup

theorem GoodLayout.atomicMoveTab
    (h : GoodLayout tree groups activeGroupId) {sourceLeafId targetLeafId fileKey : String}

    (hres : atomicMoveTab tree groups sourceLeafId targetLeafId fileKey
      = .changed tree' groups' activeGroupId' migration) :
    GoodLayout tree' groups' activeGroupId' := by
  obtain ⟨source, target, sgroup, hne, hsource, htarget, hsget, hkey, hkey', rfl, rfl, hid⟩ :=
    atomicMoveTab_changed hres
  obtain ⟨-, hsmem, hstabs, sgroup', hsget', hsorder, hsactive⟩ := h.found hsource
  obtain rfl : sgroup' = sgroup := Option.some.inj (hsget'.symm.trans hsget)
  obtain ⟨-, htmem, httabs, tgroup, htget, htorder, -⟩ := h.found htarget
  rw [htget, Option.getD_some, hid]
  refine h.mapLeaves (fun leaf => ?_) (fun leaf hl => ?_) (fun i hi => ?_) htmem
  · rw [moveTabUpdate]
    split
    · rfl
    · split <;> rfl
  · rw [moveTabUpdate]
    by_cases hs : leaf.id = sourceLeafId
    · obtain rfl := eq_of_findLeafNode h.leafIds_nodup hsource hl hs
      have ht : leaf.id ≠ targetLeafId := hs ▸ hne
      rw [if_pos hs]
      refine ⟨⟨fun key hk => mem_of_activeAfterRemoval hstabs.activeKey hk,
          hstabs.nodup.filter _⟩,
        _, (get?_set_ne _ _ ht).trans (by rw [hs, get?_set_self]), ?_, ?_⟩
      · rw [LayoutEditorGroupState.withoutTab, hsorder]
      · rw [LayoutEditorGroupState.withoutTab, hsorder, hsactive]
    · by_cases ht : leaf.id = targetLeafId
      · obtain rfl := eq_of_findLeafNode h.leafIds_nodup htarget hl ht
        rw [if_neg hs, if_pos ht]
        refine ⟨⟨?_, ?_⟩, _, (congrArg _ ht).trans (get?_set_self _ _ _), ?_, rfl⟩
        · rintro key ⟨⟩
          split <;> simp_all
        · split
          · exact httabs.nodup
          · next hnot => simpa using httabs.nodup.concat hnot
        · rw [LayoutEditorGroupState.withTab, htorder]
      · rw [if_neg hs, if_neg ht]
        obtain ⟨htabs, g, hget, hrest⟩ := (goodLayout_iff.mp h).2.2.1.leaf leaf hl
        exact ⟨htabs, g, by rw [get?_set_ne _ _ ht, get?_set_ne _ _ hs, hget], hrest⟩
  · rw [get?_set_ne _ _ (ne_of_mem_of_not_mem htmem hi).symm,
      get?_set_ne _ _ (ne_of_mem_of_not_mem hsmem hi).symm]

/-! ## Closing a leaf -/

theorem migrateTabs_openOrder (targetGroup closed : LayoutEditorGroupState) :
    (migrateTabs targetGroup (some closed)).1.openOrder
      = appendMissing targetGroup.openOrder closed.openOrder := by
  rw [migrateTabs]
  split
  · next h => rw [h]; rfl
  · rfl

/-- The receiving group stays active on one of its tabs. -/
theorem mem_of_migrateTabs_activeKey {targetGroup closed : LayoutEditorGroupState}
    (htarget : ∀ k ∈ targetGroup.activeKey, k ∈ targetGroup.openOrder)
    (hclosed : ∀ k ∈ closed.activeKey, k ∈ closed.openOrder) {key : String}
    (h : key ∈ (migrateTabs targetGroup (some closed)).1.activeKey) :
    key ∈ (migrateTabs targetGroup (some closed)).1.openOrder := by
  rw [migrateTabs_openOrder, mem_appendMissing]
  rw [migrateTabs] at h
  split at h
  · exact .inl (htarget key h)
  · rcases Option.or_eq_some_iff.mp h with h | ⟨-, h⟩
    · exact .inl (htarget key h)
    · rcases Option.or_eq_some_iff.mp h with h | ⟨-, h⟩
      · exact .inr (hclosed key h)
      · exact mem_appendMissing.mp (mem_of_mem_head? (Option.mem_def.mpr h))

/-- A closed leaf's tabs go to another leaf of the tree. -/
theorem targetSiblingId_mem (hnd : (leafIds tree).Nodup)
    {target : String} (h : targetSiblingId tree leafId = some target) :
    target ∈ leafIds tree ∧ target ≠ leafId := by
  rcases Option.or_eq_some_iff.mp h with h | ⟨-, h⟩
  · obtain ⟨leaf, hleaf, rfl⟩ := Option.map_eq_some_iff.mp h
    obtain ⟨hmem, hne⟩ := findAdjacentSiblingLeaf_ne hnd hleaf
    exact ⟨mem_map_of_mem hmem, hne⟩
  · obtain ⟨leaf, hleaf, rfl⟩ := Option.map_eq_some_iff.mp h
    have hne := find?_some hleaf
    exact ⟨mem_map_of_mem (mem_of_find?_eq_some hleaf), of_decide_eq_true hne⟩

/-- Removing a leaf and its group keeps the layout good around any remaining leaf. -/
theorem GoodLayout.closeLeafNode {tree newTree : LayoutNode}
    {activeGroupId target : String} (h : GoodLayout tree groups activeGroupId)
    (hclose : closeLeafNode tree leafId = some newTree) (hmem : target ∈ leafIds tree)
    (hne : target ≠ leafId) : GoodLayout newTree (groups.delete leafId) target := by
  obtain ⟨hshape, hids, hmirrors, -⟩ := goodLayout_iff.mp h
  obtain ⟨hremove, hleaves⟩ := closeLeafNode_some hclose
  refine goodLayout_iff.mpr ⟨hshape.removeLeafRec _ hremove,
    (ids_removeLeafRec leafId tree _ hremove).nodup hids, ⟨?_, ?_⟩, ?_⟩
  · intro leaf hleaf
    rw [hleaves, mem_filter, decide_eq_true_eq] at hleaf
    obtain ⟨htabs, g, hget, hrest⟩ := hmirrors.leaf leaf hleaf.1
    exact ⟨htabs, g, by rw [get?_delete, if_neg hleaf.2, hget], hrest⟩
  · intro i group hget hi
    rw [get?_delete] at hget
    split at hget
    · cases hget
    next hi' =>
    refine hmirrors.dormant i group hget fun hmem => hi ?_
    obtain ⟨leaf, hl, rfl⟩ := mem_map.mp hmem
    exact mem_map_of_mem (by rw [hleaves]; simp [hl, hi'])
  · obtain ⟨leaf, hl, rfl⟩ := mem_map.mp hmem
    exact mem_map_of_mem (by rw [hleaves]; simp [hl, hne])

theorem GoodLayout.atomicCloseLeaf (h : GoodLayout tree groups activeGroupId)

    (hres : atomicCloseLeaf tree groups activeGroupId leafId
      = .changed tree' groups' activeGroupId' migration) :
    GoodLayout tree' groups' activeGroupId' := by
  obtain ⟨leaf, target, newTree, destGroup, hfind, htarget, hclose, hdest, rfl, rfl, rfl, -⟩ :=
    atomicCloseLeaf_changed hres
  obtain ⟨htmem, htne⟩ := targetSiblingId_mem h.leafIds_nodup htarget
  obtain ⟨-, -, hctabs, cgroup, hcget, hcorder, hcactive⟩ := h.found hfind
  have hnew := h.closeLeafNode hclose htmem htne
  obtain ⟨dest, hdestLeaf⟩ := Option.ne_none_iff_exists'.mp
    (mt findLeafNode_eq_none_iff.mp (not_not.mpr hnew.active))
  obtain ⟨-, hdmem, hdtabs, dgroup, hdget, hdorder, hdactive⟩ := hnew.found hdestLeaf
  rw [destinationGroup, hdget, Option.getD_some, hcget] at hdest
  subst hdest
  refine hnew.syncLeaf (fun key => ?_) ?_ hdmem ?_
  · exact mem_of_migrateTabs_activeKey (fun k hk => hdorder ▸ hdtabs.activeKey k (hdactive ▸ hk))
      (fun k hk => hcorder ▸ hctabs.activeKey k (hcactive ▸ hk))
  · rw [migrateTabs_openOrder]
    exact nodup_appendMissing (hdorder ▸ hdtabs.nodup) _
  · split
    · exact hdmem
    · next hactive =>
      obtain ⟨-, hleaves⟩ := closeLeafNode_some hclose
      obtain ⟨l, hl, hid⟩ := mem_map.mp h.active
      rw [leafIds, hleaves, ← hid]
      exact mem_map_of_mem (by simp [hl, hid, hactive])

/-! ## Splitting -/

/-- The ids a split action generates are not in the tree yet. -/
def FreshSplitIds (clock : ℕ → ℕ) (tree : LayoutNode) (counter : ℕ) : Prop :=
  (generateLayoutId clock .leaf counter).1 ∉ tree.ids ∧
    (generateLayoutId clock .split (counter + 1)).1 ∉ tree.ids

instance (clock : ℕ → ℕ) (tree : LayoutNode) (counter : ℕ) :
    Decidable (FreshSplitIds clock tree counter) := inferInstanceAs (Decidable (_ ∧ _))

variable {newFileKey : Option String}

/-- The leaf a split adds: its new file, when there is one, is open and active. -/
theorem tabsOk_newLeaf (id : String) (hkey : newFileKey ≠ some "") :
    LeafGroupNode.TabsOk { id, openFileKeys := keysOfNewFile newFileKey, activeKey := newFileKey } where
  activeKey key h := by
    obtain rfl : newFileKey = some key := h
    simpa [keysOfNewFile] using hkey
  nodup := by
    cases newFileKey with
    | none => exact nodup_nil
    | some key => exact List.Nodup.filter _ (nodup_singleton key)

theorem GoodLayout.atomicSplitLeaf {clock : ℕ → ℕ} (h : GoodLayout tree groups activeGroupId)
    {orientation : Orientation} {counter : ℕ}
    (hkey : newFileKey ≠ some "") (hfresh : FreshSplitIds clock tree counter)

    (hres : (atomicSplitLeaf clock tree groups leafId orientation newFileKey none counter).1
      = .changed tree' groups' activeGroupId' migration) :
    GoodLayout tree' groups' activeGroupId' := by
  obtain ⟨hshape, hids, hmirrors, -⟩ := goodLayout_iff.mp h
  obtain ⟨hfreshLeaf, hfreshSplit⟩ := hfresh
  obtain ⟨newId, finalId, counter', hmem, rfl, rfl, rfl, hnew⟩ := atomicSplitLeaf_changed hres
  obtain ⟨hnewId, hfinal⟩ := hnew rfl
  rw [← hnewId] at hfreshLeaf
  have hnotLeaf := fun hnew => hfreshLeaf ((leafIds_sublist_ids tree).subset hnew)
  obtain ⟨rfl, rfl⟩ := hfinal hnotLeaf
  have htabs := tabsOk_newLeaf finalId hkey
  have hwell := htabs.wellFormed (hnewId ▸ isBlank_generateLayoutId clock .leaf counter)
  refine goodLayout_iff.mpr ⟨hshape.splitLeafRec clock leafId orientation hwell _, ?_, ⟨?_, ?_⟩, ?_⟩
  · refine (ids_splitLeafRec clock orientation _ tree hmem h.leafIds_nodup _).nodup_iff.mpr ?_
    refine nodup_cons.mpr ⟨?_, nodup_cons.mpr ⟨hfreshLeaf, hids⟩⟩
    rw [mem_cons, not_or]
    exact ⟨hnewId ▸ (generateLayoutId_leaf_ne_split clock _ _).symm, hfreshSplit⟩
  · intro l hl
    rcases mem_getAllLeafNodes_splitLeafRec.mp hl with hl | ⟨rfl, -⟩
    · obtain ⟨hltabs, g, hget, hrest⟩ := hmirrors.leaf l hl
      have hne : l.id ≠ finalId := fun heq => hnotLeaf (heq ▸ mem_map_of_mem hl)
      exact ⟨hltabs, g, by rw [get?_set_ne _ _ hne, hget], hrest⟩
    · exact ⟨htabs, _, get?_set_self _ _ _, rfl, rfl⟩
  · intro i group hget hi
    have hne : i ≠ finalId := fun heq => hi (mem_map.mpr
      ⟨_, mem_getAllLeafNodes_splitLeafRec.mpr (.inr ⟨rfl, hmem⟩), heq.symm⟩)
    rw [get?_set_ne _ _ hne] at hget
    refine hmirrors.dormant i group hget fun hold => hi ?_
    obtain ⟨l, hl, rfl⟩ := mem_map.mp hold
    exact mem_map_of_mem (mem_getAllLeafNodes_splitLeafRec.mpr (.inl hl))
  · exact mem_map.mpr ⟨_, mem_getAllLeafNodes_splitLeafRec.mpr (.inr ⟨rfl, hmem⟩), rfl⟩

/-! ## Ratios and unsplit -/

theorem GoodLayout.ratios {tree tree' : LayoutNode}
    (h : GoodLayout tree groups activeGroupId) (hratios : OnlyRatiosChanged tree tree') :
    GoodLayout tree' groups activeGroupId := by
  obtain ⟨hshape, hids, hmirrors, hactive⟩ := goodLayout_iff.mp h
  refine goodLayout_iff.mpr ⟨hratios.shape hshape, hratios.ids ▸ hids, ?_, ?_⟩
  · rw [hratios.leaves]; exact hmirrors
  · rw [leafIds, hratios.leaves]; exact hactive

theorem GoodLayout.ratioMutation {ui : CodeWorkspaceUi}
    (h : GoodLayout ui.layoutTreeV2 ui.editorGroups ui.activeEditorGroupId)
    {nextTree : Option LayoutNode} (hratios : ∀ tree ∈ nextTree, OnlyRatiosChanged ui.layoutTreeV2 tree)

    (hres : ratioMutation ui nextTree = .changed tree' groups' activeGroupId' migration) :
    GoodLayout tree' groups' activeGroupId' := by
  cases nextTree with
  | none => cases hres
  | some tree =>
    obtain ⟨rfl, rfl, rfl, -⟩ := LayoutMutationResult.changed.inj hres
    exact h.ratios (hratios tree rfl)

/-- What the collapsed leaf holds: the first leaf's id and every key once. -/
theorem unsplitAllLeaves_some {root : LayoutNode} {activeLeafId : Option String}
    {survivor : LeafGroupNode} {keys : List String}
    (h : unsplitAllLeaves root activeLeafId = some (survivor, keys)) :
    (∃ first ∈ (getAllLeafNodes root).head?, survivor.id = first.id) ∧
      keys = appendMissing [] ((getAllLeafNodes root).flatMap LeafGroupNode.openFileKeys) ∧
      survivor.openFileKeys = keys ∧ ∀ key ∈ survivor.activeKey, key ∈ keys := by
  rw [unsplitAllLeaves] at h
  split at h
  · cases h
  · cases h
  · next first others _ hleaves =>
    obtain ⟨rfl, rfl⟩ := Prod.mk.inj (Option.some.inj h)
    refine ⟨⟨first, by simp [hleaves], rfl⟩, by rw [hleaves], rfl, fun key hkey => ?_⟩
    exact of_decide_eq_true (Option.filter_eq_some_iff.mp hkey).2

theorem GoodLayout.unsplitAllMutation {ui : CodeWorkspaceUi}
    (h : GoodLayout ui.layoutTreeV2 ui.editorGroups ui.activeEditorGroupId)

    (hres : unsplitAllMutation ui = .changed tree' groups' activeGroupId' migration) :
    GoodLayout tree' groups' activeGroupId' := by
  obtain ⟨hshape, -, -, -⟩ := goodLayout_iff.mp h
  rw [Layout.unsplitAllMutation] at hres
  cases hunsplit : unsplitAllLeaves ui.layoutTreeV2 (some ui.activeEditorGroupId) with
  | none => simp [hunsplit] at hres
  | some result =>
    obtain ⟨survivor, keys⟩ := result
    obtain ⟨⟨first, hfirst, hid⟩, hkeys, hopen, hactive⟩ := unsplitAllLeaves_some hunsplit
    simp only [hunsplit] at hres
    obtain ⟨rfl, rfl, rfl, -⟩ := LayoutMutationResult.changed.inj hres
    have hblank := (hshape.leafWellFormed first (mem_of_mem_head? hfirst)).1
    have htabs : survivor.TabsOk :=
      ⟨hopen ▸ hactive, hopen ▸ hkeys ▸ nodup_appendMissing nodup_nil _⟩
    refine goodLayout_iff.mpr ⟨.leaf (htabs.wellFormed (hid ▸ hblank)), by simp, ⟨?_, ?_⟩, by simp⟩
    · rintro leaf hleaf
      obtain rfl : leaf = survivor := by simpa using hleaf
      exact ⟨htabs, _, get?_set_self _ _ _, hopen.symm, rfl⟩
    · intro i group hget hi
      have hne : i ≠ survivor.id := by simpa using hi
      rw [get?_set_ne _ _ hne, Record.get?_filter] at hget
      obtain ⟨-, hdormant⟩ := Option.filter_eq_some_iff.mp hget
      simpa [hne] using hdormant

end Taomni.Layout
