import Mathlib.Data.List.Pairwise
import Taomni.Layout.Invariant

/-!
# The active tab after a tab is closed

Reference: `atomicCloseTabInLeaf` of `components/editor/workspace/layoutTree/transactions.ts`.

Without a policy the transaction keeps the active tab unless it is the closed one. With a policy it
stores what `selectActivateOnClose` returns, and that is null whenever the closed tab was not active:
a leaf that shows one tab loses its active tab when another one is closed.
-/

namespace Taomni.Layout

open List
open TabPolicy (AnyWorkspaceTabPolicy defaultWorkspaceTabPolicyV3
  exists_selectActivateOnClose mem_of_selectActivateOnClose)
open Record (get?_set get?_set_ne get?_set_self)

/-- What closing `fileKey` may do to the active tab of `leaf`: nothing when another tab is active,
and otherwise move it to a remaining tab, or to null when none remains. -/
structure KeepsActive (leaf closed : LeafGroupNode) (fileKey : String) : Prop where
  other : leaf.activeKey ≠ some fileKey → closed.activeKey = leaf.activeKey
  active : leaf.activeKey = some fileKey →
    (∃ key ∈ leaf.openFileKeys, key ≠ fileKey ∧ closed.activeKey = some key) ∨
      closed.activeKey = none ∧ ∀ key ∈ leaf.openFileKeys, key = fileKey

/-- Closing a tab changes the layout, drops the tab from its leaf and treats the active tab well, in
the leaf and in its group. -/
def CloseTabKeepsActive (tree : LayoutNode) (groups : Groups) (activeGroupId leafId fileKey : String)
    (policy : Option AnyWorkspaceTabPolicy) (lastUsedByKey : Option (Record JsNumber)) : Prop :=
  ∃ tree' groups' activeGroupId' leaf closed group, findLeafNode tree leafId = some leaf ∧
    atomicCloseTabInLeaf tree groups activeGroupId leafId fileKey policy lastUsedByKey
      = .changed tree' groups' activeGroupId' none ∧
    findLeafNode tree' leafId = some closed ∧ groups'.get? leafId = some group ∧
    (∀ key, key ∈ closed.openFileKeys ↔ key ∈ leaf.openFileKeys ∧ key ≠ fileKey) ∧
    closed.activeKey = group.activeKey ∧ KeepsActive leaf closed fileKey

variable {tree : LayoutNode}

theorem findLeafNode_updateLeafInTree {leafId : String} {leaf : LeafGroupNode}
    (hfind : findLeafNode tree leafId = some leaf) {updater : LeafGroupNode → LeafGroupNode}
    (hid : ∀ leaf, (updater leaf).id = leaf.id) :
    findLeafNode (updateLeafInTree tree leafId updater) leafId = some (updater leaf) := by
  have hleaf := (findLeafNode_some hfind).2
  have hkeep : ((fun leaf : LeafGroupNode => decide (leaf.id = leafId)) ∘ fun leaf =>
      if leaf.id = leafId then updater leaf else leaf) = fun leaf => decide (leaf.id = leafId) := by
    funext leaf
    rw [Function.comp_apply]
    split <;> simp only [hid]
  rw [findLeafNode_eq_find?] at hfind
  rw [findLeafNode_eq_find?, updateLeafInTree, getAllLeafNodes_mapLeaves, find?_map, hkeep, hfind,
    Option.map_some, if_pos hleaf]

variable {group : LayoutEditorGroupState}

/-- Once the active tab of a group is closed, a remaining one is active, if there is one. -/
theorem activeAfterClose_of_active {fileKey : String}
    (hactive : group.activeKey = some fileKey) (hopen : fileKey ∈ group.openOrder)
    (policy : Option AnyWorkspaceTabPolicy) (lastUsedByKey : Option (Record JsNumber)) :
    (∃ key ∈ group.openOrder.filter (· ≠ fileKey),
        activeAfterClose group fileKey policy lastUsedByKey = some key) ∨
      activeAfterClose group fileKey policy lastUsedByKey = none ∧
        group.openOrder.filter (· ≠ fileKey) = [] := by
  by_cases hremaining : group.openOrder.filter (· ≠ fileKey) = []
  · refine .inr ⟨?_, hremaining⟩
    cases hnext : activeAfterClose group fileKey policy lastUsedByKey with
    | none => rfl
    | some key =>
      have hmem := mem_of_activeAfterClose (fun k hk => by
        obtain rfl : fileKey = k := Option.some.inj (hactive.symm.trans hk)
        exact hopen) hnext
      rw [hremaining] at hmem
      cases hmem
  · obtain ⟨key, hkey⟩ : ∃ key, activeAfterClose group fileKey policy lastUsedByKey = some key := by
      cases policy with
      | none =>
        obtain ⟨first, rest, hsplit⟩ := exists_cons_of_ne_nil hremaining
        exact ⟨first, by rw [activeAfterClose, activeAfterRemoval, if_pos hactive, hsplit]; rfl⟩
      | some policy =>
        rw [activeAfterClose, hactive]
        exact exists_selectActivateOnClose hopen hremaining _ policy
    exact .inl ⟨key, mem_of_activeAfterClose (fun k hk => by
      obtain rfl : fileKey = k := Option.some.inj (hactive.symm.trans hk)
      exact hopen) hkey, hkey⟩

/-- A tab that is not active leaves the active tab alone without a policy, and clears it with one. -/
theorem activeAfterClose_of_other {fileKey : String}
    (hother : group.activeKey ≠ some fileKey) (policy : Option AnyWorkspaceTabPolicy)
    (lastUsedByKey : Option (Record JsNumber)) : activeAfterClose group fileKey policy lastUsedByKey =
      if policy = none then group.activeKey else none := by
  cases policy with
  | none => exact if_neg hother
  | some policy =>
    rw [if_neg (Option.some_ne_none policy), activeAfterClose]
    exact if_pos hother

/-- Closing an open tab of a consistent layout treats the active tab well exactly when there is no
policy, the closed tab is the active one, or the leaf has no active tab. -/
theorem atomicCloseTabInLeaf_keepsActive_iff {tree : LayoutNode} {groups : Groups}
    (hcons : validateTreeGroupConsistency tree groups = []) {leafId : String} {leaf : LeafGroupNode}
    (hfind : findLeafNode tree leafId = some leaf) {fileKey : String}
    (hopen : fileKey ∈ leaf.openFileKeys) (activeGroupId : String)
    (policy : Option AnyWorkspaceTabPolicy) (lastUsedByKey : Option (Record JsNumber)) :
    CloseTabKeepsActive tree groups activeGroupId leafId fileKey policy lastUsedByKey ↔
      policy = none ∨ leaf.activeKey = some fileKey ∨ leaf.activeKey = none := by
  obtain ⟨hmem, rfl⟩ := findLeafNode_some hfind
  obtain ⟨group, hget, hkeys, hactive⟩ :=
    (validateTreeGroupConsistency_eq_nil_iff.mp hcons).leaf leaf hmem
  have hres : ∃ activeGroupId', atomicCloseTabInLeaf tree groups activeGroupId leaf.id fileKey policy
      lastUsedByKey = .changed
        (syncLeaf tree leaf.id (group.withoutTab fileKey
          (activeAfterClose group fileKey policy lastUsedByKey)))
        (groups.set leaf.id (group.withoutTab fileKey
          (activeAfterClose group fileKey policy lastUsedByKey))) activeGroupId' none := by
    have hfilter : (groups.get? leaf.id).filter (fileKey ∈ ·.openOrder) = some group := by
      rw [hget, Option.filter_eq_some_iff]
      exact ⟨rfl, decide_eq_true ((hkeys fileKey).mp hopen)⟩
    rw [atomicCloseTabInLeaf, hfind, hfilter]
    exact ⟨_, rfl⟩
  obtain ⟨activeGroupId', hres⟩ := hres
  have hclosed : findLeafNode (syncLeaf tree leaf.id (group.withoutTab fileKey
      (activeAfterClose group fileKey policy lastUsedByKey))) leaf.id = some { leaf with
        openFileKeys := group.openOrder.filter (· ≠ fileKey)
        activeKey := activeAfterClose group fileKey policy lastUsedByKey } :=
    findLeafNode_updateLeafInTree hfind fun _ => rfl
  have hremaining : ∀ key, key ∈ group.openOrder.filter (· ≠ fileKey) ↔
      key ∈ leaf.openFileKeys ∧ key ≠ fileKey := fun key => by
    rw [mem_filter, decide_eq_true_eq, hkeys]
  constructor
  · rintro ⟨tree', groups', gid, leaf', closed, group', hfind', hres', hfound, -, -, -, hkeep⟩
    obtain rfl : leaf = leaf' := Option.some.inj (hfind.symm.trans hfind')
    obtain ⟨rfl, -, -, -⟩ := LayoutMutationResult.changed.inj (hres.symm.trans hres')
    obtain rfl := Option.some.inj (hclosed.symm.trans hfound)
    by_cases hother : leaf.activeKey = some fileKey
    · exact .inr (.inl hother)
    by_cases hpolicy : policy = none
    · exact .inl hpolicy
    have hstored := hkeep.other hother
    rw [activeAfterClose_of_other (hactive ▸ hother), if_neg hpolicy] at hstored
    exact .inr (.inr hstored.symm)
  · intro hcond
    refine ⟨_, _, _, _, _, _, hfind, hres, hclosed, get?_set_self _ _ _, hremaining, rfl,
      ⟨fun hother => ?_, fun hclosing => ?_⟩⟩
    · show activeAfterClose group fileKey policy lastUsedByKey = leaf.activeKey
      rw [activeAfterClose_of_other (hactive ▸ hother)]
      rcases hcond with hpolicy | hclosing | hnone
      · rw [if_pos hpolicy, hactive]
      · exact absurd hclosing hother
      · rw [← hactive, hnone, ite_self]
    · rcases activeAfterClose_of_active (hactive ▸ hclosing) ((hkeys fileKey).mp hopen) policy
        lastUsedByKey with ⟨key, hkey, hnext⟩ | ⟨hnext, hnil⟩
      · obtain ⟨hleaf, hne⟩ := (hremaining key).mp hkey
        exact .inl ⟨key, hleaf, hne, hnext⟩
      · refine .inr ⟨hnext, fun key hkey => not_not.mp fun hne => ?_⟩
        have := (hremaining key).mpr ⟨hkey, hne⟩
        rw [hnil] at this
        cases this

/-- A leaf with two tabs that shows the first. -/
def twoTabs : LeafGroupNode :=
  { id := "leaf-primary", openFileKeys := ["a.ts", "b.ts"], activeKey := some "a.ts" }

/-- The group of `twoTabs`. -/
def twoTabsGroups : Groups :=
  Record.empty.set "leaf-primary"
    { id := "leaf-primary", openOrder := ["a.ts", "b.ts"], activeKey := some "a.ts",
      previewKey := none, pinnedKeys := [] }

/-- The statement at a leaf whose active tab is closed under the default policy. -/
theorem atomicCloseTabInLeaf_keepsActive_twoTabs :
    CloseTabKeepsActive (.leaf twoTabs) twoTabsGroups "leaf-primary" "leaf-primary" "a.ts"
      (some (.v3 defaultWorkspaceTabPolicyV3)) none :=
  (atomicCloseTabInLeaf_keepsActive_iff (by decide)
    (show findLeafNode (.leaf twoTabs) "leaf-primary" = some twoTabs by rfl) (by decide) _ _ _).mpr
      (.inr (.inl rfl))

/-- Closing `b.ts` beside the active `a.ts` under the default policy leaves the leaf with no active
tab, although the layout is consistent and `a.ts` stays open. -/
theorem atomicCloseTabInLeaf_clears_active :
    validateTreeGroupConsistency (.leaf twoTabs) twoTabsGroups = [] ∧
      findLeafNode (.leaf twoTabs) "leaf-primary" = some twoTabs ∧ "b.ts" ∈ twoTabs.openFileKeys ∧
      ¬ CloseTabKeepsActive (.leaf twoTabs) twoTabsGroups "leaf-primary" "leaf-primary" "b.ts"
        (some (.v3 defaultWorkspaceTabPolicyV3)) none := by
  refine ⟨by decide, by decide, by decide, ?_⟩
  rintro ⟨tree', groups', gid, leaf, closed, group, hfind, hres, hfound, -, -, -, hkeep⟩
  obtain rfl : twoTabs = leaf := Option.some.inj hfind
  obtain ⟨rfl, -⟩ := LayoutMutationResult.changed.inj hres
  obtain rfl : { twoTabs with openFileKeys := ["a.ts"], activeKey := none } = closed :=
    Option.some.inj (hfound.symm.trans (by decide)).symm
  exact absurd (hkeep.other (by decide)) (by decide)

/-!
# Splitting with a caller-chosen id

Reference: `atomicSplitLeaf` of `components/editor/workspace/layoutTree/transactions.ts` and
`splitLeafNode` of `mutations.ts`.

`splitLeafNode` replaces a new leaf id that another leaf has, but `atomicSplitLeaf` stores the new
group under the id it was asked for, and neither looks at the ids of splits.
`atomicSplitLeaf_keepsLayout_iff` says for which ids the layout stays whole.
-/

/-- A split changes nothing, or gives a tree and groups that pass both validators and keeps the group
of every leaf the tree had. -/
def SplitKeepsLayout (clock : ℕ → ℕ) (tree : LayoutNode) (groups : Groups) (leafId : String)
    (orientation : Orientation) (newFileKey customNewLeafId : Option String) (counter : ℕ) : Prop :=
  let result := (atomicSplitLeaf clock tree groups leafId orientation newFileKey customNewLeafId
    counter).1
  (∃ reason, result = .noOp reason) ∨
    ∃ tree' groups' activeGroupId', result = .changed tree' groups' activeGroupId' none ∧
      (validateLayoutTree tree'.toJson).1 = true ∧ validateTreeGroupConsistency tree' groups' = [] ∧
      ∀ i ∈ leafIds tree, groups'.get? i = groups.get? i

/-! ## The ids of a split -/

/-- The id asked for, the caller's or a generated one, and the counter after it. -/
def requestedLeafId (clock : ℕ → ℕ) (customNewLeafId : Option String) (counter : ℕ) : String × ℕ :=
  match customNewLeafId with
  | some id => (id, counter)
  | none => generateLayoutId clock .leaf counter

/-- The id the new leaf gets: the requested one, or another generated id when a leaf has it. -/
def repairedLeafId (clock : ℕ → ℕ) (tree : LayoutNode) (customNewLeafId : Option String)
    (counter : ℕ) : String × ℕ :=
  let (newLeafId, counter) := requestedLeafId clock customNewLeafId counter
  if newLeafId ∈ leafIds tree then generateLayoutId clock .leaf counter else (newLeafId, counter)

/-- The id of the split that takes the place of the leaf. -/
def newSplitId (clock : ℕ → ℕ) (tree : LayoutNode) (customNewLeafId : Option String)
    (counter : ℕ) : String :=
  (generateLayoutId clock .split (repairedLeafId clock tree customNewLeafId counter).2).1

/-- The group a split adds. -/
def newLeafGroup (id : String) (newFileKey : Option String) : LayoutEditorGroupState :=
  { id, openOrder := keysOfNewFile newFileKey, activeKey := newFileKey, previewKey := none,
    pinnedKeys := [] }

/-- The leaf a split adds. -/
def addedLeaf (id : String) (newFileKey : Option String) : LeafGroupNode :=
  { id, openFileKeys := keysOfNewFile newFileKey, activeKey := newFileKey }

/-- What a split of an existing leaf returns. -/
theorem atomicSplitLeaf_eq (clock : ℕ → ℕ) (groups : Groups) {leafId : String}
    (hmem : leafId ∈ leafIds tree) (orientation : Orientation)
    (newFileKey customNewLeafId : Option String) (counter : ℕ) :
    (atomicSplitLeaf clock tree groups leafId orientation newFileKey customNewLeafId counter).1 =
      .changed (splitLeafRec clock leafId orientation
          (addedLeaf (repairedLeafId clock tree customNewLeafId counter).1 newFileKey) tree
          (repairedLeafId clock tree customNewLeafId counter).2).1
        (groups.set (requestedLeafId clock customNewLeafId counter).1
          (newLeafGroup (requestedLeafId clock customNewLeafId counter).1 newFileKey))
        (requestedLeafId clock customNewLeafId counter).1 none := by
  obtain ⟨leaf, hfind⟩ := Option.ne_none_iff_exists'.mp
    (mt findLeafNode_eq_none_iff.mp (not_not.mpr hmem))
  simp only [atomicSplitLeaf, splitLeafNode, hfind]
  rfl

/-! ## When the result is valid -/

/-- The two ids a split adds are usable: not blank, new to the tree and distinct. -/
structure FreshNodes (clock : ℕ → ℕ) (tree : LayoutNode) (customNewLeafId : Option String)
    (counter : ℕ) : Prop where
  notBlank : isBlank (repairedLeafId clock tree customNewLeafId counter).1 = false
  leaf : (repairedLeafId clock tree customNewLeafId counter).1 ∉ tree.ids
  split : newSplitId clock tree customNewLeafId counter ∉ tree.ids
  distinct : newSplitId clock tree customNewLeafId counter
    ≠ (repairedLeafId clock tree customNewLeafId counter).1

theorem addedLeaf_wellFormed_iff {id : String} {newFileKey : Option String} :
    (addedLeaf id newFileKey).WellFormed ↔ isBlank id = false := by
  refine ⟨And.left, fun hid => ⟨hid, fun key hkey => ?_⟩⟩
  obtain rfl : newFileKey = some key := hkey
  by_cases hempty : key = ""
  · exact .inl (by rw [addedLeaf, keysOfNewFile, hempty]; rfl)
  · exact .inr (by simp [addedLeaf, keysOfNewFile, hempty])

/-- The split tree is valid exactly when its new ids are. -/
theorem validateLayoutTree_splitLeafRec_iff {clock : ℕ → ℕ} {tree : LayoutNode} {leafId : String}
    (hvalid : (validateLayoutTree tree.toJson).1 = true) (hmem : leafId ∈ leafIds tree)
    (orientation : Orientation) (newFileKey customNewLeafId : Option String) (counter : ℕ) :
    (validateLayoutTree (splitLeafRec clock leafId orientation
        (addedLeaf (repairedLeafId clock tree customNewLeafId counter).1 newFileKey) tree
        (repairedLeafId clock tree customNewLeafId counter).2).1.toJson).1 = true ↔
      FreshNodes clock tree customNewLeafId counter := by
  obtain ⟨hshape, hids⟩ := (validateLayoutTree_toJson_iff tree).mp hvalid
  have hperm := ids_splitLeafRec clock orientation
    (addedLeaf (repairedLeafId clock tree customNewLeafId counter).1 newFileKey) tree hmem
    (hids.sublist (leafIds_sublist_ids tree)) (repairedLeafId clock tree customNewLeafId counter).2
  rw [validateLayoutTree_toJson_iff, hperm.nodup_iff, nodup_cons, nodup_cons,
    mem_cons, not_or]
  constructor
  · rintro ⟨hnew, ⟨hne, hsplit⟩, hleaf, -⟩
    have hwell := hnew.leafWellFormed _ (mem_getAllLeafNodes_splitLeafRec.mpr (.inr ⟨rfl, hmem⟩))
    exact ⟨addedLeaf_wellFormed_iff.mp hwell, hleaf, hsplit, hne⟩
  · rintro ⟨hblank, hleaf, hsplit, hne⟩
    exact ⟨hshape.splitLeafRec clock leafId orientation (addedLeaf_wellFormed_iff.mpr hblank) _,
      ⟨hne, hsplit⟩, hleaf, hids⟩

/-! ## When the groups stay right -/

/-- The group written for the requested id does no harm: no leaf has that id, or the leaf that has it
keeps the very group it had and the repaired id already has an empty group. -/
def GroupHarmless (clock : ℕ → ℕ) (tree : LayoutNode) (groups : Groups)
    (newFileKey customNewLeafId : Option String) (counter : ℕ) : Prop :=
  let requested := (requestedLeafId clock customNewLeafId counter).1
  requested ∉ leafIds tree ∨
    keysOfNewFile newFileKey = [] ∧
    groups.get? requested = some (newLeafGroup requested newFileKey) ∧
    ∃ group ∈ groups.get? (repairedLeafId clock tree customNewLeafId counter).1,
      group.activeKey = newFileKey

theorem repairedLeafId_of_notMem {clock : ℕ → ℕ} {customNewLeafId : Option String} {counter : ℕ}
    (hnew : (requestedLeafId clock customNewLeafId counter).1 ∉ leafIds tree) :
    repairedLeafId clock tree customNewLeafId counter
      = requestedLeafId clock customNewLeafId counter := by
  rw [repairedLeafId]
  exact if_neg hnew

/-- The split tree and the new groups agree, and no leaf's group changed, exactly when the written
group is harmless. -/
theorem consistent_splitLeafRec_iff {clock : ℕ → ℕ} {tree : LayoutNode} {groups : Groups}
    {leafId : String} (hcons : Consistent tree groups) (hmem : leafId ∈ leafIds tree)
    (orientation : Orientation) (newFileKey customNewLeafId : Option String) (counter : ℕ)
    (hfresh : (repairedLeafId clock tree customNewLeafId counter).1 ∉ leafIds tree) :
    (Consistent (splitLeafRec clock leafId orientation
          (addedLeaf (repairedLeafId clock tree customNewLeafId counter).1 newFileKey) tree
          (repairedLeafId clock tree customNewLeafId counter).2).1
        (groups.set (requestedLeafId clock customNewLeafId counter).1
          (newLeafGroup (requestedLeafId clock customNewLeafId counter).1 newFileKey)) ∧
      ∀ i ∈ leafIds tree, (groups.set (requestedLeafId clock customNewLeafId counter).1
        (newLeafGroup (requestedLeafId clock customNewLeafId counter).1 newFileKey)).get? i
          = groups.get? i) ↔ GroupHarmless clock tree groups newFileKey customNewLeafId counter := by
  generalize hrequested : (requestedLeafId clock customNewLeafId counter).1 = requested at *
  generalize hrepaired : repairedLeafId clock tree customNewLeafId counter = repaired at *
  rw [GroupHarmless, hrequested, hrepaired]
  have hadded : addedLeaf repaired.1 newFileKey ∈ getAllLeafNodes (splitLeafRec clock leafId
      orientation (addedLeaf repaired.1 newFileKey) tree repaired.2).1 :=
    mem_getAllLeafNodes_splitLeafRec.mpr (.inr ⟨rfl, hmem⟩)
  constructor
  · rintro ⟨hnew, hkept⟩
    by_cases hfree : requested ∉ leafIds tree
    · exact .inl hfree
    have htaken := not_not.mp hfree
    have hne : repaired.1 ≠ requested := fun heq => hfresh (heq ▸ htaken)
    obtain ⟨group, hget, hkeys, hactive⟩ := hnew.leaf _ hadded
    rw [addedLeaf, get?_set_ne _ _ hne] at hget
    -- a group the tree has no leaf for is empty
    have hnil := hcons.dormant _ _ hget hfresh
    refine .inr ⟨eq_nil_iff_forall_not_mem.mpr fun key hkey => ?_, ?_, group, hget,
      hactive.symm⟩
    · have := (hkeys key).mp hkey
      rw [hnil] at this
      cases this
    · rw [← hkept requested htaken, get?_set_self]
  · intro hharmless
    have hkept : ∀ i ∈ leafIds tree,
        (groups.set requested (newLeafGroup requested newFileKey)).get? i = groups.get? i := by
      intro i hi
      by_cases heq : i = requested
      · subst heq
        rcases hharmless with hfree | ⟨-, hsame, -⟩
        · exact absurd hi hfree
        · rw [get?_set_self, hsame]
      · exact get?_set_ne _ _ heq
    refine ⟨⟨fun leaf hleaf => ?_, fun i group hget hi => ?_⟩, hkept⟩
    · rcases mem_getAllLeafNodes_splitLeafRec.mp hleaf with hold | ⟨rfl, -⟩
      · rw [hkept leaf.id (mem_map_of_mem hold)]
        exact hcons.leaf leaf hold
      · rcases hharmless with hfree | ⟨hnil, -, group, hget, hactive⟩
        · have hsame : repaired = requestedLeafId clock customNewLeafId counter := by
            rw [← hrepaired]
            exact repairedLeafId_of_notMem (hrequested ▸ hfree)
          refine ⟨newLeafGroup requested newFileKey, ?_, fun key => Iff.rfl, rfl⟩
          rw [addedLeaf, hsame, hrequested, get?_set_self]
        · have hempty := hcons.dormant _ _ hget hfresh
          by_cases heq : repaired.1 = requested
          · refine ⟨newLeafGroup requested newFileKey, ?_, fun key => Iff.rfl, rfl⟩
            rw [addedLeaf, heq, get?_set_self]
          · refine ⟨group, by rw [addedLeaf, get?_set_ne _ _ heq, hget], fun key => ?_,
              hactive.symm⟩
            rw [addedLeaf, hnil, hempty]
    · have hold : i ∉ leafIds tree := fun hin => hi (by
        obtain ⟨leaf, hleaf, rfl⟩ := mem_map.mp hin
        exact mem_map_of_mem (mem_getAllLeafNodes_splitLeafRec.mpr (.inl hleaf)))
      by_cases heq : i = requested
      · subst heq
        have hsame : repaired = requestedLeafId clock customNewLeafId counter := by
          rw [← hrepaired]
          exact repairedLeafId_of_notMem (hrequested ▸ hold)
        refine absurd ?_ hi
        rw [← hrequested, ← hsame]
        exact mem_map_of_mem hadded
      · rw [get?_set_ne _ _ heq] at hget
        exact hcons.dormant i group hget hold

/-- A split of a valid, consistent layout keeps it whole exactly when its target does not exist, or
the ids it adds are usable and the group it writes is harmless. -/
theorem atomicSplitLeaf_keepsLayout_iff {tree : LayoutNode} {groups : Groups}
    (hvalid : (validateLayoutTree tree.toJson).1 = true)
    (hcons : validateTreeGroupConsistency tree groups = []) (clock : ℕ → ℕ) (leafId : String)
    (orientation : Orientation) (newFileKey customNewLeafId : Option String) (counter : ℕ) :
    SplitKeepsLayout clock tree groups leafId orientation newFileKey customNewLeafId counter ↔
      leafId ∉ leafIds tree ∨ FreshNodes clock tree customNewLeafId counter ∧
          GroupHarmless clock tree groups newFileKey customNewLeafId counter := by
  rw [SplitKeepsLayout]
  by_cases hmem : leafId ∈ leafIds tree
  · rw [atomicSplitLeaf_eq clock groups hmem]
    have htree := @validateLayoutTree_splitLeafRec_iff clock _ _ hvalid hmem orientation newFileKey
      customNewLeafId counter
    have hgroups := @consistent_splitLeafRec_iff clock _ _ _
      (validateTreeGroupConsistency_eq_nil_iff.mp hcons) hmem orientation newFileKey customNewLeafId
      counter
    rw [or_iff_right (not_not.mpr hmem), ← htree]
    constructor
    · rintro (⟨reason, hres⟩ | ⟨tree', groups', gid, hres, hvalid', hcons', hkept⟩)
      · cases hres
      obtain ⟨rfl, rfl, -, -⟩ := LayoutMutationResult.changed.inj hres
      have hfresh := fun hin => (htree.mp hvalid').leaf ((leafIds_sublist_ids tree).subset hin)
      exact ⟨hvalid', (hgroups hfresh).mp
        ⟨validateTreeGroupConsistency_eq_nil_iff.mp hcons', hkept⟩⟩
    · rintro ⟨hvalid', hharmless⟩
      have hfresh := fun hin => (htree.mp hvalid').leaf ((leafIds_sublist_ids tree).subset hin)
      obtain ⟨hcons', hkept⟩ := (hgroups hfresh).mpr hharmless
      exact .inr ⟨_, _, _, rfl, hvalid', validateTreeGroupConsistency_eq_nil_iff.mpr hcons', hkept⟩
  · refine iff_of_true (.inl ?_) (.inl hmem)
    simp only [atomicSplitLeaf, findLeafNode_eq_none_iff.mpr hmem]
    exact ⟨_, rfl⟩

/-- A layout of one empty leaf. -/
def emptyLeaf : LeafGroupNode := { id := "leaf-primary", openFileKeys := [], activeKey := none }

/-- The group of `emptyLeaf`. -/
def emptyLeafGroups : Groups := Record.empty.set "leaf-primary" (.fresh "leaf-primary")

/-- The statement at a caller-chosen id nothing else has. -/
theorem atomicSplitLeaf_keepsLayout_fresh :
    SplitKeepsLayout (fun _ => 7) (.leaf emptyLeaf) emptyLeafGroups "leaf-primary" .vertical
      (some "a.ts") (some "leaf-right") 0 :=
  (atomicSplitLeaf_keepsLayout_iff (by decide) (by decide) _ _ _ _ _ _).mpr
    (.inr ⟨⟨by decide, by decide, by decide, by decide⟩, .inl (by decide)⟩)

/-- Splitting `leaf-primary` under its own id overwrites its group, and the new leaf has none. -/
theorem atomicSplitLeaf_overwrites_group :
    (validateLayoutTree (LayoutNode.leaf emptyLeaf).toJson).1 = true ∧
      validateTreeGroupConsistency (.leaf emptyLeaf) emptyLeafGroups = [] ∧
      ¬ SplitKeepsLayout (fun _ => 7) (.leaf emptyLeaf) emptyLeafGroups "leaf-primary" .vertical
        (some "a.ts") (some "leaf-primary") 0 := by
  refine ⟨by decide, by decide, ?_⟩
  rintro (⟨reason, hres⟩ | ⟨tree', groups', gid, hres, -, -, hkept⟩)
  · cases hres
  obtain ⟨-, rfl, -, -⟩ := LayoutMutationResult.changed.inj hres
  exact absurd (hkept "leaf-primary" (by decide)) (by decide)

/-!
# Renamed and removed files

Reference: `remapLayoutTreeKeys` of `components/editor/workspace/layoutTree/persistence.ts`.

Every open key of a leaf is renamed or dropped by itself. The active key is renamed apart from them
and falls back to the active key of the leaf's group. `remapLayoutTreeKeys_wellFormed_iff` says for
which changes the leaves come out with distinct keys and a proper active key.
-/

/-- What a key becomes: its entry in `keyChanges` (`none` removes it), itself without one. -/
def remapKey (keyChanges : Record (Option String)) (key : String) : Option String :=
  (keyChanges.get? key).getD (some key)

/-- The open keys of a leaf after the changes. -/
def remapOpenFileKeys (keyChanges : Record (Option String)) (validKeys : List String)
    (openFileKeys : List String) : List String :=
  (openFileKeys.filterMap (remapKey keyChanges)).filter (· ∈ validKeys)

/-- The active key of a leaf after the changes. The empty string is falsy and stays as it is. -/
def remapActiveKey (keyChanges : Record (Option String)) (validKeys : List String)
    (group : Option LayoutEditorGroupState) (activeKey : Option String) : Option String :=
  let nextKey := match activeKey with
    | some key => if key ≠ "" then remapKey keyChanges key else some key
    | none => none
  match nextKey with
  | some key =>
      if key ≠ "" ∧ key ∉ validKeys then group.bind (·.activeKey) else some key
  | none => none

/-- The leaf case of `remapLayoutTreeKeys`. -/
def remapLeaf (keyChanges : Record (Option String)) (validKeys : List String)
    (editorGroups : Groups) (leaf : LeafGroupNode) : LeafGroupNode :=
  { leaf with
    openFileKeys := remapOpenFileKeys keyChanges validKeys leaf.openFileKeys
    activeKey := remapActiveKey keyChanges validKeys (editorGroups.get? leaf.id) leaf.activeKey }

/-- Reconcile and remap file keys inside a layout tree when files are renamed or removed. -/
def remapLayoutTreeKeys (tree : LayoutNode) (keyChanges : Record (Option String))
    (validKeys : List String) (editorGroups : Groups) : LayoutNode :=
  tree.mapLeaves (remapLeaf keyChanges validKeys editorGroups)

/-! ## One leaf -/

/-- Some open key of the list becomes the valid key `key`. -/
def TurnsInto (keyChanges : Record (Option String)) (validKeys openFileKeys : List String)
    (key : String) : Prop :=
  key ∈ validKeys ∧ ∃ old ∈ openFileKeys, remapKey keyChanges old = some key

variable {keyChanges : Record (Option String)}

theorem mem_remapOpenFileKeys {validKeys openFileKeys : List String} {key : String} :
    key ∈ remapOpenFileKeys keyChanges validKeys openFileKeys ↔
      TurnsInto keyChanges validKeys openFileKeys key := by
  rw [remapOpenFileKeys, mem_filter, mem_filterMap, decide_eq_true_eq, and_comm]
  rfl

/-- No two open keys become one valid key. -/
def DistinctTargets (keyChanges : Record (Option String)) (validKeys openFileKeys : List String) :
    Prop :=
  ∀ a ∈ openFileKeys, ∀ b ∈ openFileKeys, ∀ key ∈ validKeys,
    remapKey keyChanges a = some key → remapKey keyChanges b = some key → a = b

theorem nodup_remapOpenFileKeys_iff
    {validKeys openFileKeys : List String} (hnodup : openFileKeys.Nodup) :
    (remapOpenFileKeys keyChanges validKeys openFileKeys).Nodup ↔
      DistinctTargets keyChanges validKeys openFileKeys := by
  rw [remapOpenFileKeys, List.Nodup, pairwise_filter, pairwise_filterMap]
  simp only [decide_eq_true_eq]
  constructor
  · intro hpair a ha b hb key hkey hreada hreadb
    by_contra hne
    have hsymm : Std.Symm fun a b : String => ∀ k, remapKey keyChanges a = some k →
        ∀ k', remapKey keyChanges b = some k' → k ∈ validKeys → k' ∈ validKeys → k ≠ k' :=
      ⟨fun a b h k hk k' hk' hv hv' => (h k' hk' k hk hv' hv).symm⟩
    exact hpair.forall ha hb hne key hreada key hreadb hkey hkey rfl
  · intro hdistinct
    refine hnodup.pairwise_of_forall_ne fun a ha b hb hne k hk k' hk' hv hv' heq => hne ?_
    exact hdistinct a ha b hb k hv hk (heq ▸ hk')

/-- The changes treat a leaf well: its open keys get distinct valid names, and the active key, the
renamed one or the one of the group, is one of them. -/
structure ChangesFit (keyChanges : Record (Option String)) (validKeys : List String)
    (group : Option LayoutEditorGroupState) (leaf : LeafGroupNode) : Prop where
  distinct : DistinctTargets keyChanges validKeys leaf.openFileKeys
  emptyKey : leaf.activeKey = some "" → TurnsInto keyChanges validKeys leaf.openFileKeys ""
  emptyName : ∀ active ∈ leaf.activeKey, active ≠ "" → remapKey keyChanges active = some "" →
    "" ∈ validKeys
  opened : ∀ active ∈ leaf.activeKey, active ≠ "" → ∀ key ∈ validKeys,
    remapKey keyChanges active = some key → leaf.openFileKeys ≠ []
  fallback : ∀ active ∈ leaf.activeKey, active ≠ "" → ∀ key, key ≠ "" → key ∉ validKeys →
    remapKey keyChanges active = some key → ∀ other ∈ group.bind (·.activeKey),
      TurnsInto keyChanges validKeys leaf.openFileKeys other

theorem remapActiveKey_mem_iff {validKeys : List String}
    {group : Option LayoutEditorGroupState} {leaf : LeafGroupNode} (hleaf : leaf.WellFormed)
    (hdistinct : DistinctTargets keyChanges validKeys leaf.openFileKeys) :
    (∀ key ∈ remapActiveKey keyChanges validKeys group leaf.activeKey,
        TurnsInto keyChanges validKeys leaf.openFileKeys key) ↔
      ChangesFit keyChanges validKeys group leaf := by
  cases hactive : leaf.activeKey with
  | none =>
    refine iff_of_true (fun key hkey => by cases hkey) ⟨hdistinct, ?_, ?_, ?_, ?_⟩ <;>
      simp [hactive]
  | some active =>
  by_cases hempty : active = ""
  · subst hempty
    constructor
    · intro h
      refine ⟨hdistinct, fun _ => h "" rfl, ?_, ?_, ?_⟩ <;> simp [hactive]
    · rintro h key hkey
      obtain rfl : "" = key := Option.some.inj hkey
      exact h.emptyKey hactive
  have hopen : leaf.openFileKeys ≠ [] → active ∈ leaf.openFileKeys :=
    (hleaf.2 active hactive).resolve_left
  cases hrename : remapKey keyChanges active with
  | none =>
    have hnone : remapActiveKey keyChanges validKeys group (some active) = none := by
      simp only [remapActiveKey, ne_eq, hempty, not_false_eq_true, if_true, hrename]
    refine iff_of_true (fun key hkey => by rw [hnone] at hkey; cases hkey)
      ⟨hdistinct, ?_, ?_, ?_, ?_⟩ <;> simp [hactive, hempty, hrename]
  | some renamed =>
    have hnext : remapActiveKey keyChanges validKeys group (some active) =
        if renamed ≠ "" ∧ renamed ∉ validKeys then group.bind (·.activeKey) else some renamed := by
      simp only [remapActiveKey, ne_eq, hempty, not_false_eq_true, if_true, hrename]
    rw [hnext]
    constructor
    · intro h
      refine ⟨hdistinct, by simp [hactive, hempty], ?_, ?_, ?_⟩
      · rintro a ha - hread
        obtain rfl : active = a := Option.some.inj (hactive.symm.trans ha)
        obtain rfl : renamed = "" := Option.some.inj (hrename.symm.trans hread)
        exact (h "" (by simp)).1
      · rintro a ha - key hkey hread hnil
        obtain rfl : active = a := Option.some.inj (hactive.symm.trans ha)
        obtain rfl : renamed = key := Option.some.inj (hrename.symm.trans hread)
        obtain ⟨-, old, hold, -⟩ := h renamed (by simp [hkey])
        rw [hnil] at hold
        cases hold
      · rintro a ha - key hne hinvalid hread other hother
        obtain rfl : active = a := Option.some.inj (hactive.symm.trans ha)
        obtain rfl : renamed = key := Option.some.inj (hrename.symm.trans hread)
        exact h other (by rw [if_pos ⟨hne, hinvalid⟩]; exact hother)
    · intro h key hkey
      split at hkey
      · next hfall => exact h.fallback active hactive hempty renamed hfall.1 hfall.2 hrename key hkey
      · next hkeep =>
        obtain rfl : renamed = key := Option.some.inj hkey
        have hvalid : renamed ∈ validKeys := by
          by_cases hname : renamed = ""
          · exact hname ▸ h.emptyName active hactive hempty (hname ▸ hrename)
          · by_contra hinvalid
            exact hkeep ⟨hname, hinvalid⟩
        exact ⟨hvalid, active, hopen (h.opened active hactive hempty renamed hvalid hrename), hrename⟩

/-! ## The tree -/

/-- What a rename or removal should leave: an accepted tree whose leaves list distinct valid keys and
show one of them or none. -/
structure WellRemapped (tree : LayoutNode) (validKeys : List String) : Prop where
  accepted : (validateLayoutTree tree.toJson).1 = true
  nodup : ∀ leaf ∈ getAllLeafNodes tree, leaf.openFileKeys.Nodup
  valid : ∀ leaf ∈ getAllLeafNodes tree, ∀ key ∈ leaf.openFileKeys, key ∈ validKeys
  activeKey : ∀ leaf ∈ getAllLeafNodes tree, ∀ key ∈ leaf.activeKey, key ∈ leaf.openFileKeys

/-- A leaf with two files open. -/
def twoFiles : LeafGroupNode :=
  { id := "leaf-primary", openFileKeys := ["a.ts", "b.ts"], activeKey := some "a.ts" }

/-- The group of `twoFiles` once `a.ts` is renamed to `name` and `b.ts` dropped or merged. -/
def renamedGroups (name : String) : Groups :=
  Record.empty.set "leaf-primary"
    { id := "leaf-primary", openOrder := [name], activeKey := some name, previewKey := none,
      pinnedKeys := [] }

end Taomni.Layout
