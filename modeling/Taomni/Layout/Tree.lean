import Taomni.Common.Record

/-!
# The recursive editor layout

Reference: `components/editor/workspace/layoutTree/types.ts`.

An editor layout is a tree of splits over leaf groups, beside a dictionary of editor groups that
repeats each leaf's tabs. Ratios are exact rationals.
-/

namespace Taomni.Layout

open List

inductive Orientation where
  | horizontal
  | vertical
deriving DecidableEq, Repr

variable (f : LeafGroupNode → LeafGroupNode) (i : String) (node : LeafGroupNode) (o : Orientation)

namespace Orientation

/-- The orientation as the source writes it. -/
def name : Orientation → String
  | horizontal => "horizontal"
  | vertical => "vertical"

/-- The two accepted orientation strings. -/
def ofName? (s : String) : Option Orientation :=
  if s = "horizontal" then some horizontal else if s = "vertical" then some vertical else none

@[simp] theorem ofName?_name : ofName? o.name = some o := by
  cases o <;> rfl

end Orientation

structure LeafGroupNode where
  id : String
  openFileKeys : List String
  activeKey : Option String
deriving DecidableEq, Repr

/-- `LeafGroupNode | SplitLayoutNode`. -/
inductive LayoutNode where
  | leaf (node : LeafGroupNode)
  | split (id : String) (orientation : Orientation) (children : List LayoutNode) (ratios : List ℚ)

structure LayoutEditorGroupState where
  id : String
  openOrder : List String
  activeKey : Option String
  previewKey : Option String
  pinnedKeys : List String
deriving DecidableEq, Repr

/-- The group a leaf falls back to when the dictionary has none for it. -/
def LayoutEditorGroupState.fresh (id : String) : LayoutEditorGroupState :=
  { id, openOrder := [], activeKey := none, previewKey := none, pinnedKeys := [] }

/-- `activeKey === fileKey ? (rest[0] ?? null) : activeKey`. -/
def activeAfterRemoval (order : List String) (activeKey : Option String) (fileKey : String) :
    Option String :=
  if activeKey = some fileKey then (order.filter (· ≠ fileKey)).head? else activeKey

/-- A group that lost a tab, with the tab it activates instead. -/
def LayoutEditorGroupState.withoutTab (group : LayoutEditorGroupState) (fileKey : String)
    (activeKey : Option String) : LayoutEditorGroupState :=
  { group with
    openOrder := group.openOrder.filter (· ≠ fileKey)
    activeKey
    previewKey := if group.previewKey = some fileKey then none else group.previewKey
    pinnedKeys := group.pinnedKeys.filter (· ≠ fileKey) }

/-- A group that received a tab and shows it. -/
def LayoutEditorGroupState.withTab (group : LayoutEditorGroupState) (fileKey : String) :
    LayoutEditorGroupState :=
  { group with
    openOrder := if fileKey ∈ group.openOrder then group.openOrder else group.openOrder ++ [fileKey]
    activeKey := some fileKey }

abbrev Groups := Record LayoutEditorGroupState

/-! ## Induction over the tree -/

/-- Induction with one hypothesis for all children of a split. -/
@[elab_as_elim, induction_eliminator]
theorem LayoutNode.induction {motive : LayoutNode → Prop} (leaf : ∀ node, motive (.leaf node))
    (split : ∀ id orientation children ratios, (∀ child ∈ children, motive child) →
      motive (.split id orientation children ratios)) (node : LayoutNode) : motive node :=
  LayoutNode.rec (motive_1 := motive) (motive_2 := fun children => ∀ child ∈ children, motive child)
    leaf (fun id orientation children ratios ih => split id orientation children ratios ih)
    (by simp)
    (fun child rest ihChild ihRest c hc => by
      rcases mem_cons.mp hc with rfl | hc
      · exact ihChild
      · exact ihRest c hc)
    node

/-- Case analysis that keeps the two shapes of a node. -/
@[elab_as_elim, cases_eliminator]
theorem LayoutNode.casesNode {motive : LayoutNode → Prop} (leaf : ∀ node, motive (.leaf node))
    (split : ∀ id orientation children ratios, motive (.split id orientation children ratios))
    (node : LayoutNode) : motive node :=
  LayoutNode.induction leaf (fun id orientation children ratios _ =>
    split id orientation children ratios) node

variable (children : List LayoutNode) (ratios : List ℚ)

namespace LayoutNode

mutual

/-- Decidable equality of trees, by the nested recursion. -/
def decEq : (a b : LayoutNode) → Decidable (a = b)
  | .leaf a, .leaf b => decidable_of_iff (a = b) (by rw [leaf.injEq])
  | .leaf _, .split .. => isFalse (by simp)
  | .split .., .leaf _ => isFalse (by simp)
  | .split i o cs rs, .split i' o' cs' rs' =>
      have : Decidable (cs = cs') := decEqList cs cs'
      decidable_of_iff (i = i' ∧ o = o' ∧ cs = cs' ∧ rs = rs') (by rw [split.injEq])

def decEqList : (a b : List LayoutNode) → Decidable (a = b)
  | [], [] => isTrue rfl
  | [], _ :: _ => isFalse (by simp)
  | _ :: _, [] => isFalse (by simp)
  | a :: as, b :: bs =>
      have : Decidable (a = b) := decEq a b
      have : Decidable (as = bs) := decEqList as bs
      decidable_of_iff (a = b ∧ as = bs) (by rw [List.cons.injEq])

end

instance : DecidableEq LayoutNode := decEq

/-- `node.id`. -/
def id : LayoutNode → String
  | leaf node => node.id
  | split i _ _ _ => i

/-- Every node id in preorder. -/
def ids : LayoutNode → List String
  | leaf node => [node.id]
  | split i _ children _ => i :: idsList children
where
  idsList : List LayoutNode → List String
    | [] => []
    | child :: rest => ids child ++ idsList rest

theorem idsList_eq : ids.idsList children = children.flatMap ids := by
  induction children with
  | nil => rfl
  | cons child rest ih => rw [ids.idsList, ih, flatMap_cons]

@[simp] theorem ids_leaf : (leaf node).ids = [node.id] := rfl

@[simp] theorem ids_split : (split i o children ratios).ids = i :: children.flatMap ids := by
  rw [ids, idsList_eq]

/-- Rewrite every leaf by `f`, keeping the splits. -/
def mapLeaves (f : LeafGroupNode → LeafGroupNode) : LayoutNode → LayoutNode
  | leaf node => leaf (f node)
  | split i o children ratios => split i o (mapLeavesList children) ratios
where
  mapLeavesList : List LayoutNode → List LayoutNode
    | [] => []
    | child :: rest => mapLeaves f child :: mapLeavesList rest

theorem mapLeavesList_eq : mapLeaves.mapLeavesList f children = children.map (mapLeaves f) := by
  induction children with
  | nil => rfl
  | cons child rest ih => rw [mapLeaves.mapLeavesList, ih, map_cons]

@[simp] theorem mapLeaves_leaf : (leaf node).mapLeaves f = leaf (f node) := rfl

@[simp] theorem mapLeaves_split :
    (split i o children ratios).mapLeaves f = split i o (children.map (mapLeaves f)) ratios := by
  rw [mapLeaves, mapLeavesList_eq]

end LayoutNode

/-! ## Why a layout is rejected -/

/-- One diagnostic of `validateLayoutTree`, with the path of the offending node. -/
inductive TreeError where
  | notAnObject (path : String)
  | invalidId (path : String)
  | duplicateId (path id : String)
  | openFileKeysNotArray (path : String)
  | nonStringKey (path : String)
  | activeKeyNotFound (path activeKey : String) (keys : List String)
  | activeKeyNotStringOrNull (path : String)
  | badOrientation (path : String)
  | tooFewChildren (path : String)
  | ratiosLength (path : String)
  | badRatio (path : String) (index : ℕ) (ratio : Json)
  | badRatioSum (path : String) (sum : ℚ)
  | unknownType (path : String) (type : Option Json)

/-- The text pushed to `errors`; `display` is the runtime's `String(value)`. -/
def TreeError.text (display : Option Json → String) : TreeError → String
  | notAnObject path => s!"{path}: node is not an object"
  | invalidId path => s!"{path}: missing or invalid id"
  | duplicateId path id => s!"{path}: duplicate node id \"{id}\""
  | openFileKeysNotArray path => s!"{path}: openFileKeys must be an array"
  | nonStringKey path => s!"{path}: openFileKeys contains non-string"
  | activeKeyNotFound path activeKey keys =>
      let listed := ", ".intercalate keys
      s!"{path}: activeKey \"{activeKey}\" not found in openFileKeys [{listed}]"
  | activeKeyNotStringOrNull path => s!"{path}: activeKey must be string or null"
  | badOrientation path => s!"{path}: orientation must be \"horizontal\" or \"vertical\""
  | tooFewChildren path => s!"{path}: split must have at least 2 children"
  | ratiosLength path => s!"{path}: ratios length must match children length"
  | badRatio path index ratio =>
      let got := display (some ratio)
      s!"{path}: ratio[{index}] must be a positive finite number, got {got}"
  | badRatioSum path sum =>
      let actual := display (some (.num (.finite sum)))
      s!"{path}: ratios must sum close to 1.0 (actual: {actual})"
  | unknownType path type =>
      let shown := display type
      s!"{path}: unknown node type \"{shown}\""

/-- One diagnostic of `validateTreeGroupConsistency`. -/
inductive ConsistencyError where
  | noGroup (leafId : String)
  | keyNotInGroup (leafId key : String)
  | keyNotInTree (leafId key : String)
  | activeKeyMismatch (leafId : String) (tree group : Option String)
  | noLeaf (groupId : String)
deriving DecidableEq, Repr

def ConsistencyError.text : ConsistencyError → String
  | noGroup leafId => s!"Leaf \"{leafId}\" has no matching group entry."
  | keyNotInGroup leafId key => s!"Leaf \"{leafId}\" tree has key \"{key}\" not in group openOrder."
  | keyNotInTree leafId key =>
      s!"Group \"{leafId}\" has key \"{key}\" not in tree openFileKeys."
  | activeKeyMismatch leafId tree group =>
      let inTree := tree.getD "null"
      let inGroup := group.getD "null"
      s!"Leaf \"{leafId}\" activeKey mismatch: tree=\"{inTree}\" vs group=\"{inGroup}\"."
  | noLeaf groupId => s!"Group \"{groupId}\" has no matching leaf in tree."

/-- Why `commitLayoutMutation` turned a mutation into `failed`. -/
inductive LayoutFailure where
  | treeInvalid (errors : List TreeError)
  | inconsistent (errors : List ConsistencyError)

def LayoutFailure.text (display : Option Json → String) : LayoutFailure → String
  | treeInvalid errors =>
      "Layout tree validation failed: " ++ ", ".intercalate (errors.map (TreeError.text display))
  | inconsistent errors =>
      "Tree/group consistency validation failed: "
        ++ "; ".intercalate (errors.map ConsistencyError.text)

/-- Where `atomicCloseLeaf` sent the tabs of the closed leaf. -/
structure LayoutMigration where
  destinationLeafId : String
  migratedKeys : List String
deriving DecidableEq, Repr

inductive LayoutMutationResult where
  | changed (tree : LayoutNode) (groups : Groups) (activeGroupId : String)
      (migration : Option LayoutMigration)
  | noOp (reason : String)
  | failed (reason : LayoutFailure)

/-- `result.kind === "failed"`. -/
def LayoutMutationResult.isFailed : LayoutMutationResult → Bool
  | failed _ => true
  | _ => false

/-!
# Reading and updating layout trees

Reference: `components/editor/workspace/layoutTree/tree.ts`.

A function that returns the tree reference it was given when it changes nothing returns an
`Option` here, with `none` for the unchanged reference.
-/

/-! ## Leaves -/

/-- Get all leaf nodes in preorder. -/
def getAllLeafNodes : LayoutNode → List LeafGroupNode
  | .leaf node => [node]
  | .split _ _ children _ => getAllLeafNodesList children
where
  getAllLeafNodesList : List LayoutNode → List LeafGroupNode
    | [] => []
    | child :: rest => getAllLeafNodes child ++ getAllLeafNodesList rest

theorem getAllLeafNodesList_eq :
    getAllLeafNodes.getAllLeafNodesList children = children.flatMap getAllLeafNodes := by
  induction children with
  | nil => rfl
  | cons child rest ih => rw [getAllLeafNodes.getAllLeafNodesList, ih, flatMap_cons]

@[simp] theorem getAllLeafNodes_leaf : getAllLeafNodes (.leaf node) = [node] := rfl

@[simp] theorem getAllLeafNodes_split :
    getAllLeafNodes (.split i o children ratios) = children.flatMap getAllLeafNodes := by
  rw [getAllLeafNodes, getAllLeafNodesList_eq]

/-- The ids of the leaves in preorder. -/
def leafIds (tree : LayoutNode) : List String := (getAllLeafNodes tree).map LeafGroupNode.id

@[simp] theorem leafIds_leaf : leafIds (.leaf node) = [node.id] := rfl

@[simp] theorem leafIds_split : leafIds (.split i o children ratios) = children.flatMap leafIds := by
  rw [leafIds, getAllLeafNodes_split, map_flatMap]
  rfl

/-- Leaf ids are a subsequence of the node ids. -/
theorem leafIds_sublist_ids (tree : LayoutNode) : (leafIds tree).Sublist tree.ids := by
  induction tree with
  | leaf node => exact List.Sublist.refl _
  | split i o children ratios ih =>
    rw [leafIds_split, LayoutNode.ids_split]
    refine List.Sublist.cons _ ?_
    induction children with
    | nil => exact List.Sublist.refl _
    | cons child rest ihRest =>
      rw [flatMap_cons, flatMap_cons]
      exact (ih child (by simp)).append (ihRest fun c hc => ih c (by simp [hc]))

theorem getAllLeafNodes_mapLeaves (tree : LayoutNode) :
    getAllLeafNodes (tree.mapLeaves f) = (getAllLeafNodes tree).map f := by
  induction tree with
  | leaf node => rfl
  | split i o children ratios ih =>
    rw [LayoutNode.mapLeaves_split, getAllLeafNodes_split, getAllLeafNodes_split, map_flatMap,
      flatMap_map]
    exact flatMap_congr ih

/-- Rewriting leaves without renaming them keeps every node id. -/
theorem ids_mapLeaves {f : LeafGroupNode → LeafGroupNode} (hf : ∀ node, (f node).id = node.id)
    (tree : LayoutNode) : (tree.mapLeaves f).ids = tree.ids := by
  induction tree with
  | leaf node => simp [hf]
  | split i o children ratios ih =>
    rw [LayoutNode.mapLeaves_split, LayoutNode.ids_split, LayoutNode.ids_split, flatMap_map]
    exact congrArg _ (flatMap_congr ih)

theorem leafIds_mapLeaves {f : LeafGroupNode → LeafGroupNode} (hf : ∀ node, (f node).id = node.id)
    (tree : LayoutNode) : leafIds (tree.mapLeaves f) = leafIds tree := by
  rw [leafIds, leafIds, getAllLeafNodes_mapLeaves, map_map]
  exact map_congr_left fun leaf _ => hf leaf

/-- Find a specific leaf node by ID. -/
def findLeafNode : LayoutNode → String → Option LeafGroupNode
  | .leaf node, leafId => if node.id = leafId then some node else none
  | .split _ _ children _, leafId => findLeafNodeList children leafId
where
  findLeafNodeList : List LayoutNode → String → Option LeafGroupNode
    | [], _ => none
    | child :: rest, leafId =>
        match findLeafNode child leafId with
        | some found => some found
        | none => findLeafNodeList rest leafId

/-- `findLeafNode` is the preorder search. -/
theorem findLeafNode_eq_find? (tree : LayoutNode) (leafId : String) :
    findLeafNode tree leafId = (getAllLeafNodes tree).find? (fun leaf => leaf.id = leafId) := by
  induction tree with
  | leaf node =>
    by_cases h : node.id = leafId <;> simp [findLeafNode, h]
  | split i o children ratios ih =>
    rw [findLeafNode, getAllLeafNodes_split]
    induction children with
    | nil => rfl
    | cons child rest ihRest =>
      rw [findLeafNode.findLeafNodeList, flatMap_cons, find?_append,
        ih child (by simp), ihRest fun c hc => ih c (by simp [hc])]
      cases (getAllLeafNodes child).find? (fun leaf => leaf.id = leafId) <;> rfl

variable {tree : LayoutNode} {leafId : String}

theorem findLeafNode_eq_none_iff : findLeafNode tree leafId = none ↔ leafId ∉ leafIds tree := by
  simp [findLeafNode_eq_find?, leafIds]

variable {leaf : LeafGroupNode}

/-- A found leaf is a leaf of the tree with the id asked for. -/
theorem findLeafNode_some
    (h : findLeafNode tree leafId = some leaf) : leaf ∈ getAllLeafNodes tree ∧ leaf.id = leafId := by
  rw [findLeafNode_eq_find?] at h
  exact ⟨mem_of_find?_eq_some h, by simpa using find?_some h⟩

/-- With distinct leaf ids, the leaf found is the only one with that id. -/
theorem eq_of_findLeafNode (hnd : (leafIds tree).Nodup)
    {other : LeafGroupNode} (h : findLeafNode tree leafId = some leaf)
    (ho : other ∈ getAllLeafNodes tree) (hid : other.id = leafId) : other = leaf := by
  obtain ⟨hmem, hleaf⟩ := findLeafNode_some h
  exact inj_on_of_nodup_map hnd ho hmem (hid.trans hleaf.symm)

/-! ## Updates -/

/-- Walk a layout tree and update a specific leaf node. -/
def updateLeafInTree (node : LayoutNode) (leafId : String)
    (updater : LeafGroupNode → LeafGroupNode) : LayoutNode :=
  node.mapLeaves fun leaf => if leaf.id = leafId then updater leaf else leaf

/-- Sync a leaf's tab list from its group; `none` when the leaf is missing or unchanged. -/
def setLeafTabs (root : LayoutNode) (leafId : String) (openFileKeys : List String)
    (activeKey : Option String) : Option LayoutNode :=
  match findLeafNode root leafId with
  | none => none
  | some leaf =>
      if leaf.openFileKeys = openFileKeys ∧ leaf.activeKey = activeKey then none
      else some (updateLeafInTree root leafId fun target => { target with openFileKeys, activeKey })

/-- The single-leaf tree every creation path goes through. -/
def createSingleLeafLayout (leafId : String) (openFileKeys : List String)
    (activeKey : Option String) : LeafGroupNode :=
  { id := leafId, openFileKeys, activeKey }

/-! ## The adjacent sibling -/

/-- The preorder first leaf of a sibling, itself when it is a leaf. -/
def firstLeaf (node : LayoutNode) : Option LeafGroupNode := (getAllLeafNodes node).head?

/-- `search` of `findAdjacentSiblingLeaf`: the sibling leaf, and whether the target was found.
`searchChildren` carries the child before the current one, which is the sibling of the last. -/
def searchSibling (targetLeafId : String) : LayoutNode → Option LeafGroupNode × Bool
  | .leaf node => (none, node.id = targetLeafId)
  | .split _ _ children _ => searchChildren none children
where
  searchChildren (previous : Option LayoutNode) :
      List LayoutNode → Option LeafGroupNode × Bool
    | [] => (none, false)
    | .leaf node :: rest =>
        if node.id = targetLeafId then ((rest.head?.or previous).bind firstLeaf, true)
        else searchChildren (some (.leaf node)) rest
    | .split i o children ratios :: rest =>
        let res := searchSibling targetLeafId (.split i o children ratios)
        if res.2 then
          if res.1.isSome then res else ((rest.head?.or previous).bind firstLeaf, true)
        else searchChildren (some (.split i o children ratios)) rest

/-- Find the leaf that inherits the tabs of `targetLeafId`: its next sibling along the parent
split, else the previous one, else the first other leaf. -/
def findAdjacentSiblingLeaf (tree : LayoutNode) (targetLeafId : String) : Option LeafGroupNode :=
  match (searchSibling targetLeafId tree).1 with
  | some sibling => some sibling
  | none => ((getAllLeafNodes tree).filter (fun leaf => leaf.id ≠ targetLeafId)).head?

theorem firstLeaf_mem {node : LayoutNode} (h : firstLeaf node = some leaf) :
    leaf ∈ getAllLeafNodes node := mem_of_mem_head? (by rw [firstLeaf] at h; simp [h])

/-- The search reports `found` exactly when the target is a leaf below the node. -/
theorem searchSibling_found (target : String) (tree : LayoutNode) :
    (searchSibling target tree).2 = decide (target ∈ leafIds tree) := by
  induction tree with
  | leaf node => simp [searchSibling, eq_comm]
  | split i o children ratios ih =>
    rw [searchSibling, leafIds_split]
    generalize (none : Option LayoutNode) = previous
    induction children generalizing previous with
    | nil => simp [searchSibling.searchChildren]
    | cons child rest ihRest =>
      have hchild := ih child (by simp)
      have hrest := fun previous => ihRest (fun c hc => ih c (by simp [hc])) previous
      rw [flatMap_cons]
      have hhere : target ∈ leafIds child →
          decide (target ∈ leafIds child ++ rest.flatMap leafIds) = true := fun h =>
        decide_eq_true (mem_append_left _ h)
      have hlater : target ∉ leafIds child →
          decide (target ∈ leafIds child ++ rest.flatMap leafIds) =
            decide (target ∈ rest.flatMap leafIds) := fun h => by
        rw [decide_eq_decide, mem_append, or_iff_right h]
      cases child with
      | leaf node =>
        rw [searchSibling.searchChildren]
        by_cases hid : node.id = target
        · rw [hhere (by simp [hid]), if_pos hid]
        · rw [hlater (by simpa [eq_comm] using hid), if_neg hid, hrest]
      | split i o cs rs =>
        rw [searchSibling.searchChildren]
        by_cases hmem : target ∈ leafIds (.split i o cs rs)
        · rw [hhere hmem, hchild]
          simp only [hmem, decide_true, if_true]
          split
          · simp only [hchild, hmem, decide_true]
          · rfl
        · rw [hlater hmem, hchild]
          simp only [hmem, decide_false, Bool.false_eq_true, if_false, hrest]

variable {target : String}

/-- The neighbour of a child that holds the target is a leaf other than the target. -/
private theorem neighbour_ne {child : LayoutNode} {rest : List LayoutNode}
    {previous : Option LayoutNode} (hprev : ∀ p, previous = some p → target ∉ leafIds p)
    (hnd : ((child :: rest).flatMap leafIds).Nodup) (htarget : target ∈ leafIds child)
    (h : (rest.head?.or previous).bind firstLeaf = some leaf) :
    leaf ∈ previous.elim [] getAllLeafNodes ++ (child :: rest).flatMap getAllLeafNodes ∧
      leaf.id ≠ target := by
  obtain ⟨next, hnext, hfirst⟩ := Option.bind_eq_some_iff.mp h
  have hmem := firstLeaf_mem hfirst
  cases rest with
  | nil =>
    have hp : previous = some next := by simpa using hnext
    refine ⟨mem_append_left _ (by simpa [hp] using hmem), ?_⟩
    rintro rfl
    exact hprev next hp (mem_map_of_mem hmem)
  | cons sibling more =>
    obtain rfl : sibling = next := by simpa using hnext
    refine ⟨mem_append_right _ (mem_flatMap.mpr ⟨sibling, by simp, hmem⟩), ?_⟩
    rintro rfl
    rw [flatMap_cons, nodup_append] at hnd
    exact hnd.2.2 leaf.id htarget leaf.id
      (mem_flatMap.mpr ⟨sibling, by simp, mem_map_of_mem hmem⟩) rfl

private theorem searchChildren_ne (ih : ∀ child ∈ children, (leafIds child).Nodup → ∀ leaf,
      (searchSibling target child).1 = some leaf → leaf ∈ getAllLeafNodes child ∧ leaf.id ≠ target)
    (previous : Option LayoutNode) (hprev : ∀ p, previous = some p → target ∉ leafIds p)
    (hnd : (children.flatMap leafIds).Nodup)
    (h : (searchSibling.searchChildren target previous children).1 = some leaf) :
    leaf ∈ previous.elim [] getAllLeafNodes ++ children.flatMap getAllLeafNodes ∧ leaf.id ≠ target := by
  induction children generalizing previous with
  | nil => simp [searchSibling.searchChildren] at h
  | cons child rest ihRest =>
    have hndChild : (leafIds child).Nodup := by
      rw [flatMap_cons] at hnd; exact hnd.of_append_left
    have hndRest : (rest.flatMap leafIds).Nodup := by
      rw [flatMap_cons] at hnd; exact hnd.of_append_right
    -- the step past a child without the target, which becomes the previous child
    have hskip : target ∉ leafIds child →
        (searchSibling.searchChildren target (some child) rest).1 = some leaf →
        leaf ∈ previous.elim [] getAllLeafNodes ++ (child :: rest).flatMap getAllLeafNodes ∧
          leaf.id ≠ target := by
      intro hnot hrest
      obtain ⟨hmem, hne⟩ := ihRest (fun c hc => ih c (by simp [hc])) (some child)
        (fun p hp => by cases hp; exact hnot) hndRest hrest
      exact ⟨mem_append_right _ hmem, hne⟩
    cases child with
    | leaf node =>
      rw [searchSibling.searchChildren] at h
      by_cases hid : node.id = target
      · rw [if_pos hid] at h
        exact neighbour_ne hprev hnd (by simp [hid]) h
      · rw [if_neg hid] at h
        exact hskip (by simpa [eq_comm] using hid) h
    | split i o cs rs =>
      rw [searchSibling.searchChildren] at h
      simp only [searchSibling_found, decide_eq_true_eq] at h
      by_cases hmem : target ∈ leafIds (.split i o cs rs)
      · rw [if_pos hmem] at h
        split at h
        · obtain ⟨hleaf, hne⟩ := ih _ (by simp) hndChild leaf h
          refine ⟨mem_append_right _ (mem_flatMap.mpr ⟨_, by simp, hleaf⟩), hne⟩
        · exact neighbour_ne hprev hnd hmem h
      · rw [if_neg hmem] at h
        exact hskip hmem h

private theorem searchSibling_ne (tree : LayoutNode) :
    (leafIds tree).Nodup → ∀ leaf, (searchSibling target tree).1 = some leaf →
      leaf ∈ getAllLeafNodes tree ∧ leaf.id ≠ target := by
  induction tree with
  | leaf node => simp [searchSibling]
  | split i o children ratios ih =>
    intro hnd leaf h
    rw [leafIds_split] at hnd
    rw [searchSibling] at h
    simpa using searchChildren_ne children ih none (by simp) hnd h

/-- The leaf that inherits the tabs is a leaf of the tree other than the target. -/
theorem findAdjacentSiblingLeaf_ne (hnd : (leafIds tree).Nodup)
    (h : findAdjacentSiblingLeaf tree target = some leaf) :
    leaf ∈ getAllLeafNodes tree ∧ leaf.id ≠ target := by
  rw [findAdjacentSiblingLeaf] at h
  cases hs : (searchSibling target tree).1 with
  | some sibling =>
    obtain rfl : sibling = leaf := by simpa [hs] using h
    exact searchSibling_ne tree hnd _ hs
  | none =>
    rw [hs] at h
    simpa using mem_of_mem_head? (Option.mem_def.mpr h)

end Taomni.Layout
