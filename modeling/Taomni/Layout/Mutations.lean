import Mathlib.Tactic.FieldSimp
import Mathlib.Tactic.Linarith
import Mathlib.Tactic.Ring
import Taomni.Common.Lists
import Taomni.Layout.Validation

/-!
# Pure layout mutations

Reference: `components/editor/workspace/layoutTree/identity.ts` and `mutations.ts`.

Reducers that return the same tree reference on a no-op return `none` here. Each mutation is
followed by what it does to the leaves, the node ids and the shape of the tree.
-/

namespace Taomni.Layout

/-! ## Generated ids -/

inductive LayoutIdPrefix where
  | leaf
  | split
deriving DecidableEq, Repr

def LayoutIdPrefix.name : LayoutIdPrefix → String
  | leaf => "leaf"
  | split => "split"

/-- Bump the monotonic counter and build an id from it and the clock. `clock n` is what `Date.now()`
reads in the call that sets the counter to `n`; no caller modelled here passes a workspace id. -/
def generateLayoutId (clock : ℕ → ℕ) (kind : LayoutIdPrefix) (counter : ℕ) : String × ℕ :=
  let counter := counter + 1
  (s!"{kind.name}-{clock counter}-{counter}", counter)

/-! ## Split -/

/-- `newFileKey ? [newFileKey] : []`: the empty string is falsy. -/
def keysOfNewFile (newFileKey : Option String) : List String :=
  newFileKey.toList.filter (· ≠ "")

/-- `updateRecursive` of `splitLeafNode`, threading the id counter through the traversal. -/
def splitLeafRec (clock : ℕ → ℕ) (leafId : String) (orientation : Orientation)
    (newLeaf : LeafGroupNode) : LayoutNode → ℕ → LayoutNode × ℕ
  | .leaf node, counter =>
      if node.id = leafId then
        let (splitId, counter) := generateLayoutId clock .split counter
        (.split splitId orientation [.leaf node, .leaf newLeaf] [1 / 2, 1 / 2], counter)
      else (.leaf node, counter)
  | .split i o children ratios, counter =>
      let (children, counter) := splitLeafList children counter
      (.split i o children ratios, counter)
where
  splitLeafList : List LayoutNode → ℕ → List LayoutNode × ℕ
    | [], counter => ([], counter)
    | child :: rest, counter =>
        let (child, counter) := splitLeafRec clock leafId orientation newLeaf child counter
        let (rest, counter) := splitLeafList rest counter
        (child :: rest, counter)

/-- Split a leaf node; `none` when the target leaf does not exist. -/
def splitLeafNode (clock : ℕ → ℕ) (root : LayoutNode) (leafId : String) (orientation : Orientation)
    (newLeafId : String) (newFileKey : Option String) (counter : ℕ) : Option LayoutNode × ℕ :=
  match findLeafNode root leafId with
  | none => (none, counter)
  | some _ =>
      let (finalNewLeafId, counter) :=
        if newLeafId ∈ leafIds root then generateLayoutId clock .leaf counter
        else (newLeafId, counter)
      let newLeaf : LeafGroupNode :=
        { id := finalNewLeafId, openFileKeys := keysOfNewFile newFileKey, activeKey := newFileKey }
      let (tree, counter) := splitLeafRec clock leafId orientation newLeaf root counter
      (some tree, counter)

/-! ## Close -/

/-- `newChildren.map(() => 1 / newChildren.length)`. -/
def equalRatios (n : ℕ) : List ℚ := List.replicate n (1 / (n : ℚ))

/-- `removeRecursive` of `closeLeafNode`: drop the leaf and collapse splits left with one child. -/
def removeLeafRec (leafId : String) : LayoutNode → Option LayoutNode
  | .leaf node => if node.id = leafId then none else some (.leaf node)
  | .split i o children _ =>
      match removeLeafList children with
      | [] => none
      | [child] => some child
      | newChildren => some (.split i o newChildren (equalRatios newChildren.length))
where
  removeLeafList : List LayoutNode → List LayoutNode
    | [] => []
    | child :: rest => (removeLeafRec leafId child).toList ++ removeLeafList rest

/-- Close a leaf node; `none` when it is the last leaf or does not exist. -/
def closeLeafNode (root : LayoutNode) (leafId : String) : Option LayoutNode :=
  if (getAllLeafNodes root).length ≤ 1 then none
  else
    match findLeafNode root leafId with
    | none => none
    | some _ => removeLeafRec leafId root

/-! ## Tabs -/

/-- What `updateRecursive` of `moveTabBetweenLeaves` makes of a leaf. -/
def moveTabUpdate (sourceLeafId targetLeafId fileKey : String) (node : LeafGroupNode) :
    LeafGroupNode :=
  if node.id = sourceLeafId then
    { node with
      openFileKeys := node.openFileKeys.filter (· ≠ fileKey)
      activeKey := activeAfterRemoval node.openFileKeys node.activeKey fileKey }
  else if node.id = targetLeafId then
    { node with
      openFileKeys := if fileKey ∈ node.openFileKeys then node.openFileKeys
        else node.openFileKeys ++ [fileKey]
      activeKey := some fileKey }
  else node

/-- Move a file key from one leaf to another; `none` when nothing moves. -/
def moveTabBetweenLeaves (root : LayoutNode) (sourceLeafId targetLeafId fileKey : String) :
    Option LayoutNode :=
  if sourceLeafId = targetLeafId then none
  else
    match findLeafNode root sourceLeafId, findLeafNode root targetLeafId with
    | some sourceLeaf, some _ =>
        if fileKey ∉ sourceLeaf.openFileKeys then none
        else some (root.mapLeaves (moveTabUpdate sourceLeafId targetLeafId fileKey))
    | _, _ => none

/-- Set the active tab in a leaf node; `none` when the leaf or the key is missing. -/
def setLeafActiveTab (root : LayoutNode) (leafId : String) (fileKey : Option String) :
    Option LayoutNode :=
  match findLeafNode root leafId with
  | none => none
  | some leaf =>
      if fileKey.any (· ∉ leaf.openFileKeys) then none
      else some (updateLeafInTree root leafId fun node => { node with activeKey := fileKey })

/-! ## Ratios -/

/-- The recursion `updateSplitNodeRatios` and `stretchLeafInTree` share: where `pick` recognises a
split it decides the new ratios (`none` keeps the node) and the walk stops, elsewhere it descends
into every child. -/
def rewriteRatios (pick : String → List LayoutNode → List ℚ → Option (Option (List ℚ))) :
    LayoutNode → Option LayoutNode
  | .leaf _ => none
  | .split i o children ratios =>
      match pick i children ratios with
      | some newRatios => newRatios.map fun rs => .split i o children rs
      | none => (rewriteList children).map fun cs => .split i o cs ratios
where
  /-- Rewrite the children; `none` when none of them changed. -/
  rewriteList : List LayoutNode → Option (List LayoutNode)
    | [] => none
    | child :: rest =>
        match rewriteRatios pick child, rewriteList rest with
        | none, none => none
        | some child, rest? => some (child :: rest?.getD rest)
        | none, some rest => some (child :: rest)

/-- The ratios `updateSplitNodeRatios` gives a split with `n` children, if it changes them. -/
def normalizedRatios (rawRatios : List JsNumber) (n : ℕ) (ratios : List ℚ) : Option (List ℚ) :=
  if rawRatios.length ≠ n then none
  else
    match rawRatios.mapM JsNumber.finite? with
    | none => none
    | some raw =>
        if raw.any (· ≤ 0) then none
        else if raw.sum ≤ 0 then none
        else
          let normalized := raw.map (· / raw.sum)
          if normalized.isPrefixOf ratios then none else some normalized

/-- Update ratios of a split node and normalize them. -/
def updateSplitNodeRatios (node : LayoutNode) (splitId : String) (rawRatios : List JsNumber) :
    Option LayoutNode :=
  rewriteRatios (fun i children ratios =>
    if i = splitId then some (normalizedRatios rawRatios children.length ratios) else none) node

/-- `child.type === "leaf" && child.id === leafId`. -/
def isLeafWithId (leafId : String) : LayoutNode → Bool
  | .leaf node => node.id = leafId
  | .split .. => false

/-- `walk` of `equalizeLeafParentSplit`. -/
def equalizeRec (leafId : String) : LayoutNode → Option LayoutNode
  | .leaf _ => none
  | .split i o children ratios =>
      let children? := equalizeList children
      let ratiosChanged := children.any (isLeafWithId leafId)
        && !ratios.isPrefixOf (equalRatios children.length)
      if children?.isNone && !ratiosChanged then none
      else some (.split i o (children?.getD children)
        (if ratiosChanged then equalRatios children.length else ratios))
where
  equalizeList : List LayoutNode → Option (List LayoutNode)
    | [] => none
    | child :: rest =>
        match equalizeRec leafId child, equalizeList rest with
        | none, none => none
        | some child, rest? => some (child :: rest?.getD rest)
        | none, some rest => some (child :: rest)

/-- Equalize the ratios of the split directly containing `leafId`. -/
def equalizeLeafParentSplit (root : LayoutNode) (leafId : String) : Option LayoutNode :=
  equalizeRec leafId root

structure StretchOptions where
  step : Option JsNumber
  max : Option JsNumber

/-- `Number.isFinite(raw) ? Math.min(Math.max(raw, low), high) : fallback`, with the default used
for an absent option. -/
def clampOption (raw : Option JsNumber) (default low high fallback : ℚ) : ℚ :=
  match (raw.getD (.finite default)).finite? with
  | some q => min (max q low) high
  | none => fallback

/-- The ratios `stretchLeafInTree` gives the split whose child `directIndex` is the leaf. -/
def stretchedRatios (step maxShare : ℚ) (directIndex : ℕ) (ratios : List ℚ) : Option (List ℚ) :=
  let current := ratios.getD directIndex 0
  let target := min maxShare (current + step)
  let grow := target - current
  let otherTotal := (ratios.eraseIdx directIndex).sum
  if grow ≤ 1 / 10 ^ 9 ∨ otherTotal ≤ grow + 1 / 10 ^ 9 then none
  else
    let shrinkFactor := (otherTotal - grow) / otherTotal
    let stretched := (ratios.map (· * shrinkFactor)).set directIndex target
    if stretched.isPrefixOf ratios then none else some stretched

/-- Grow one leaf's share inside its parent split, shrinking siblings proportionally. -/
def stretchLeafInTree (root : LayoutNode) (leafId : String) (options : StretchOptions) :
    Option LayoutNode :=
  let step := clampOption options.step (1 / 10) (1 / 100) (1 / 2) (1 / 10)
  let maxShare := clampOption options.max (4 / 5) (1 / 20) (99 / 100) (4 / 5)
  rewriteRatios (fun _ children ratios =>
    (children.findIdx? (isLeafWithId leafId)).map fun directIndex =>
      stretchedRatios step maxShare directIndex ratios) root

/-- Collapse the tree into its first preorder leaf, with the merged keys; `none` for a tree with
one leaf. -/
def unsplitAllLeaves (root : LayoutNode) (activeLeafId : Option String) :
    Option (LeafGroupNode × List String) :=
  match getAllLeafNodes root with
  | [] => none
  | [_] => none
  | survivor :: others =>
      let leaves := survivor :: others
      let keys := appendMissing [] (leaves.flatMap LeafGroupNode.openFileKeys)
      let activeLeaf := activeLeafId.bind fun id => leaves.find? (·.id = id)
      let activeKey := (activeLeaf.bind LeafGroupNode.activeKey).or survivor.activeKey
      let activeKey := activeKey.filter (· ∈ keys)
      some ({ id := survivor.id, openFileKeys := keys, activeKey }, keys)

end Taomni.Layout
