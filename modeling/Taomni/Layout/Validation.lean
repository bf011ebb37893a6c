import Mathlib.Algebra.BigOperators.Group.List.Basic
import Mathlib.Algebra.Order.Field.Rat
import Taomni.Layout.Tree

/-!
# Layout validation

Reference: `components/editor/workspace/layoutTree/validation.ts`.

`validateLayoutTree` reads a value of unknown type. `validateNode` pushes at most one diagnostic and
unwinds at once, so its result is either that diagnostic or the ids seen so far.
`validateNode_toJson_iff` says what acceptance means for a typed tree.
-/

namespace Taomni.Layout

open List

/-! ## The typed tree as a value -/

def LayoutNode.toJson : LayoutNode → Json
  | .leaf node => .obj
      [("type", .str "leaf"), ("id", .str node.id),
        ("openFileKeys", .arr (node.openFileKeys.map .str)),
        ("activeKey", node.activeKey.elim .null .str)]
  | .split i o children ratios => .obj
      [("type", .str "split"), ("id", .str i), ("orientation", .str o.name),
        ("children", .arr (toJsonList children)),
        ("ratios", .arr (ratios.map fun r => .num (.finite r)))]
where
  toJsonList : List LayoutNode → List Json
    | [] => []
    | child :: rest => toJson child :: toJsonList rest

theorem LayoutNode.toJsonList_eq (children : List LayoutNode) :
    LayoutNode.toJson.toJsonList children = children.map LayoutNode.toJson := by
  induction children with
  | nil => rfl
  | cons child rest ih => rw [LayoutNode.toJson.toJsonList, ih, map_cons]

/-! ## `validateLayoutTree` -/

/-- The leaf branch of `validateNode`. -/
def validateLeaf (node : Json) (path : String) : Except TreeError Unit :=
  match (node.get? "openFileKeys").bind Json.array? with
  | none => .error (.openFileKeysNotArray path)
  | some elems =>
      if elems.any (fun k => k.string?.isNone) then .error (.nonStringKey path)
      else
        let keys := Json.strings elems
        match node.get? "activeKey" with
        | some .null => .ok ()
        | some (.str activeKey) =>
            if keys ≠ [] ∧ activeKey ∉ keys then .error (.activeKeyNotFound path activeKey keys)
            else .ok ()
        | _ => .error (.activeKeyNotStringOrNull path)

/-- The ratio loop of `validateNode`: every ratio is a positive finite number. -/
def validateRatios (path : String) : ℕ → List Json → Except TreeError (List ℚ)
  | _, [] => .ok []
  | index, ratio :: rest =>
      match ratio with
      | .num (.finite r) =>
          if r ≤ 0 then .error (.badRatio path index ratio)
          else (validateRatios path (index + 1) rest).map (r :: ·)
      | _ => .error (.badRatio path index ratio)

/-- The split branch of `validateNode` up to its children. -/
def validateSplit (node : Json) (path : String) : Except TreeError Unit :=
  match ((node.get? "orientation").bind Json.string?).bind Orientation.ofName? with
  | none => .error (.badOrientation path)
  | some _ =>
      match (node.get? "children").bind Json.array? with
      | none => .error (.tooFewChildren path)
      | some children =>
          if children.length < 2 then .error (.tooFewChildren path)
          else
            match (node.get? "ratios").bind Json.array? with
            | none => .error (.ratiosLength path)
            | some ratios =>
                if ratios.length ≠ children.length then .error (.ratiosLength path)
                else
                  match validateRatios path 0 ratios with
                  | .error e => .error e
                  | .ok values =>
                      if 1 / 20 < |values.sum - 1| then .error (.badRatioSum path values.sum)
                      else .ok ()

/-- The path of the `i`-th child. -/
def childPath (path : String) (i : ℕ) : String := s!"{path}.children[{i}]"

/-- Validate one node and everything below it, extending the set of seen ids. -/
def validateNode : Json → String → List String → Except TreeError (List String)
  | .obj fields, path, seenIds =>
      match ((Json.obj fields).get? "id").bind Json.string? with
      | none => .error (.invalidId path)
      | some id =>
          if isBlank id then .error (.invalidId path)
          else if id ∈ seenIds then .error (.duplicateId path id)
          else
            match (Json.obj fields).get? "type" with
            | some (.str "leaf") =>
                (validateLeaf (.obj fields) path).map fun _ => seenIds ++ [id]
            | some (.str "split") =>
                match validateSplit (.obj fields) path with
                | .error e => .error e
                | .ok _ => validateChildrenOf fields path (seenIds ++ [id])
            | type => .error (.unknownType path type)
  | .arr _, path, _ => .error (.invalidId path)
  | _, path, _ => .error (.notAnObject path)
where
  /-- The elements of the `children` property. -/
  validateChildrenOf : List (String × Json) → String → List String → Except TreeError (List String)
    | [], _, seenIds => .ok seenIds
    | (name, value) :: rest, path, seenIds =>
        if name = "children" then validateElements value path seenIds
        else validateChildrenOf rest path seenIds
  validateElements : Json → String → List String → Except TreeError (List String)
    | .arr elems, path, seenIds => validateChildren elems path 0 seenIds
    | _, _, seenIds => .ok seenIds
  validateChildren : List Json → String → ℕ → List String → Except TreeError (List String)
    | [], _, _, seenIds => .ok seenIds
    | child :: rest, path, i, seenIds =>
        match validateNode child (childPath path i) seenIds with
        | .error e => .error e
        | .ok seenIds => validateChildren rest path (i + 1) seenIds

/-- Validate a layout tree; the errors are those pushed to `errors`. -/
def validateLayoutTree (root : Json) : Bool × List TreeError :=
  match validateNode root "root" [] with
  | .ok _ => (true, [])
  | .error e => (false, [e])

/-! ## What acceptance means -/

/-- Local condition on a leaf. -/
def LeafGroupNode.WellFormed (node : LeafGroupNode) : Prop :=
  isBlank node.id = false ∧
    ∀ key ∈ node.activeKey, node.openFileKeys = [] ∨ key ∈ node.openFileKeys

/-- Ratios of a split with `n` children. -/
structure RatiosOk (n : ℕ) (ratios : List ℚ) : Prop where
  length : ratios.length = n
  pos : ∀ r ∈ ratios, 0 < r
  sum : |ratios.sum - 1| ≤ 1 / 20

/-- Every node satisfies its local conditions. -/
inductive WellShaped : LayoutNode → Prop
  | leaf {node : LeafGroupNode} (h : node.WellFormed) : WellShaped (.leaf node)
  | split {i : String} {o : Orientation} {children : List LayoutNode} {ratios : List ℚ}
      (hid : isBlank i = false) (htwo : 2 ≤ children.length)
      (hratios : RatiosOk children.length ratios) (h : ∀ child ∈ children, WellShaped child) :
      WellShaped (.split i o children ratios)

theorem wellShaped_leaf_iff {node : LeafGroupNode} : WellShaped (.leaf node) ↔ node.WellFormed :=
  ⟨fun h => by cases h; assumption, .leaf⟩

theorem wellShaped_split_iff {i : String} {o : Orientation} {children : List LayoutNode}
    {ratios : List ℚ} : WellShaped (.split i o children ratios) ↔
      isBlank i = false ∧ 2 ≤ children.length ∧ RatiosOk children.length ratios ∧
        ∀ child ∈ children, WellShaped child :=
  ⟨fun h => by cases h; exact ⟨‹_›, ‹_›, ‹_›, ‹_›⟩, fun ⟨hid, htwo, hr, h⟩ => .split hid htwo hr h⟩

private theorem validateRatios_map (path : String) (index : ℕ) (ratios : List ℚ) :
    (∀ r ∈ ratios, 0 < r) →
      validateRatios path index (ratios.map fun r => .num (.finite r)) = .ok ratios := by
  induction ratios generalizing index with
  | nil => intro _; rfl
  | cons r rest ih =>
    intro h
    have hr : ¬ r ≤ 0 := not_le.mpr (h r (by simp))
    rw [map_cons, validateRatios, if_neg hr, ih _ fun q hq => h q (by simp [hq])]
    rfl

private theorem validateRatios_map_error (path : String) (index : ℕ) (ratios : List ℚ) :
    ¬ (∀ r ∈ ratios, 0 < r) →
      ∃ e, validateRatios path index (ratios.map fun r => .num (.finite r)) = .error e := by
  induction ratios generalizing index with
  | nil => intro h; exact absurd (by simp) h
  | cons r rest ih =>
    intro h
    rw [map_cons, validateRatios]
    by_cases hr : r ≤ 0
    · exact ⟨_, if_pos hr⟩
    · rw [if_neg hr]
      have hrest : ¬ ∀ q ∈ rest, 0 < q := fun hq => h fun q hmem => by
        rcases mem_cons.mp hmem with rfl | hmem
        · exact not_le.mp hr
        · exact hq q hmem
      obtain ⟨e, he⟩ := ih (index + 1) hrest
      exact ⟨e, by rw [he]; rfl⟩

private theorem strings_any (keys : List String) :
    ((keys.map Json.str).any fun k => k.string?.isNone) = false := by
  simp [any_map, Json.string?]

/-- On a typed leaf the leaf branch accepts exactly a legal active key. -/
private theorem validateLeaf_toJson (node : LeafGroupNode) (path : String) :
    validateLeaf (LayoutNode.leaf node).toJson path = .ok () ↔
      ∀ key ∈ node.activeKey, node.openFileKeys = [] ∨ key ∈ node.openFileKeys := by
  have hkeys : ((LayoutNode.leaf node).toJson.get? "openFileKeys").bind Json.array? =
      some (node.openFileKeys.map .str) := by
    simp [LayoutNode.toJson, Json.get?, lookup_cons, Json.array?]
  have hactive : (LayoutNode.leaf node).toJson.get? "activeKey" =
      some (node.activeKey.elim .null .str) := by
    simp [LayoutNode.toJson, Json.get?, lookup_cons]
  rw [validateLeaf, hkeys]
  simp only [strings_any, Bool.false_eq_true, if_false, Json.strings_map_str, hactive]
  cases node.activeKey with
  | none => simp
  | some key =>
    simp only [Option.elim_some, Option.mem_some, forall_eq']
    by_cases h : node.openFileKeys = [] <;> by_cases hk : key ∈ node.openFileKeys <;> simp_all

/-- On a typed split the split branch accepts exactly two or more children with legal ratios. -/
private theorem validateSplit_toJson (i : String) (o : Orientation) (children : List LayoutNode)
    (ratios : List ℚ) (path : String) :
    validateSplit (LayoutNode.split i o children ratios).toJson path = .ok () ↔
      2 ≤ children.length ∧ RatiosOk children.length ratios := by
  have horient : (((LayoutNode.split i o children ratios).toJson.get? "orientation").bind
      Json.string?).bind Orientation.ofName? = some o := by
    simp [LayoutNode.toJson, Json.get?, lookup_cons, Json.string?]
  have hchildren : ((LayoutNode.split i o children ratios).toJson.get? "children").bind
      Json.array? = some (children.map LayoutNode.toJson) := by
    simp [LayoutNode.toJson, Json.get?, lookup_cons, Json.array?, LayoutNode.toJsonList_eq]
  have hratios : ((LayoutNode.split i o children ratios).toJson.get? "ratios").bind
      Json.array? = some (ratios.map fun r => .num (.finite r)) := by
    simp [LayoutNode.toJson, Json.get?, lookup_cons, Json.array?]
  rw [validateSplit, horient]
  simp only [hchildren, hratios, length_map]
  by_cases htwo : children.length < 2
  · simp only [if_pos htwo, reduceCtorEq, false_iff]
    exact fun h => absurd h.1 (by omega)
  rw [if_neg htwo]
  by_cases hlen : ratios.length = children.length
  · rw [if_neg (not_not.mpr hlen)]
    by_cases hpos : ∀ r ∈ ratios, 0 < r
    · simp only [validateRatios_map path 0 ratios hpos]
      by_cases hsum : 1 / 20 < |ratios.sum - 1|
      · simp only [if_pos hsum, reduceCtorEq, false_iff]
        exact fun h => absurd h.2.sum (not_le.mpr hsum)
      · simp only [if_neg hsum, true_iff]
        exact ⟨by omega, hlen, hpos, not_lt.mp hsum⟩
    · obtain ⟨e, he⟩ := validateRatios_map_error path 0 ratios hpos
      simp only [he, reduceCtorEq, false_iff]
      exact fun h => hpos h.2.pos
  · simp only [if_pos hlen, reduceCtorEq, false_iff]
    exact fun h => hlen h.2.length

private theorem validateChildrenOf_split (i : String) (o : Orientation)
    (children : List LayoutNode) (ratios : List ℚ) (path : String) (seenIds : List String) :
    validateNode.validateChildrenOf
        [("type", .str "split"), ("id", .str i), ("orientation", .str o.name),
          ("children", .arr (children.map LayoutNode.toJson)),
          ("ratios", .arr (ratios.map fun r => .num (.finite r)))] path seenIds
      = validateNode.validateChildren (children.map LayoutNode.toJson) path 0 seenIds := by
  simp [validateNode.validateChildrenOf, validateNode.validateElements]

/-- The children are accepted exactly when each is and no id repeats across them. -/
private theorem validateChildren_iff (children : List LayoutNode)
    (ih : ∀ child ∈ children, ∀ (path : String) (seenIds seenIds' : List String),
      validateNode child.toJson path seenIds = .ok seenIds' ↔
        WellShaped child ∧ child.ids.Nodup ∧ (∀ x ∈ child.ids, x ∉ seenIds) ∧
          seenIds' = seenIds ++ child.ids) (path : String) : ∀ (k : ℕ) (seenIds seenIds' : List String),
      validateNode.validateChildren (children.map LayoutNode.toJson) path k seenIds = .ok seenIds' ↔
        (∀ child ∈ children, WellShaped child) ∧ (children.flatMap LayoutNode.ids).Nodup ∧
          (∀ x ∈ children.flatMap LayoutNode.ids, x ∉ seenIds) ∧
          seenIds' = seenIds ++ children.flatMap LayoutNode.ids := by
  induction children with
  | nil => simp [validateNode.validateChildren, eq_comm]
  | cons child rest ihRest =>
    intro k seenIds seenIds'
    have hrest := ihRest fun c hc => ih c (by simp [hc])
    have hchild := ih child (by simp)
    rw [map_cons, validateNode.validateChildren, flatMap_cons]
    constructor
    · intro h
      cases hv : validateNode child.toJson (childPath path k) seenIds with
      | error e => simp [hv] at h
      | ok seen₁ =>
        rw [hv] at h
        obtain ⟨hw, hnd, hnew, rfl⟩ := (hchild _ _ _).mp hv
        obtain ⟨hws, hnds, hnews, rfl⟩ := (hrest _ _ _).mp h
        refine ⟨forall_mem_cons.mpr ⟨hw, hws⟩, ?_, ?_, by rw [append_assoc]⟩
        · refine nodup_append.mpr ⟨hnd, hnds, ?_⟩
          rintro x hx y hy rfl
          exact hnews x hy (mem_append_right _ hx)
        · intro x hx
          rcases mem_append.mp hx with hx | hx
          · exact hnew x hx
          · exact fun h => hnews x hx (mem_append_left _ h)
    · rintro ⟨hw, hnd, hnew, rfl⟩
      obtain ⟨hndChild, hndRest, hdisj⟩ := nodup_append.mp hnd
      rw [(hchild _ _ _).mpr ⟨hw child (by simp), hndChild,
        fun x hx => hnew x (mem_append_left _ hx), rfl⟩]
      refine (hrest _ _ _).mpr ⟨fun c hc => hw c (by simp [hc]), hndRest, ?_,
        by rw [append_assoc]⟩
      intro x hx hseen
      rcases mem_append.mp hseen with hseen | hseen
      · exact hnew x (mem_append_right _ hx) hseen
      · exact hdisj x hseen x hx rfl

/-- A typed node is accepted exactly when it is well shaped and repeats no id, old or new; the seen
ids then grow by its ids in preorder. -/
theorem validateNode_toJson_iff (node : LayoutNode) : ∀ (path : String) (seenIds seenIds' : List String),
      validateNode node.toJson path seenIds = .ok seenIds' ↔
        WellShaped node ∧ node.ids.Nodup ∧ (∀ x ∈ node.ids, x ∉ seenIds) ∧
          seenIds' = seenIds ++ node.ids := by
  induction node with
  | leaf node =>
    intro path seenIds seenIds'
    have hleaf := validateLeaf_toJson node path
    have hid : ((LayoutNode.leaf node).toJson.get? "id").bind Json.string? = some node.id := by
      simp [LayoutNode.toJson, Json.get?, lookup_cons, Json.string?]
    have htype : (LayoutNode.leaf node).toJson.get? "type" = some (.str "leaf") := by
      simp [LayoutNode.toJson, Json.get?]
    rw [LayoutNode.toJson] at hleaf hid htype ⊢
    rw [validateNode, hid, wellShaped_leaf_iff, LeafGroupNode.WellFormed, ← hleaf]
    simp only [htype, LayoutNode.ids_leaf, nodup_singleton, mem_singleton, forall_eq,
      true_and]
    cases hblank : isBlank node.id with
    | true => simp
    | false =>
      by_cases hseen : node.id ∈ seenIds
      · simp [hseen]
      · simp only [hseen, Bool.false_eq_true, if_false, not_false_eq_true, true_and]
        cases validateLeaf _ path with
        | error e => simp [Except.map]
        | ok u => simp [Except.map, eq_comm]
  | split i o children ratios ih =>
    intro path seenIds seenIds'
    have hsplit := validateSplit_toJson i o children ratios path
    have hchildren := validateChildren_iff children ih path 0 (seenIds ++ [i]) seenIds'
    have hid : ((LayoutNode.split i o children ratios).toJson.get? "id").bind Json.string?
        = some i := by
      simp [LayoutNode.toJson, Json.get?, lookup_cons, Json.string?]
    have htype : (LayoutNode.split i o children ratios).toJson.get? "type"
        = some (.str "split") := by
      simp [LayoutNode.toJson, Json.get?]
    rw [LayoutNode.toJson, LayoutNode.toJsonList_eq] at hsplit hid htype ⊢
    rw [validateNode, hid, wellShaped_split_iff, LayoutNode.ids_split, nodup_cons]
    simp only [htype, validateChildrenOf_split]
    cases hblank : isBlank i with
    | true => simp
    | false =>
      by_cases hseen : i ∈ seenIds
      · simp [hseen]
      · simp only [hseen, Bool.false_eq_true, if_false, true_and]
        cases hv : validateSplit _ path with
        | error e =>
          have hno : ¬ (2 ≤ children.length ∧ RatiosOk children.length ratios) := fun h => by
            rw [hsplit.mpr h] at hv; cases hv
          simp only [reduceCtorEq, false_iff]
          exact fun h => hno ⟨h.1.1, h.1.2.1⟩
        | ok u =>
          obtain ⟨htwo, hratios⟩ := hsplit.mp hv
          simp only [hchildren, htwo, hratios, true_and, forall_mem_cons, hseen,
            not_false_eq_true, append_assoc, singleton_append, mem_append,
            mem_singleton, not_or]
          constructor
          · rintro ⟨hw, hnd, hnew, rfl⟩
            exact ⟨hw, ⟨fun h => (hnew i h).2 rfl, hnd⟩, fun x hx => (hnew x hx).1, rfl⟩
          · rintro ⟨hw, ⟨hi, hnd⟩, hnew, rfl⟩
            exact ⟨hw, hnd, fun x hx => ⟨hnew x hx, fun h => hi (h ▸ hx)⟩, rfl⟩

/-- The validator accepts a typed tree exactly when it is well shaped and its ids are distinct. -/
theorem validateLayoutTree_toJson_iff (tree : LayoutNode) :
    (validateLayoutTree tree.toJson).1 = true ↔ WellShaped tree ∧ tree.ids.Nodup := by
  have hnode := validateNode_toJson_iff tree "root" []
  rw [validateLayoutTree]
  cases hv : validateNode tree.toJson "root" [] with
  | error e =>
    simp only [Bool.false_eq_true, false_iff]
    rintro ⟨hw, hnd⟩
    have := (hnode _).mpr ⟨hw, hnd, by simp, rfl⟩
    rw [hv] at this
    cases this
  | ok seenIds =>
    obtain ⟨hw, hnd, -, -⟩ := (hnode _).mp hv
    simp [hw, hnd]

/-! ## Tree and groups -/

/-- Diagnostics of one leaf against its group. -/
def leafConsistencyErrors (groups : Groups) (leaf : LeafGroupNode) : List ConsistencyError :=
  match groups.get? leaf.id with
  | none => [.noGroup leaf.id]
  | some group =>
      (leaf.openFileKeys.filter (fun k => k ∉ group.openOrder)).map (.keyNotInGroup leaf.id ·)
        ++ (group.openOrder.filter (fun k => k ∉ leaf.openFileKeys)).map (.keyNotInTree leaf.id ·)
        ++ if leaf.activeKey = group.activeKey then []
          else [.activeKeyMismatch leaf.id leaf.activeKey group.activeKey]

/-- Validate bidirectional consistency between layout tree leaves and editor groups: the errors. -/
def validateTreeGroupConsistency (tree : LayoutNode) (groups : Groups) : List ConsistencyError :=
  (getAllLeafNodes tree).flatMap (leafConsistencyErrors groups)
    ++ (groups.entries.filter fun e => e.1 ∉ leafIds tree ∧ e.2.openOrder ≠ []).map
      fun e => .noLeaf e.1

/-! ## What consistency means -/

/-- A leaf and its group agree: the same keys, as sets, and the same active key. -/
structure LeafAgrees (leaf : LeafGroupNode) (group : LayoutEditorGroupState) : Prop where
  keys : ∀ k, k ∈ leaf.openFileKeys ↔ k ∈ group.openOrder
  activeKey : leaf.activeKey = group.activeKey

/-- Every leaf has an agreeing group, and every other group is empty. -/
structure Consistent (tree : LayoutNode) (groups : Groups) : Prop where
  leaf : ∀ leaf ∈ getAllLeafNodes tree, ∃ group, groups.get? leaf.id = some group ∧
    LeafAgrees leaf group
  dormant : ∀ i group, groups.get? i = some group → i ∉ leafIds tree → group.openOrder = []

private theorem leafConsistencyErrors_eq_nil_iff {groups : Groups} {leaf : LeafGroupNode} :
    leafConsistencyErrors groups leaf = [] ↔
      ∃ group, groups.get? leaf.id = some group ∧ LeafAgrees leaf group := by
  rw [leafConsistencyErrors]
  cases groups.get? leaf.id with
  | none => simp
  | some group =>
    simp only [append_eq_nil_iff, map_eq_nil_iff, filter_eq_nil_iff,
      decide_eq_true_eq, not_not, Option.some.injEq, exists_eq_left']
    constructor
    · rintro ⟨⟨h₁, h₂⟩, h₃⟩
      refine ⟨fun k => ⟨h₁ k, h₂ k⟩, ?_⟩
      by_contra hne
      simp [hne] at h₃
    · rintro ⟨hkeys, hactive⟩
      exact ⟨⟨fun k => (hkeys k).mp, fun k => (hkeys k).mpr⟩, by simp [hactive]⟩

/-- The consistency validator reports nothing exactly for consistent states. -/
theorem validateTreeGroupConsistency_eq_nil_iff {tree : LayoutNode} {groups : Groups} :
    validateTreeGroupConsistency tree groups = [] ↔ Consistent tree groups := by
  rw [validateTreeGroupConsistency, append_eq_nil_iff, flatMap_eq_nil_iff,
    map_eq_nil_iff, filter_eq_nil_iff]
  simp only [leafConsistencyErrors_eq_nil_iff, decide_eq_true_eq, not_and, not_not]
  constructor
  · rintro ⟨hleaf, hdormant⟩
    exact ⟨hleaf, fun i group hg hi => hdormant (i, group) (Record.get?_eq_some_iff.mp hg) hi⟩
  · rintro ⟨hleaf, hdormant⟩
    exact ⟨hleaf, fun e he hi => hdormant e.1 e.2 (Record.get?_eq_some_iff.mpr he) hi⟩

end Taomni.Layout
