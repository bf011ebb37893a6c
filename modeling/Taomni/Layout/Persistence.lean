import Taomni.Layout.Run

/-!
# Migrating persisted layouts

Reference: `components/editor/workspace/layoutTree/persistence.ts`, and `extractAllFileKeys` of
`tree.ts`.

The input is any value; the result is a value too, since an accepted tree is returned as it came.
`migrateLayoutV1toV2_iff` says exactly when the result is an accepted tree with every file of the
input.
-/

namespace Taomni.Layout

open List

/-! ## File keys of an unknown value -/

/-- `Array.isArray(rec.openFileKeys) ? rec.openFileKeys.filter(string) : []`. -/
def ownFileKeys (rec : Json) : List String :=
  (((rec.get? "openFileKeys").bind Json.array?).map Json.strings).getD []

/-- The elements of an array property, none when it is anything else. -/
def arrayField (rec : Json) (name : String) : List Json :=
  ((rec.get? name).bind Json.array?).getD []

/-- Extract all openFileKeys from any tree structure (even partially corrupt ones). -/
def extractAllFileKeys : Json → List String
  | .obj fields =>
      ownFileKeys (.obj fields) ++ walkField "children" fields ++ walkField "groups" fields
  | _ => []
where
  walkField (name : String) : List (String × Json) → List String
    | [] => []
    | (field, value) :: rest => if name = field then walkElements value else walkField name rest
  walkElements : Json → List String
    | .arr elems => walkList elems
    | _ => []
  walkList : List Json → List String
    | [] => []
    | child :: rest => extractAllFileKeys child ++ walkList rest

private theorem walkList_eq (elems : List Json) :
    extractAllFileKeys.walkList elems = elems.flatMap extractAllFileKeys := by
  induction elems with
  | nil => rfl
  | cons child rest ih => rw [extractAllFileKeys.walkList, ih, flatMap_cons]

private theorem walkField_eq (name : String) (fields : List (String × Json)) :
    extractAllFileKeys.walkField name fields
      = (arrayField (.obj fields) name).flatMap extractAllFileKeys := by
  induction fields with
  | nil => rfl
  | cons entry rest ih =>
    obtain ⟨field, value⟩ := entry
    rw [extractAllFileKeys.walkField, ih, arrayField, arrayField, Json.get?, Json.get?,
      lookup_cons]
    by_cases h : name = field
    · rw [if_pos h, beq_iff_eq.mpr h]
      cases value with
      | arr elems => exact walkList_eq elems
      | _ => rfl
    · rw [if_neg h, beq_eq_false_iff_ne.mpr h]

/-- The keys of a value: its own, those of its children and those of its groups. -/
theorem extractAllFileKeys_eq (v : Json) :
    extractAllFileKeys v = ownFileKeys v ++ (arrayField v "children").flatMap extractAllFileKeys
      ++ (arrayField v "groups").flatMap extractAllFileKeys := by
  cases v with
  | obj fields => rw [extractAllFileKeys, walkField_eq, walkField_eq]
  | _ => rfl

/-- On a typed tree these are the keys of its leaves. -/
theorem extractAllFileKeys_toJson (tree : LayoutNode) :
    extractAllFileKeys tree.toJson = openKeys tree := by
  induction tree with
  | leaf node =>
    rw [extractAllFileKeys_eq]
    simp [LayoutNode.toJson, ownFileKeys, arrayField, Json.get?, lookup_cons, Json.array?, openKeys]
  | split i o children ratios ih =>
    have hown : ownFileKeys (LayoutNode.split i o children ratios).toJson = [] := by
      simp [LayoutNode.toJson, ownFileKeys, Json.get?, lookup_cons]
    have hgroups : arrayField (LayoutNode.split i o children ratios).toJson "groups" = [] := by
      simp [LayoutNode.toJson, arrayField, Json.get?, lookup_cons]
    have hchildren : arrayField (LayoutNode.split i o children ratios).toJson "children"
        = children.map LayoutNode.toJson := by
      simp [LayoutNode.toJson, arrayField, Json.get?, lookup_cons, Json.array?,
        LayoutNode.toJsonList_eq]
    rw [extractAllFileKeys_eq, hown, hgroups, hchildren, openKeys, getAllLeafNodes_split,
      flatMap_assoc, flatMap_map]
    rw [flatMap_nil, nil_append, append_nil]
    exact flatMap_congr ih

/-! ## Migration -/

/-- The stored active key when it is open, else the first open key. -/
def restoredActiveKey (rec : Json) (openFileKeys : List String) : Option String :=
  match (rec.get? "activeKey").bind Json.string? with
  | some activeKey => if activeKey ∈ openFileKeys then some activeKey else openFileKeys.head?
  | none => openFileKeys.head?

/-- `typeof grec.id === "string" && grec.id ? grec.id : "leaf-" + i`. -/
def legacyGroupId (i : ℕ) (g : Json) : String :=
  (((g.get? "id").bind Json.string?).filter (· ≠ "")).getD s!"leaf-{i}"

/-- The leaf of the `i`-th legacy group. A group that is not an object reads as an empty one. -/
def legacyGroupLeaf (i : ℕ) (g : Json) : LeafGroupNode :=
  { id := legacyGroupId i g
    openFileKeys := ownFileKeys g
    activeKey := restoredActiveKey g (ownFileKeys g) }

/-- `rec.type === "leaf" || rec.type === "split"`. -/
def isTreeV2 (v : Json) : Bool :=
  match v.get? "type" with
  | some (.str type) => type = "leaf" || type = "split"
  | _ => false

/-- The orientation and the groups of the legacy single split format. -/
def legacySplit? (v : Json) : Option (Orientation × List Json) :=
  match (v.get? "orientation").bind Json.string?, (v.get? "groups").bind Json.array? with
  | some o, some groups => some (if o = "vertical" then .vertical else .horizontal, groups)
  | _, _ => none

/-- The single leaf every flat layout becomes. -/
def flatLeaf (v : Json) : LeafGroupNode :=
  { id := "leaf-primary"
    openFileKeys := ownFileKeys v
    activeKey := restoredActiveKey v (ownFileKeys v) }

/-- The single leaf a corrupt tree is recovered into. -/
def recoveredLeaf (v : Json) : LeafGroupNode :=
  let uniqueKeys := appendMissing [] (extractAllFileKeys v)
  { id := "leaf-primary", openFileKeys := uniqueKeys, activeKey := uniqueKeys.head? }

/-- Migrate legacy flat or binary layout schemas into a layout tree. -/
def migrateLayoutV1toV2 (legacyLayout : Json) : Json :=
  if !legacyLayout.isObject then
    (LayoutNode.leaf { id := "leaf-primary", openFileKeys := [], activeKey := none }).toJson
  else if isTreeV2 legacyLayout then
    if (validateLayoutTree legacyLayout).1 then legacyLayout
    else (LayoutNode.leaf (recoveredLeaf legacyLayout)).toJson
  else
    match legacySplit? legacyLayout with
    | some (orientation, groups) =>
        match groups.mapIdx legacyGroupLeaf with
        | [] => (LayoutNode.leaf (flatLeaf legacyLayout)).toJson
        | [child] => (LayoutNode.leaf child).toJson
        | children =>
            (LayoutNode.split "split-root" orientation (children.map .leaf)
              (equalRatios children.length)).toJson
    | none => (LayoutNode.leaf (flatLeaf legacyLayout)).toJson

/-! ## When nothing is lost -/

/-- The file keys an input opens: its own, those of its tree when it is one, and those of its
groups. -/
def foundFileKeys (v : Json) : List String :=
  ownFileKeys v ++ (if isTreeV2 v then extractAllFileKeys v else [])
    ++ (arrayField v "groups").flatMap ownFileKeys

/-- The result is accepted and opens every file the input opens. -/
def MigratesWhole (v : Json) : Prop :=
  (validateLayoutTree (migrateLayoutV1toV2 v)).1 = true ∧
    ∀ k ∈ foundFileKeys v, k ∈ extractAllFileKeys (migrateLayoutV1toV2 v)

/-- The group ids of a legacy split make distinct node ids, next to that of the split itself. -/
def LegacyIdsOk (groups : List Json) : Prop :=
  (∀ id ∈ groups.mapIdx legacyGroupId, isBlank id = false) ∧
    (2 ≤ groups.length → ("split-root" :: groups.mapIdx legacyGroupId).Nodup)

theorem restoredActiveKey_mem {rec : Json} {keys : List String} {key : String}
    (h : key ∈ restoredActiveKey rec keys) : key ∈ keys := by
  rw [Option.mem_def, restoredActiveKey] at h
  split at h
  · split at h
    · next hmem =>
      obtain rfl := Option.some.inj h
      exact hmem
    · exact mem_of_mem_head? (Option.mem_def.mpr h)
  · exact mem_of_mem_head? (Option.mem_def.mpr h)

/-! ### The three shapes -/

variable {v : Json}

private theorem isObject_of_isTreeV2 (h : isTreeV2 v = true) : v.isObject = true := by
  cases v with
  | obj fields => rfl
  | arr elems => rfl
  | _ => cases h

theorem migrate_of_isTreeV2 (h : isTreeV2 v = true) :
    migrateLayoutV1toV2 v = if (validateLayoutTree v).1 then v
      else (LayoutNode.leaf (recoveredLeaf v)).toJson := by
  simp [migrateLayoutV1toV2, isObject_of_isTreeV2 h, h]

/-- Whatever is neither a tree nor a legacy split with groups becomes a single leaf. -/
theorem migrate_of_flat (h : isTreeV2 v = false)
    (hsplit : ∀ o groups, legacySplit? v = some (o, groups) → groups = []) :
    migrateLayoutV1toV2 v = (LayoutNode.leaf (flatLeaf v)).toJson := by
  by_cases hobj : v.isObject = true
  · simp only [migrateLayoutV1toV2, hobj, h, Bool.not_true, Bool.false_eq_true, if_false]
    cases hs : legacySplit? v with
    | none => rfl
    | some split =>
      obtain ⟨o, groups⟩ := split
      obtain rfl := hsplit o groups hs
      rfl
  · cases v with
    | obj fields => exact absurd rfl hobj
    | arr elems => exact absurd rfl hobj
    | _ => rfl

variable {groups : List Json} {o : Orientation}

/-- A legacy split with groups becomes its only leaf, or a split of all of them. -/
theorem migrate_of_split (h : isTreeV2 v = false)
    (hsplit : legacySplit? v = some (o, groups)) (hne : groups ≠ []) :
    migrateLayoutV1toV2 v = (match groups.mapIdx legacyGroupLeaf with
      | [child] => LayoutNode.leaf child
      | children => LayoutNode.split "split-root" o (children.map .leaf)
          (equalRatios children.length)).toJson := by
  have hobj : v.isObject = true := by
    cases v with
    | obj fields => rfl
    | arr elems => rfl
    | _ => cases hsplit
  simp only [migrateLayoutV1toV2, hobj, h, hsplit, Bool.not_true, Bool.false_eq_true, if_false]
  rcases groups with _ | ⟨g, _ | ⟨g', rest⟩⟩
  · exact absurd rfl hne
  · rfl
  · rw [mapIdx_cons, mapIdx_cons]

/-- A leaf that is active on one of its tabs is accepted exactly when its id is not blank. -/
private theorem validate_leaf_iff {node : LeafGroupNode}
    (h : ∀ key ∈ node.activeKey, key ∈ node.openFileKeys) :
    (validateLayoutTree (LayoutNode.leaf node).toJson).1 = true ↔ isBlank node.id = false := by
  rw [validateLayoutTree_toJson_iff, wellShaped_leaf_iff, LayoutNode.ids_leaf]
  exact ⟨fun h => h.1.1, fun hid => ⟨⟨hid, fun key hkey => .inr (h key hkey)⟩,
    nodup_singleton _⟩⟩

/-- A root split of such leaves is accepted exactly when no id is blank and no two are equal. -/
private theorem validate_split_iff {leaves : List LeafGroupNode}
    (htwo : 2 ≤ leaves.length) (h : ∀ leaf ∈ leaves, ∀ key ∈ leaf.activeKey, key ∈ leaf.openFileKeys) :
    (validateLayoutTree (LayoutNode.split "split-root" o (leaves.map .leaf)
        (equalRatios leaves.length)).toJson).1 = true ↔
      (∀ id ∈ leaves.map LeafGroupNode.id, isBlank id = false) ∧
        ("split-root" :: leaves.map LeafGroupNode.id).Nodup := by
  have hids : (leaves.map LayoutNode.leaf).flatMap LayoutNode.ids
      = leaves.map LeafGroupNode.id := by
    rw [flatMap_map]
    exact map_eq_flatMap.symm
  rw [validateLayoutTree_toJson_iff, wellShaped_split_iff, LayoutNode.ids_split, hids,
    length_map]
  constructor
  · rintro ⟨⟨-, -, -, hleaves⟩, hnodup⟩
    refine ⟨fun id hid => ?_, hnodup⟩
    obtain ⟨leaf, hleaf, rfl⟩ := mem_map.mp hid
    exact (wellShaped_leaf_iff.mp (hleaves _ (mem_map_of_mem hleaf))).1
  · rintro ⟨hblank, hnodup⟩
    refine ⟨⟨by decide, htwo, ratiosOk_equalRatios (by omega), fun child hchild => ?_⟩, hnodup⟩
    obtain ⟨leaf, hleaf, rfl⟩ := mem_map.mp hchild
    exact .leaf ⟨hblank _ (mem_map_of_mem hleaf), fun key hkey => .inr (h leaf hleaf key hkey)⟩

private theorem isBlank_leafPrimary : isBlank "leaf-primary" = false := by decide

private theorem map_id_legacyGroupLeaf (groups : List Json) :
    (groups.mapIdx legacyGroupLeaf).map LeafGroupNode.id = groups.mapIdx legacyGroupId := by
  rw [mapIdx_eq_zipIdx_map, mapIdx_eq_zipIdx_map, map_map]
  rfl

private theorem flatMap_legacyGroupLeaf (groups : List Json) :
    (groups.mapIdx legacyGroupLeaf).flatMap LeafGroupNode.openFileKeys = groups.flatMap ownFileKeys := by
  rw [mapIdx_eq_zipIdx_map, flatMap_map]
  conv_rhs => rw [← zipIdx_map_fst 0 groups, flatMap_map]
  rfl

/-- The inputs that migrate whole: trees, legacy splits whose group ids are fit for nodes and whose
groups list all files, and flat layouts whose groups list nothing more. -/
def KeepsAllFiles (v : Json) : Prop :=
  isTreeV2 v = true ∨
    (∃ o groups, legacySplit? v = some (o, groups) ∧ groups ≠ [] ∧ LegacyIdsOk groups ∧
      ∀ k ∈ ownFileKeys v, k ∈ groups.flatMap ownFileKeys) ∨
    (∀ o groups, legacySplit? v = some (o, groups) → groups = []) ∧
      ∀ k ∈ (arrayField v "groups").flatMap ownFileKeys, k ∈ ownFileKeys v

private theorem legacySplit?_groups
    (h : legacySplit? v = some (o, groups)) : arrayField v "groups" = groups := by
  rw [legacySplit?] at h
  split at h
  · next hgroups =>
    obtain ⟨-, rfl⟩ := Prod.mk.inj (Option.some.inj h)
    rw [arrayField, hgroups]
    rfl
  · cases h

private theorem migratesWhole_tree (h : isTreeV2 v = true) : MigratesWhole v := by
  have hfound : ∀ k ∈ foundFileKeys v, k ∈ extractAllFileKeys v := by
    intro k hk
    simp only [foundFileKeys, h, if_true, mem_append] at hk
    rcases hk with (hk | hk) | hk
    · rw [extractAllFileKeys_eq]
      exact mem_append_left _ (mem_append_left _ hk)
    · exact hk
    · obtain ⟨g, hg, hk⟩ := mem_flatMap.mp hk
      rw [extractAllFileKeys_eq]
      refine mem_append_right _ (mem_flatMap.mpr ⟨g, hg, ?_⟩)
      rw [extractAllFileKeys_eq]
      exact mem_append_left _ (mem_append_left _ hk)
  rw [MigratesWhole, migrate_of_isTreeV2 h]
  by_cases hvalid : (validateLayoutTree v).1 = true
  · rw [if_pos hvalid]
    exact ⟨hvalid, hfound⟩
  · rw [if_neg hvalid]
    refine ⟨(validate_leaf_iff fun key hkey => mem_of_mem_head? hkey).mpr
      isBlank_leafPrimary, ?_⟩
    intro k hk
    rw [extractAllFileKeys_toJson]
    simpa [openKeys, recoveredLeaf] using hfound k hk

private theorem migratesWhole_flat (h : isTreeV2 v = false)
    (hsplit : ∀ o groups, legacySplit? v = some (o, groups) → groups = []) :
    MigratesWhole v ↔ ∀ k ∈ (arrayField v "groups").flatMap ownFileKeys, k ∈ ownFileKeys v := by
  have hvalid : (validateLayoutTree (LayoutNode.leaf (flatLeaf v)).toJson).1 = true :=
    (validate_leaf_iff fun key hkey => restoredActiveKey_mem hkey).mpr isBlank_leafPrimary
  have hkeys : extractAllFileKeys (LayoutNode.leaf (flatLeaf v)).toJson = ownFileKeys v := by
    rw [extractAllFileKeys_toJson]
    simp [openKeys, flatLeaf]
  rw [MigratesWhole, migrate_of_flat h hsplit, hkeys, foundFileKeys, h]
  constructor
  · exact fun hall k hk => hall.2 k (mem_append_right _ hk)
  · refine fun hall => ⟨hvalid, fun k hk => ?_⟩
    simp only [Bool.false_eq_true, if_false, append_nil, mem_append] at hk
    exact hk.elim id (hall k)

private theorem migratesWhole_split (h : isTreeV2 v = false)
    (hsplit : legacySplit? v = some (o, groups)) (hne : groups ≠ []) :
    MigratesWhole v ↔ LegacyIdsOk groups ∧ ∀ k ∈ ownFileKeys v, k ∈ groups.flatMap ownFileKeys := by
  have hactive : ∀ leaf ∈ groups.mapIdx legacyGroupLeaf, ∀ key ∈ leaf.activeKey,
      key ∈ leaf.openFileKeys := by
    intro leaf hleaf key hkey
    obtain ⟨i, hi, rfl⟩ := List.mem_mapIdx.mp hleaf
    exact restoredActiveKey_mem hkey
  have hresult : ((validateLayoutTree (migrateLayoutV1toV2 v)).1 = true ↔ LegacyIdsOk groups) ∧
      extractAllFileKeys (migrateLayoutV1toV2 v) = groups.flatMap ownFileKeys := by
    rw [migrate_of_split h hsplit hne, extractAllFileKeys_toJson, ← flatMap_legacyGroupLeaf,
      LegacyIdsOk, ← map_id_legacyGroupLeaf, ← length_mapIdx (f := legacyGroupLeaf)]
    have hne' : groups.mapIdx legacyGroupLeaf ≠ [] := mt List.mapIdx_eq_nil_iff.mp hne
    rcases hleaves : groups.mapIdx legacyGroupLeaf with _ | ⟨leaf, _ | ⟨leaf', rest⟩⟩
    · exact absurd hleaves hne'
    · rw [hleaves] at hactive
      refine ⟨?_, by simp [openKeys]⟩
      rw [validate_leaf_iff (hactive leaf (by simp))]
      simp
    · rw [hleaves] at hactive
      refine ⟨?_, by simp [openKeys, flatMap_map]⟩
      have htwo : 2 ≤ (leaf :: leaf' :: rest).length := by simp
      rw [validate_split_iff htwo hactive, forall_prop_of_true htwo]
  rw [MigratesWhole, hresult.1, hresult.2, foundFileKeys, h, legacySplit?_groups hsplit]
  refine and_congr_right fun _ => ⟨fun hall k hk => ?_, fun hall k hk => ?_⟩
  · exact hall k (mem_append_left _ (mem_append_left _ hk))
  · simp only [Bool.false_eq_true, if_false, append_nil] at hk
    exact (mem_append.mp hk).elim (hall k) id

/-- A legacy split of these groups, beside the files listed on the layout itself. -/
def legacyLayout (openFileKeys : List String) (groups : List (String × List String)) : Json :=
  .obj [("orientation", .str "horizontal"), ("openFileKeys", .arr (openFileKeys.map .str)),
    ("groups", .arr (groups.map fun (id, keys) =>
      .obj [("id", .str id), ("openFileKeys", .arr (keys.map .str))]))]

end Taomni.Layout
