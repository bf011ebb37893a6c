import Mathlib.Algebra.BigOperators.Ring.List
import Mathlib.Data.List.GetD
import Mathlib.Data.List.InsertIdx
import Taomni.Layout.Mutations

/-!
# What the mutations do to leaves, ids and shape

For each mutation of `Taomni.Layout.Mutations`: the leaves of the result in preorder, its node ids,
and that it is well shaped when the input is. Later results use these and never unfold a mutation.
-/

namespace Taomni.Layout

open List

variable {tree : LayoutNode}

theorem WellShaped.mapLeaves {f : LeafGroupNode → LeafGroupNode}
    (h : WellShaped tree) (hf : ∀ leaf ∈ getAllLeafNodes tree, (f leaf).WellFormed) :
    WellShaped (tree.mapLeaves f) := by
  induction tree with
  | leaf node => exact .leaf (hf node (by simp))
  | split i o children ratios ih =>
    obtain ⟨hid, htwo, hratios, hchildren⟩ := wellShaped_split_iff.mp h
    rw [LayoutNode.mapLeaves_split]
    refine .split hid (by simpa using htwo) (by simpa using hratios) ?_
    intro child hchild
    obtain ⟨c, hc, rfl⟩ := mem_map.mp hchild
    refine ih c hc (hchildren c hc) fun leaf hleaf => hf leaf ?_
    rw [getAllLeafNodes_split]
    exact mem_flatMap.mpr ⟨c, hc, hleaf⟩

/-- Every leaf of a well-shaped tree is well formed. -/
theorem WellShaped.leafWellFormed (h : WellShaped tree) :
    ∀ leaf ∈ getAllLeafNodes tree, leaf.WellFormed := by
  induction tree with
  | leaf node => simpa using wellShaped_leaf_iff.mp h
  | split i o children ratios ih =>
    intro leaf hleaf
    rw [getAllLeafNodes_split] at hleaf
    obtain ⟨child, hchild, hleaf⟩ := mem_flatMap.mp hleaf
    exact ih child hchild ((wellShaped_split_iff.mp h).2.2.2 child hchild) leaf hleaf

/-! ## Ratios -/

theorem ratiosOk_equalRatios {n : ℕ} (hn : 0 < n) : RatiosOk n (equalRatios n) where
  length := by simp [equalRatios]
  pos := by
    intro r hr
    obtain ⟨-, rfl⟩ := List.mem_replicate.mp hr
    exact one_div_pos.mpr (by exact_mod_cast hn)
  sum := by
    have hn' : (n : ℚ) ≠ 0 := by exact_mod_cast hn.ne'
    rw [equalRatios, sum_replicate, nsmul_eq_mul, mul_one_div_cancel hn']
    norm_num

private theorem length_of_mapM {α β : Type*} {f : α → Option β} {l : List α} {l' : List β}
    (h : l.mapM f = some l') : l'.length = l.length := by
  induction l generalizing l' with
  | nil => simp_all
  | cons x rest ih =>
    simp only [mapM_cons, Option.bind_eq_bind, Option.pure_def, Option.bind_eq_some_iff,
      Option.some.injEq] at h
    obtain ⟨y, -, ys, hys, rfl⟩ := h
    simp [ih hys]

/-- Normalized ratios are legal. -/
theorem ratiosOk_normalizedRatios {rawRatios : List JsNumber} {n : ℕ} {ratios new : List ℚ}
    (h : normalizedRatios rawRatios n ratios = some new) : RatiosOk n new := by
  rw [normalizedRatios] at h
  split at h
  · cases h
  next hlen =>
  cases hraw : rawRatios.mapM JsNumber.finite? with
  | none => simp [hraw] at h
  | some raw =>
    simp only [hraw] at h
    split at h
    · cases h
    next hpos =>
    split at h
    · cases h
    next hsum =>
    split at h
    · cases h
    obtain rfl := Option.some.inj h
    have hsum' : 0 < raw.sum := not_le.mp hsum
    have hlength := length_of_mapM hraw
    refine ⟨by rw [length_map]; omega, ?_, ?_⟩
    · intro r hr
      obtain ⟨q, hq, rfl⟩ := mem_map.mp hr
      refine div_pos (not_le.mp fun hle => hpos ?_) hsum'
      exact any_eq_true.mpr ⟨q, hq, by simpa using hle⟩
    · have hone : (raw.map (· / raw.sum)).sum = 1 := by
        simp only [div_eq_mul_inv]
        rw [sum_map_mul_right, map_id', mul_inv_cancel₀ hsum'.ne']
      rw [hone]
      norm_num

private theorem eraseIdx_split {ratios : List ℚ} {k : ℕ} (hk : k < ratios.length) :
    ratios.sum = ratios.getD k 0 + (ratios.eraseIdx k).sum := by
  rw [eraseIdx_eq_take_drop_succ, sum_append, getD_eq_getElem _ _ hk]
  conv_lhs => rw [← take_append_drop k ratios, sum_append,
    drop_eq_getElem_cons hk, sum_cons]
  ring

/-- Stretching keeps the total: what the leaf gains its siblings lose. -/
theorem ratiosOk_stretchedRatios {step maxShare : ℚ} {k n : ℕ} {ratios new : List ℚ}
    (hk : k < n) (hratios : RatiosOk n ratios)
    (h : stretchedRatios step maxShare k ratios = some new) : RatiosOk n new := by
  obtain ⟨hlen, hpos, hsum⟩ := hratios
  have hk' : k < ratios.length := by omega
  rw [stretchedRatios] at h
  set current := ratios.getD k 0 with hcurrent
  set otherTotal := (ratios.eraseIdx k).sum with hother
  set target := min maxShare (current + step) with htarget
  simp only at h
  split at h
  · cases h
  next hroom =>
  split at h
  · cases h
  obtain rfl := Option.some.inj h
  rw [not_or, not_le, not_le] at hroom
  obtain ⟨hgrow, hspace⟩ := hroom
  have hotherPos : 0 < otherTotal := by linarith
  have hcur : 0 < current := by
    rw [hcurrent, getD_eq_getElem _ _ hk']
    exact hpos _ (getElem_mem hk')
  have hfactor : 0 < (otherTotal - (target - current)) / otherTotal :=
    div_pos (by linarith) hotherPos
  refine ⟨by simpa using hlen, ?_, ?_⟩
  · intro r hr
    rcases mem_or_eq_of_mem_set hr with hr | rfl
    · obtain ⟨q, hq, rfl⟩ := mem_map.mp hr
      exact mul_pos (hpos q hq) hfactor
    · linarith
  · have hset : ((ratios.map (· * ((otherTotal - (target - current)) / otherTotal))).set k
        target).sum = ratios.sum := by
      rw [eraseIdx_split (by simpa using hk'), eraseIdx_split hk', eraseIdx_set_eq,
        getD_eq_getElem _ _ (by simpa using hk'), getElem_set_self, eraseIdx_map,
        sum_map_mul_right, map_id', ← hother, ← hcurrent]
      field_simp
      ring
    rw [hset]
    exact hsum

/-- `new` is `old` with other ratios: the leaves and ids are the same, and no ratio went bad. -/
structure OnlyRatiosChanged (old new : LayoutNode) : Prop where
  leaves : getAllLeafNodes new = getAllLeafNodes old
  ids : new.ids = old.ids
  shape : WellShaped old → WellShaped new

namespace OnlyRatiosChanged

theorem refl (node : LayoutNode) : OnlyRatiosChanged node node := ⟨rfl, rfl, fun h => h⟩

private theorem leaves_list {children new : List LayoutNode}
    (h : List.Forall₂ OnlyRatiosChanged children new) :
    new.flatMap getAllLeafNodes = children.flatMap getAllLeafNodes := by
  induction h with
  | nil => rfl
  | cons hc _ ih => rw [flatMap_cons, flatMap_cons, hc.leaves, ih]

private theorem ids_list {children new : List LayoutNode}
    (h : List.Forall₂ OnlyRatiosChanged children new) :
    new.flatMap LayoutNode.ids = children.flatMap LayoutNode.ids := by
  induction h with
  | nil => rfl
  | cons hc _ ih => rw [flatMap_cons, flatMap_cons, hc.ids, ih]

private theorem shape_list {children new : List LayoutNode}
    (h : List.Forall₂ OnlyRatiosChanged children new) (hshape : ∀ c ∈ children, WellShaped c) :
    ∀ c ∈ new, WellShaped c := by
  induction h with
  | nil => simp
  | cons hc _ ih =>
    obtain ⟨hfirst, hrest⟩ := forall_mem_cons.mp hshape
    exact forall_mem_cons.mpr ⟨hc.shape hfirst, ih hrest⟩

/-- Change the ratios of one split and, below it, those of its children. -/
theorem split {i : String} {o : Orientation} {children new : List LayoutNode}
    {ratios newRatios : List ℚ} (h : List.Forall₂ OnlyRatiosChanged children new)
    (hratios : 2 ≤ children.length → RatiosOk children.length ratios →
      RatiosOk children.length newRatios) :
    OnlyRatiosChanged (.split i o children ratios) (.split i o new newRatios) := by
  refine ⟨by simp [leaves_list h], by simp [ids_list h], fun hshape => ?_⟩
  obtain ⟨hid, htwo, hr, hchildren⟩ := wellShaped_split_iff.mp hshape
  have hlen := h.length_eq
  exact .split hid (by omega) (by rw [← hlen]; exact hratios htwo hr) (shape_list h hchildren)

end OnlyRatiosChanged

/-- `children.map(f)` with a `changed` flag, for `f` that keeps the reference of what it does not
change: `none` when no child changed. -/
private def mapChanged (f : LayoutNode → Option LayoutNode) :
    List LayoutNode → Option (List LayoutNode)
  | [] => none
  | child :: rest =>
      match f child, mapChanged f rest with
      | none, none => none
      | some child, rest? => some (child :: rest?.getD rest)
      | none, some rest => some (child :: rest)

private theorem rewriteList_eq (pick : String → List LayoutNode → List ℚ → Option (Option (List ℚ)))
    (children : List LayoutNode) :
    rewriteRatios.rewriteList pick children = mapChanged (rewriteRatios pick) children := by
  induction children with
  | nil => rfl
  | cons child rest ih => rw [rewriteRatios.rewriteList, ih]; rfl

private theorem equalizeList_eq (leafId : String) (children : List LayoutNode) :
    equalizeRec.equalizeList leafId children = mapChanged (equalizeRec leafId) children := by
  induction children with
  | nil => rfl
  | cons child rest ih => rw [equalizeRec.equalizeList, ih]; rfl

private theorem mapChanged_forall₂ {f : LayoutNode → Option LayoutNode} (children : List LayoutNode)
    (hf : ∀ c ∈ children, ∀ c', f c = some c' → OnlyRatiosChanged c c') :
    List.Forall₂ OnlyRatiosChanged children ((mapChanged f children).getD children) := by
  induction children with
  | nil => exact .nil
  | cons child rest ih =>
    have hrest := ih fun c hc => hf c (by simp [hc])
    have hchild := hf child (by simp)
    rw [mapChanged]
    cases hc : f child with
    | none =>
      cases hr : mapChanged f rest with
      | none => exact List.forall₂_same.mpr fun c _ => .refl c
      | some rest' =>
        rw [hr] at hrest
        exact .cons (.refl child) hrest
    | some child' => exact .cons (hchild child' hc) hrest

theorem onlyRatiosChanged_rewriteRatios
    {pick : String → List LayoutNode → List ℚ → Option (Option (List ℚ))}
    (hpick : ∀ i children ratios new, pick i children ratios = some (some new) →
      2 ≤ children.length → RatiosOk children.length ratios → RatiosOk children.length new)
    (node : LayoutNode) : ∀ new, rewriteRatios pick node = some new → OnlyRatiosChanged node new := by
  induction node with
  | leaf node => simp [rewriteRatios]
  | split i o children ratios ih =>
    intro new h
    rw [rewriteRatios] at h
    cases hp : pick i children ratios with
    | some newRatios =>
      rw [hp] at h
      obtain ⟨rs, rfl, rfl⟩ := Option.map_eq_some_iff.mp h
      exact .split (List.forall₂_same.mpr fun c _ => .refl c) (hpick i children ratios rs hp)
    | none =>
      rw [hp, rewriteList_eq] at h
      obtain ⟨cs, hcs, rfl⟩ := Option.map_eq_some_iff.mp h
      have hall := mapChanged_forall₂ children ih
      rw [hcs] at hall
      exact .split hall fun _ hr => hr

theorem onlyRatiosChanged_updateSplitNodeRatios {node new : LayoutNode} {splitId : String}
    {rawRatios : List JsNumber} (h : updateSplitNodeRatios node splitId rawRatios = some new) :
    OnlyRatiosChanged node new := by
  refine onlyRatiosChanged_rewriteRatios ?_ node new h
  intro i children ratios new hpick _ _
  split at hpick
  · exact ratiosOk_normalizedRatios (Option.some.inj hpick)
  · cases hpick

variable {leafId : String}

theorem onlyRatiosChanged_stretchLeafInTree {root new : LayoutNode}
    {options : StretchOptions} (h : stretchLeafInTree root leafId options = some new) :
    OnlyRatiosChanged root new := by
  refine onlyRatiosChanged_rewriteRatios ?_ root new h
  intro i children ratios new hpick _ hratios
  obtain ⟨k, hk, hnew⟩ := Option.map_eq_some_iff.mp hpick
  obtain ⟨hlt, -⟩ := List.findIdx?_eq_some_iff_getElem.mp hk
  exact ratiosOk_stretchedRatios hlt hratios hnew

theorem onlyRatiosChanged_equalizeLeafParentSplit (root : LayoutNode) :
    ∀ new, equalizeLeafParentSplit root leafId = some new → OnlyRatiosChanged root new := by
  simp only [equalizeLeafParentSplit]
  induction root with
  | leaf node => simp [equalizeRec]
  | split i o children ratios ih =>
    intro new h
    rw [equalizeRec, equalizeList_eq] at h
    split at h
    · cases h
    obtain rfl := Option.some.inj h
    refine .split (mapChanged_forall₂ children ih) fun htwo hr => ?_
    split
    · exact ratiosOk_equalRatios (by omega)
    · exact hr

/-! ## Split -/

variable (clock : ℕ → ℕ)

@[simp] theorem splitLeafRec_split (leafId : String) (o : Orientation)
    (newLeaf : LeafGroupNode) (i : String) (o' : Orientation) (children : List LayoutNode)
    (ratios : List ℚ) (counter : ℕ) :
    splitLeafRec clock leafId o newLeaf (.split i o' children ratios) counter =
      (.split i o' (splitLeafRec.splitLeafList clock leafId o newLeaf children counter).1 ratios,
        (splitLeafRec.splitLeafList clock leafId o newLeaf children counter).2) := rfl

@[simp] theorem splitLeafList_cons (leafId : String) (o : Orientation)
    (newLeaf : LeafGroupNode) (child : LayoutNode) (rest : List LayoutNode) (counter : ℕ) :
    splitLeafRec.splitLeafList clock leafId o newLeaf (child :: rest) counter =
      ((splitLeafRec clock leafId o newLeaf child counter).1 ::
          (splitLeafRec.splitLeafList clock leafId o newLeaf rest
            (splitLeafRec clock leafId o newLeaf child counter).2).1,
        (splitLeafRec.splitLeafList clock leafId o newLeaf rest
          (splitLeafRec clock leafId o newLeaf child counter).2).2) := rfl

/-- The new leaf appears right after each leaf with the target id. -/
theorem getAllLeafNodes_splitLeafRec (leafId : String) (o : Orientation)
    (newLeaf : LeafGroupNode) (tree : LayoutNode) :
    ∀ counter, getAllLeafNodes (splitLeafRec clock leafId o newLeaf tree counter).1 =
      (getAllLeafNodes tree).flatMap fun leaf =>
        if leaf.id = leafId then [leaf, newLeaf] else [leaf] := by
  induction tree with
  | leaf node =>
    intro counter
    rw [splitLeafRec]
    by_cases h : node.id = leafId <;> simp [h]
  | split i o' children ratios ih =>
    intro counter
    rw [splitLeafRec_split, getAllLeafNodes_split, getAllLeafNodes_split]
    induction children generalizing counter with
    | nil => rfl
    | cons child rest ihRest =>
      rw [splitLeafList_cons, flatMap_cons, flatMap_cons, flatMap_append,
        ih child (by simp), ihRest fun c hc => ih c (by simp [hc])]

/-- The leaves after a split are the old ones and, when the target exists, the new one. -/
theorem mem_getAllLeafNodes_splitLeafRec {clock : ℕ → ℕ} {o : Orientation}
    {newLeaf : LeafGroupNode} {counter : ℕ} {leaf : LeafGroupNode} :
    leaf ∈ getAllLeafNodes (splitLeafRec clock leafId o newLeaf tree counter).1 ↔
      leaf ∈ getAllLeafNodes tree ∨ leaf = newLeaf ∧ leafId ∈ leafIds tree := by
  rw [getAllLeafNodes_splitLeafRec, mem_flatMap, leafIds, mem_map]
  constructor
  · rintro ⟨l, hl, hleaf⟩
    split at hleaf
    · next hid =>
      rcases mem_pair.mp hleaf with rfl | rfl
      · exact .inl hl
      · exact .inr ⟨rfl, l, hl, hid⟩
    · obtain rfl := mem_singleton.mp hleaf
      exact .inl hl
  · rintro (hl | ⟨rfl, l, hl, hid⟩)
    · exact ⟨leaf, hl, by split <;> simp⟩
    · exact ⟨l, hl, by simp [hid]⟩

variable (o : Orientation) (newLeaf : LeafGroupNode)

/-- A subtree without the target is returned as it is, and no id is generated. -/
theorem splitLeafRec_of_notMem (tree : LayoutNode) (h : leafId ∉ leafIds tree) :
    ∀ counter, splitLeafRec clock leafId o newLeaf tree counter = (tree, counter) := by
  induction tree with
  | leaf node =>
    intro counter
    rw [splitLeafRec, if_neg]
    simpa [eq_comm] using h
  | split i o' children ratios ih =>
    intro counter
    rw [leafIds_split] at h
    suffices hlist : splitLeafRec.splitLeafList clock leafId o newLeaf children counter
        = (children, counter) by rw [splitLeafRec_split, hlist]
    induction children generalizing counter with
    | nil => rfl
    | cons child rest ihRest =>
      rw [flatMap_cons, mem_append, not_or] at h
      rw [splitLeafList_cons, ih child (by simp) h.1,
        ihRest (fun c hc => ih c (by simp [hc])) h.2]

private theorem splitLeafList_of_notMem
    (children : List LayoutNode) (h : leafId ∉ children.flatMap leafIds) (counter : ℕ) :
    splitLeafRec.splitLeafList clock leafId o newLeaf children counter = (children, counter) := by
  have := splitLeafRec_of_notMem clock o newLeaf (.split "" o children []) (by simpa using h) counter
  rw [splitLeafRec_split, Prod.mk.injEq, LayoutNode.split.injEq] at this
  exact Prod.ext this.1.2.2.1 this.2

/-- With one leaf of the target id, the split adds the ids of the new leaf and of one new split. -/
theorem ids_splitLeafRec (tree : LayoutNode) (hmem : leafId ∈ leafIds tree)
    (hnd : (leafIds tree).Nodup) :
    ∀ counter, (splitLeafRec clock leafId o newLeaf tree counter).1.ids.Perm
      ((generateLayoutId clock .split counter).1 :: newLeaf.id :: tree.ids) := by
  induction tree with
  | leaf node =>
    intro counter
    obtain rfl : leafId = node.id := by simpa using hmem
    rw [splitLeafRec, if_pos rfl]
    simpa using List.Perm.swap _ _ _
  | split i o' children ratios ih =>
    intro counter
    rw [leafIds_split] at hmem hnd
    rw [splitLeafRec_split, LayoutNode.ids_split, LayoutNode.ids_split]
    suffices hlist : ((splitLeafRec.splitLeafList clock leafId o newLeaf children counter).1.flatMap
        LayoutNode.ids).Perm ((generateLayoutId clock .split counter).1 :: newLeaf.id ::
          children.flatMap LayoutNode.ids) by
      refine (hlist.cons i).trans ?_
      exact (List.Perm.swap _ _ _).trans ((List.Perm.swap _ _ _).cons _)
    induction children generalizing counter with
    | nil => simp at hmem
    | cons child rest ihRest =>
      rw [flatMap_cons] at hmem hnd
      obtain ⟨hndChild, hndRest, hdisj⟩ := nodup_append.mp hnd
      rw [splitLeafList_cons, flatMap_cons, flatMap_cons]
      by_cases hhere : leafId ∈ leafIds child
      · rw [splitLeafList_of_notMem clock o newLeaf rest fun h => hdisj leafId hhere leafId h rfl]
        exact (ih child (by simp) hhere hndChild counter).append_right _
      · rw [splitLeafRec_of_notMem clock o newLeaf child hhere]
        have hrest := ihRest (fun c hc => ih c (by simp [hc]))
          ((mem_append.mp hmem).resolve_left hhere) hndRest counter
        refine (hrest.append_left child.ids).trans ?_
        exact List.perm_middle.trans (List.perm_middle.cons _)

theorem isBlank_generateLayoutId (kind : LayoutIdPrefix) (counter : ℕ) :
    isBlank (generateLayoutId clock kind counter).1 = false := by
  have hname : isBlank kind.name = false := by cases kind <;> decide
  show isBlank (kind.name ++ "-" ++ toString (clock (counter + 1)) ++ "-"
    ++ toString (counter + 1)) = false
  simp [hname]

/-- A generated leaf id is never a generated split id. -/
theorem generateLayoutId_leaf_ne_split (n m : ℕ) :
    (generateLayoutId clock .leaf n).1 ≠ (generateLayoutId clock .split m).1 := by
  show "leaf" ++ "-" ++ toString (clock (n + 1)) ++ "-" ++ toString (n + 1)
    ≠ "split" ++ "-" ++ toString (clock (m + 1)) ++ "-" ++ toString (m + 1)
  intro h
  simpa using congrArg String.toList h

/-- Splitting with a well-formed new leaf keeps the tree well shaped. -/
theorem WellShaped.splitLeafRec (leafId : String) (o : Orientation)
    {newLeaf : LeafGroupNode} (hnew : newLeaf.WellFormed) (h : WellShaped tree) : ∀ counter,
    WellShaped (Layout.splitLeafRec clock leafId o newLeaf tree counter).1 := by
  induction tree with
  | leaf node =>
    intro counter
    rw [Layout.splitLeafRec]
    split
    · refine .split (isBlank_generateLayoutId ..) (by simp) ⟨rfl, by simp, by norm_num⟩ ?_
      simp [wellShaped_leaf_iff, hnew, wellShaped_leaf_iff.mp h]
    · exact h
  | split i o' children ratios ih =>
    intro counter
    obtain ⟨hid, htwo, hratios, hchildren⟩ := wellShaped_split_iff.mp h
    rw [splitLeafRec_split]
    suffices hlist : (Layout.splitLeafRec.splitLeafList clock leafId o newLeaf children
          counter).1.length = children.length ∧
        ∀ c ∈ (Layout.splitLeafRec.splitLeafList clock leafId o newLeaf children counter).1,
          WellShaped c by
      exact .split hid (by omega) (by rw [hlist.1]; exact hratios) hlist.2
    clear h htwo hratios
    induction children generalizing counter with
    | nil => exact ⟨rfl, by simp [Layout.splitLeafRec.splitLeafList]⟩
    | cons child rest ihRest =>
      obtain ⟨hlen, hws⟩ := ihRest (fun c hc => ih c (by simp [hc]))
        (Layout.splitLeafRec clock leafId o newLeaf child counter).2
        fun c hc => hchildren c (by simp [hc])
      rw [splitLeafList_cons]
      refine ⟨by simp [hlen], forall_mem_cons.mpr ⟨?_, hws⟩⟩
      exact ih child (by simp) (hchildren child (by simp)) counter

/-! ## Close -/

theorem removeLeafList_eq (leafId : String) (children : List LayoutNode) :
    removeLeafRec.removeLeafList leafId children = children.filterMap (removeLeafRec leafId) := by
  induction children with
  | nil => rfl
  | cons child rest ih =>
    rw [removeLeafRec.removeLeafList, ih, filterMap_cons]
    cases removeLeafRec leafId child <;> rfl

/-- What survives of a split: its surviving children, wrapped again when there are two or more. -/
private theorem removeLeafRec_split (leafId : String) (i : String) (o : Orientation)
    (children : List LayoutNode) (ratios : List ℚ) : removeLeafRec leafId (.split i o children ratios) =
      match children.filterMap (removeLeafRec leafId) with
      | [] => none
      | [child] => some child
      | newChildren => some (.split i o newChildren (equalRatios newChildren.length)) := by
  rw [← removeLeafList_eq]
  rfl

/-- Any fold over leaves sees exactly the surviving children of a split. -/
private theorem flatMap_removeLeafRec_split {α : Type*} (f : LayoutNode → List α)
    (hf : ∀ i o cs rs, f (.split i o cs rs) = cs.flatMap f) (leafId : String) (i : String)
    (o : Orientation) (children : List LayoutNode) (ratios : List ℚ) :
    (removeLeafRec leafId (.split i o children ratios)).toList.flatMap f =
      (children.filterMap (removeLeafRec leafId)).flatMap f := by
  rw [removeLeafRec_split]
  split
  · next h => rw [h]; rfl
  · next child h => rw [h]; rfl
  · simp [hf]

/-- The leaves that survive a close are the others, in order. -/
theorem getAllLeafNodes_removeLeafRec (leafId : String) (tree : LayoutNode) :
    (removeLeafRec leafId tree).toList.flatMap getAllLeafNodes =
      (getAllLeafNodes tree).filter (·.id ≠ leafId) := by
  induction tree with
  | leaf node =>
    by_cases h : node.id = leafId <;> simp [removeLeafRec, h]
  | split i o children ratios ih =>
    rw [flatMap_removeLeafRec_split _ getAllLeafNodes_split, getAllLeafNodes_split]
    induction children with
    | nil => rfl
    | cons child rest ihRest =>
      rw [flatMap_cons, filter_append, ← ih child (by simp),
        ← ihRest fun c hc => ih c (by simp [hc]), filterMap_cons]
      cases removeLeafRec leafId child <;> simp

/-- A close removes ids and adds none. -/
theorem ids_removeLeafRec (leafId : String) (tree : LayoutNode) :
    ∀ new, removeLeafRec leafId tree = some new → new.ids.Sublist tree.ids := by
  induction tree with
  | leaf node =>
    intro new h
    rw [removeLeafRec] at h
    split at h
    · cases h
    · obtain rfl := Option.some.inj h
      exact List.Sublist.refl _
  | split i o children ratios ih =>
    intro new h
    have hchildren : ((children.filterMap (removeLeafRec leafId)).flatMap LayoutNode.ids).Sublist
        (children.flatMap LayoutNode.ids) := by
      clear h
      induction children with
      | nil => exact List.Sublist.refl _
      | cons child rest ihRest =>
        have hrest := ihRest fun c hc => ih c (by simp [hc])
        rw [filterMap_cons, flatMap_cons]
        cases hc : removeLeafRec leafId child with
        | none => exact hrest.trans (sublist_append_right _ _)
        | some child' => exact (ih child (by simp) child' hc).append hrest
    rw [removeLeafRec_split] at h
    rw [LayoutNode.ids_split]
    split at h
    · cases h
    · next child hcs =>
      obtain rfl := Option.some.inj h
      rw [hcs, flatMap_singleton] at hchildren
      exact hchildren.cons _
    · obtain rfl := Option.some.inj h
      rw [LayoutNode.ids_split]
      exact hchildren.cons_cons _

/-- A close keeps the tree well shaped: splits with one child left collapse, the others are
equalized. -/
theorem WellShaped.removeLeafRec (h : WellShaped tree) :
    ∀ new, Layout.removeLeafRec leafId tree = some new → WellShaped new := by
  induction tree with
  | leaf node =>
    intro new hnew
    rw [Layout.removeLeafRec] at hnew
    split at hnew
    · cases hnew
    · obtain rfl := Option.some.inj hnew
      exact h
  | split i o children ratios ih =>
    intro new hnew
    obtain ⟨hid, -, -, hchildren⟩ := wellShaped_split_iff.mp h
    have hall : ∀ c ∈ children.filterMap (Layout.removeLeafRec leafId), WellShaped c := by
      intro c hc
      obtain ⟨c₀, hc₀, hrem⟩ := mem_filterMap.mp hc
      exact ih c₀ hc₀ (hchildren c₀ hc₀) c hrem
    rw [removeLeafRec_split] at hnew
    split at hnew
    · cases hnew
    · next child hcs =>
      obtain rfl := Option.some.inj hnew
      exact hall child (by simp [hcs])
    · next hne hone =>
      obtain rfl := Option.some.inj hnew
      have htwo : 2 ≤ (children.filterMap (Layout.removeLeafRec leafId)).length := by
        rcases hcs : children.filterMap (Layout.removeLeafRec leafId) with _ | ⟨a, _ | ⟨b, rest⟩⟩
        · exact absurd hcs hne
        · exact absurd hcs (hone a)
        · simp
      exact .split hid htwo (ratiosOk_equalRatios (by omega)) hall

/-- Closing an existing leaf of a tree with another leaf succeeds, and keeps exactly the others. -/
theorem closeLeafNode_some {root : LayoutNode} {new : LayoutNode}
    (h : closeLeafNode root leafId = some new) : removeLeafRec leafId root = some new ∧
      getAllLeafNodes new = (getAllLeafNodes root).filter (·.id ≠ leafId) := by
  rw [closeLeafNode] at h
  split at h
  · cases h
  split at h
  · cases h
  · refine ⟨h, ?_⟩
    have := getAllLeafNodes_removeLeafRec leafId root
    rw [h] at this
    simpa using this

end Taomni.Layout
