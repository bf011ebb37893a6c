import Mathlib.Data.List.Perm.Subperm
import Taomni.TabPolicy.Planning

/-!
# What a tab policy plan evicts

Reference: `components/editor/workspace/tabPolicy/planning.ts`.

A plan evicts from each group as many tabs as it can, and the images of the groups after the change refer
to tabs that are left. Two things go wrong: a dirty preview goes before the clean tabs, and an evicted tab
with the empty key stays the active tab or the preview of its group.
-/

namespace Taomni.TabPolicy

open List
open Record (mem_entries_iff mem_of_get?_ofEntries)

/-- The keys that a plan evicts from a group. -/
def TabPolicyPlan.evictedIn (plan : TabPolicyPlan) (id : String) : List String :=
  (plan.evictionsByGroup.get? id).getD []

variable {k : String}

section Plan

variable {now : ℕ} {params : CreateTabPolicyPlanParams} {id : String} {group : TabPolicyGroup}

/-! ## The images of a plan -/

/-- The entries of `evictionsByGroup`. -/
theorem exists_evictionEntries (now : ℕ) (params : CreateTabPolicyPlanParams) :
    ∃ entries, (createTabPolicyPlan now params).evictionsByGroup = .ofEntries entries ∧
      ∀ id keys, (id, keys) ∈ entries ↔ ∃ group, params.currentGroups.get? id = some group ∧
        groupEviction params group = .evicted keys := by
  refine ⟨_, rfl, fun id keys => ?_⟩
  rw [filterMap_map, mem_filterMap]
  constructor
  · rintro ⟨⟨groupId, group⟩, hentry, hsome⟩
    rw [Function.comp_apply] at hsome
    cases heviction : groupEviction params group with
    | evicted evictedKeys =>
      simp only [heviction, Option.some.injEq, Prod.mk.injEq] at hsome
      obtain ⟨rfl, rfl⟩ := hsome
      exact ⟨group, mem_entries_iff.mp hentry, heviction⟩
    | withinLimit => simp [heviction] at hsome
    | overLimitProtected reason => simp [heviction] at hsome
  · rintro ⟨group, hget, heviction⟩
    refine ⟨(id, group), mem_entries_iff.mpr hget, ?_⟩
    simp only [Function.comp_apply, heviction]

theorem evictedIn_createTabPolicyPlan (h : params.currentGroups.get? id = some group) :
    (createTabPolicyPlan now params).evictedIn id = (groupEviction params group).keys := by
  obtain ⟨entries, heq, hentries⟩ := exists_evictionEntries now params
  have hone {keys : List String} (hmem : (id, keys) ∈ entries) :
      groupEviction params group = .evicted keys := by
    obtain ⟨group', hget, heviction⟩ := (hentries id keys).mp hmem
    rwa [Option.some.inj (h.symm.trans hget)]
  rw [TabPolicyPlan.evictedIn, heq]
  by_cases hevicted : ∃ keys, groupEviction params group = .evicted keys
  · obtain ⟨keys, hkeys⟩ := hevicted
    have hget := Record.get?_ofEntries ((hentries id keys).mpr ⟨group, h, hkeys⟩) fun w hw =>
      TabEvictionResult.evicted.inj ((hone hw).symm.trans hkeys)
    rw [hget, hkeys]
    rfl
  · have hnone : (Record.ofEntries entries).get? id = none :=
      Option.eq_none_iff_forall_ne_some.mpr fun keys hget =>
        hevicted ⟨keys, hone (mem_of_get?_ofEntries hget)⟩
    rw [hnone]
    cases hcase : groupEviction params group with
    | evicted keys => exact absurd ⟨keys, hcase⟩ hevicted
    | withinLimit => rfl
    | overLimitProtected reason => rfl

theorem evictedIn_eq_nil (h : params.currentGroups.get? id = none) :
    (createTabPolicyPlan now params).evictedIn id = [] := by
  obtain ⟨entries, heq, hentries⟩ := exists_evictionEntries now params
  have hnone : (Record.ofEntries entries).get? id = none :=
    Option.eq_none_iff_forall_ne_some.mpr fun keys hget => by
      obtain ⟨group, hgroup, -⟩ := (hentries id keys).mp (mem_of_get?_ofEntries hget)
      rw [h] at hgroup
      cases hgroup
  rw [TabPolicyPlan.evictedIn, heq, hnone]
  rfl

theorem get?_postGroups {post : TabPolicyGroupImage} :
    (createTabPolicyPlan now params).postGroups.get? id = some post ↔
      ∃ group, params.currentGroups.get? id = some group ∧
        post = groupAfterEviction id group ((createTabPolicyPlan now params).evictedIn id) := by
  constructor
  · intro h
    obtain ⟨entry, hentry, heq⟩ := mem_map.mp (mem_of_get?_ofEntries h)
    obtain ⟨rfl, rfl⟩ := Prod.mk.inj heq
    exact ⟨entry.2, mem_entries_iff.mp hentry, rfl⟩
  · rintro ⟨group, hget, rfl⟩
    have hentry : (id, group) ∈ params.currentGroups.entries := mem_entries_iff.mpr hget
    refine Record.get?_ofEntries (mem_map.mpr ⟨(id, group), hentry, rfl⟩) fun w hw => ?_
    obtain ⟨⟨groupId, group'⟩, hentry', heq⟩ := mem_map.mp hw
    obtain ⟨rfl, rfl⟩ := Prod.mk.inj heq
    rw [Option.some.inj (hget.symm.trans (mem_entries_iff.mp hentry'))]
    rfl

theorem mem_unreferencedEvictedKeys : k ∈ (createTabPolicyPlan now params).unreferencedEvictedKeys ↔
      (∃ id, k ∈ (createTabPolicyPlan now params).evictedIn id) ∧
        ∀ id post, (createTabPolicyPlan now params).postGroups.get? id = some post →
          k ∉ post.openOrder := by
  have hmem : k ∈ (createTabPolicyPlan now params).allEvictedKeys ↔
      ∃ id, k ∈ (createTabPolicyPlan now params).evictedIn id := by
    rw [mem_allEvictedKeys]
    constructor
    · rintro ⟨⟨id, group⟩, hentry, hk⟩
      exact ⟨id, (evictedIn_createTabPolicyPlan (mem_entries_iff.mp hentry)).symm ▸ hk⟩
    · rintro ⟨id, hk⟩
      cases hget : params.currentGroups.get? id with
      | none => exact absurd (evictedIn_eq_nil hget ▸ hk) not_mem_nil
      | some group =>
        exact ⟨(id, group), mem_entries_iff.mpr hget, evictedIn_createTabPolicyPlan hget ▸ hk⟩
  rw [← hmem]
  refine mem_filter.trans (and_congr_right fun _ => ?_)
  rw [decide_eq_true_eq, mem_flatMap]
  constructor
  · exact fun hnot id post hpost hk => hnot ⟨(id, post), mem_entries_iff.mpr hpost, hk⟩
  · rintro hnot ⟨⟨id, post⟩, hentry, hk⟩
    exact hnot id post (mem_entries_iff.mp hentry) hk

end Plan

/-! ## What is evicted from a group -/

section Group

variable {params : CreateTabPolicyPlanParams} {group : TabPolicyGroup}

theorem nodup_evictableTabs (hnodup : group.openOrder.Nodup) : (evictableTabs params group).Nodup :=
  (List.nodup_reverse.mpr hnodup).filter _

theorem nodup_evictionOrder (hnodup : group.openOrder.Nodup) : (evictionOrder params group).Nodup :=
  (perm_insertionSort _ _).nodup_iff.mpr (nodup_evictableTabs hnodup)

/-- `a` is evicted before `b`: by the comparator, or from further right where it cannot tell. -/
def EvictedBefore (params : CreateTabPolicyPlanParams) (group : TabPolicyGroup) (a b : String) : Prop :=
  EvictLe params group a b ∧ (EvictLe params group b a →
    (evictableTabs params group).idxOf a < (evictableTabs params group).idxOf b)

instance : DecidableRel (EvictedBefore params group) := fun _ _ => inferInstanceAs (Decidable (_ ∧ _))

theorem not_evictedBefore_swap (a b : String) (hab : EvictedBefore params group a b) :
    ¬EvictedBefore params group b a :=
  fun hba => Nat.lt_asymm (hab.2 hba.1) (hba.2 hab.1)

theorem pairwise_evictedBefore (hnodup : group.openOrder.Nodup) :
    (evictionOrder params group).Pairwise (EvictedBefore params group) := by
  refine pairwise_insertionSort_of_first (List.pairwise_iff_getElem.mpr fun i j hi hj hij => ?_)
  have hidx (i : ℕ) (hi : i < (evictableTabs params group).length) :
      (evictableTabs params group).idxOf (evictableTabs params group)[i] = i :=
    (nodup_evictableTabs hnodup).idxOf_getElem i hi
  split
  · next hle =>
    refine ⟨hle, fun _ => ?_⟩
    rw [hidx i hi, hidx j hj]
    exact hij
  · next hnot =>
    exact ⟨(Std.Total.total (r := EvictLe params group) _ _).resolve_left hnot,
      fun hle => absurd hle hnot⟩

/-- A tab is evicted when fewer evictable tabs go before it than the group is over the limit. -/
theorem mem_groupEviction_iff (hnodup : group.openOrder.Nodup) :
    k ∈ (groupEviction params group).keys ↔ k ∈ evictableTabs params group ∧
      (evictableTabs params group).countP (fun a => EvictedBefore params group a k)
        < overflow params group := by
  rw [groupEviction_keys]
  have hmem : k ∈ evictionOrder params group ↔ k ∈ evictableTabs params group :=
    mem_insertionSort _
  have hcount := (perm_insertionSort (EvictLe params group)
    (evictableTabs params group)).countP_eq fun a => EvictedBefore params group a k
  rw [← hmem, ← hcount]
  constructor
  · intro h
    have hk := mem_of_mem_take h
    exact ⟨hk, (mem_take_iff_countP_lt (pairwise_evictedBefore hnodup) not_evictedBefore_swap
      (nodup_evictionOrder hnodup) _ hk).mp h⟩
  · rintro ⟨hk, hlt⟩
    exact (mem_take_iff_countP_lt (pairwise_evictedBefore hnodup) not_evictedBefore_swap
      (nodup_evictionOrder hnodup) _ hk).mpr hlt

/-- What is evicted does not come after what is kept. -/
theorem evictLe_of_kept {e : String} (he : e ∈ (groupEviction params group).keys)
    (hk : k ∈ evictableTabs params group) (hkept : k ∉ (groupEviction params group).keys) :
    EvictLe params group e k := by
  rw [groupEviction_keys] at he hkept
  have hsorted := pairwise_evictionOrder params group
  rw [← take_append_drop (overflow params group) (evictionOrder params group),
    pairwise_append] at hsorted
  have hmem : k ∈ evictionOrder params group := (mem_insertionSort _).mpr hk
  rw [← take_append_drop (overflow params group) (evictionOrder params group),
    mem_append] at hmem
  exact hsorted.2.2 e he k (hmem.resolve_left hkept)

theorem evictionClass_of_preview (h : group.previewKey = some k) :
    (tabMeta params group k).evictionClass = if params.openFiles.dirty k then 1 else 0 := by
  rw [TabEvictionMeta.evictionClass, tabMeta, if_pos (decide_eq_true h), Nat.zero_add]

theorem evictionClass_of_other (h : group.previewKey ≠ some k) :
    (tabMeta params group k).evictionClass = 2 + if params.openFiles.dirty k then 1 else 0 := by
  rw [TabEvictionMeta.evictionClass, tabMeta, if_neg (by simpa using h)]

theorem evictionClass_le_of_evictLe {a b : String} (h : EvictLe params group a b) :
    (tabMeta params group a).evictionClass ≤ (tabMeta params group b).evictionClass := by
  rcases evictLe_iff.mp h with hlt | heq
  · exact hlt.le
  · exact heq.1.le

/-- A dirty tab that is evicted before a clean one is the preview. -/
theorem preview_of_evictLe {e : String} (h : EvictLe params group e k)
    (he : params.openFiles.dirty e = true) (hk : params.openFiles.dirty k = false) :
    group.previewKey = some e := by
  have hle := evictionClass_le_of_evictLe h
  by_contra hother
  rw [evictionClass_of_other hother, if_pos he] at hle
  by_cases hpreview : group.previewKey = some k
  · rw [evictionClass_of_preview hpreview, hk] at hle
    simp at hle
  · rw [evictionClass_of_other hpreview, hk] at hle
    simp at hle

/-- The evictable tabs without unsaved changes. -/
def cleanTabs (params : CreateTabPolicyPlanParams) (group : TabPolicyGroup) : List String :=
  (evictableTabs params group).filter fun k => params.openFiles.dirty k = false

theorem mem_cleanTabs :
    k ∈ cleanTabs params group ↔ k ∈ evictableTabs params group ∧ params.openFiles.dirty k = false := by
  rw [cleanTabs, mem_filter, decide_eq_true_eq]

/-- Nothing stands before a dirty preview. -/
theorem preview_evicted (hnodup : group.openOrder.Nodup) {p : String}
    (hpreview : group.previewKey = some p) (hp : p ∈ evictableTabs params group)
    (hpos : 0 < overflow params group) : p ∈ (groupEviction params group).keys := by
  refine (mem_groupEviction_iff hnodup).mpr ⟨hp, ?_⟩
  have hzero : (evictableTabs params group).countP (fun a => EvictedBefore params group a p) = 0 := by
    refine countP_eq_zero.mpr fun a _ => ?_
    rw [decide_eq_true_eq]
    intro hbefore
    by_cases hap : a = p
    · exact not_evictedBefore_swap a p hbefore (hap ▸ hap ▸ hbefore)
    · have hle := evictionClass_le_of_evictLe hbefore.1
      rw [evictionClass_of_preview hpreview, evictionClass_of_other fun h =>
        hap (Option.some.inj (h.symm.trans hpreview))] at hle
      split at hle <;> split at hle <;> omega
  rw [hzero]
  exact hpos

/-- Clean previews go first and clean tabs before dirty ones, exactly when no dirty preview goes before a
clean tab that stays. -/
theorem order_iff (hnodup : group.openOrder.Nodup) :
    (∀ e ∈ (groupEviction params group).keys, ∀ k ∈ evictableTabs params group,
      k ∉ (groupEviction params group).keys →
        ¬(group.previewKey = some k ∧ params.openFiles.dirty k = false) ∧
          (params.openFiles.dirty k = false → params.openFiles.dirty e = false)) ↔
      ∀ p ∈ group.previewKey, p ∈ evictableTabs params group → params.openFiles.dirty p = true →
        overflow params group = 0 ∨ (cleanTabs params group).length < overflow params group := by
  have hnodupClean : (cleanTabs params group).Nodup := (nodup_evictableTabs hnodup).filter _
  constructor
  · intro horder p hpreview hp hdirty
    by_contra hnot
    rw [not_or, not_lt] at hnot
    have hevicted := preview_evicted hnodup hpreview hp (Nat.pos_of_ne_zero hnot.1)
    -- the preview takes one place, so a clean tab stays
    have hkept : ∃ k ∈ cleanTabs params group, k ∉ (groupEviction params group).keys := by
      by_contra hall
      push Not at hall
      have hsubset : p :: cleanTabs params group ⊆ (groupEviction params group).keys :=
        List.cons_subset.mpr ⟨hevicted, hall⟩
      have hnot : p ∉ cleanTabs params group := fun hmem =>
        absurd (hdirty.symm.trans (mem_cleanTabs.mp hmem).2) (by decide)
      have hlength := (subperm_of_subset (nodup_cons.mpr ⟨hnot, hnodupClean⟩)
        hsubset).length_le
      rw [groupEviction_keys, length_take, length_cons] at hlength
      omega
    obtain ⟨k, hk, hkept⟩ := hkept
    obtain ⟨hmem, hclean⟩ := mem_cleanTabs.mp hk
    rw [(horder p hevicted k hmem hkept).2 hclean] at hdirty
    cases hdirty
  · intro hcond e he k hk hkept
    have hle := evictLe_of_kept he hk hkept
    constructor
    · rintro ⟨hpreview, hclean⟩
      have hclass := evictionClass_le_of_evictLe hle
      rw [evictionClass_of_preview hpreview, hclean] at hclass
      by_cases hother : group.previewKey = some e
      · exact hkept (Option.some.inj (hpreview.symm.trans hother) ▸ he)
      · rw [evictionClass_of_other hother] at hclass
        simp at hclass
    · intro hclean
      rw [← Bool.not_eq_true]
      intro hdirty
      have hpreview := preview_of_evictLe hle hdirty hclean
      have hevictable : e ∈ evictableTabs params group := ((mem_groupEviction_iff hnodup).mp he).1
      have hlength : (groupEviction params group).keys.length = overflow params group := by
        rw [groupEviction_keys] at hkept ⊢
        refine length_take_of_le (Nat.le_of_lt ?_)
        by_contra hnot
        rw [take_of_length_le (Nat.le_of_not_lt hnot)] at hkept
        exact hkept ((mem_insertionSort _).mpr hk)
      rcases hcond e hpreview hevictable hdirty with hzero | hlt
      · rw [hzero] at hlength
        rw [length_eq_zero_iff.mp hlength] at he
        exact not_mem_nil he
      · -- only the preview and other clean tabs go before the clean tab that stays
        have hsubset : (groupEviction params group).keys
            ⊆ e :: (cleanTabs params group).erase k := by
          intro x hx
          by_cases hxe : x = e
          · exact hxe ▸ mem_cons_self
          · have hxclean : params.openFiles.dirty x = false := by
              rw [← Bool.not_eq_true]
              intro hxdirty
              exact hxe (Option.some.inj
                ((preview_of_evictLe (evictLe_of_kept hx hk hkept) hxdirty hclean).symm.trans hpreview))
            have hxk : x ≠ k := fun h => hkept (h ▸ hx)
            exact mem_cons_of_mem e ((mem_erase_of_ne hxk).mpr
              (mem_cleanTabs.mpr ⟨((mem_groupEviction_iff hnodup).mp hx).1, hxclean⟩))
        have hkeysNodup : (groupEviction params group).keys.Nodup := by
          rw [groupEviction_keys]
          exact (nodup_evictionOrder hnodup).sublist (take_sublist _ _)
        have hcount := (subperm_of_subset hkeysNodup hsubset).length_le
        have hkmem : k ∈ cleanTabs params group := mem_cleanTabs.mpr ⟨hk, hclean⟩
        have hpos := length_pos_of_mem hkmem
        rw [hlength, length_cons, length_erase_of_mem hkmem] at hcount
        omega

end Group

/-- A reference stays inside the group unless it is the empty key and its tab is evicted. -/
theorem reference_iff {openOrder evicted : List String} (hevicted : ∀ k ∈ evicted, k ∈ openOrder)
    (key fallback : Option String) (hfallback : ∀ k ∈ fallback, k ∈ openOrder.filter (· ∉ evicted)) :
    ((∀ k ∈ key, k ∈ openOrder) →
      ∀ k ∈ if key.any (fun k => k ≠ "" && k ∈ evicted) then fallback else key,
        k ∈ openOrder.filter (· ∉ evicted)) ↔ ¬(key = some "" ∧ "" ∈ evicted) := by
  cases key with
  | none => exact iff_of_true (fun _ k hk => nomatch hk) fun h => nomatch h.1
  | some key =>
    by_cases hmem : key ∈ evicted
    · by_cases hempty : key = ""
      · subst hempty
        refine iff_of_false (fun h => ?_) fun h => h ⟨rfl, hmem⟩
        have hkept := h (fun k hk => Option.some.inj hk ▸ hevicted "" hmem) "" (by simp)
        exact of_decide_eq_true (mem_filter.mp hkept).2 hmem
      · refine iff_of_true (fun _ k hk => ?_) fun h => hempty (Option.some.inj h.1)
        rw [if_pos (by simp [hempty, hmem])] at hk
        exact hfallback k hk
    · refine iff_of_true (fun h k hk => ?_) fun h => hmem (Option.some.inj h.1 ▸ h.2)
      rw [if_neg (by simp [hmem])] at hk
      obtain rfl := Option.some.inj hk
      exact mem_filter.mpr ⟨h key rfl, decide_eq_true hmem⟩

/-! ## The whole plan -/

/-- What a plan must do to one group. -/
structure EvictsSafelyFrom (params : CreateTabPolicyPlanParams) (group : TabPolicyGroup)
    (evicted : List String) (post : TabPolicyGroupImage) : Prop where
  allowed : ∀ k ∈ evicted, k ∈ group.openOrder ∧ k ∉ group.pinnedKeys ∧
    (params.allowDirtyCandidates = false → params.openFiles.dirty k = false)
  count : evicted.Nodup ∧
    evicted.length = min (overflow params group) (evictableTabs params group).length
  order : ∀ e ∈ evicted, ∀ k ∈ evictableTabs params group, k ∉ evicted →
    ¬(group.previewKey = some k ∧ params.openFiles.dirty k = false) ∧
      (params.openFiles.dirty k = false → params.openFiles.dirty e = false)
  openOrder : post.openOrder = group.openOrder.filter (· ∉ evicted)
  activeKey : (∀ k ∈ group.activeKey, k ∈ group.openOrder) → ∀ k ∈ post.activeKey, k ∈ post.openOrder
  previewKey : (∀ k ∈ group.previewKey, k ∈ group.openOrder) →
    ∀ k ∈ post.previewKey, k ∈ post.openOrder
  pinnedKeys : ∀ k ∈ post.pinnedKeys, k ∈ group.openOrder → k ∈ post.openOrder

structure EvictsSafely (params : CreateTabPolicyPlanParams) (plan : TabPolicyPlan) : Prop where
  group : ∀ id group, params.currentGroups.get? id = some group → ∃ post,
    plan.postGroups.get? id = some post ∧ EvictsSafelyFrom params group (plan.evictedIn id) post
  unreferenced : ∀ k, k ∈ plan.unreferencedEvictedKeys ↔ (∃ id, k ∈ plan.evictedIn id) ∧
    ∀ id post, plan.postGroups.get? id = some post → k ∉ post.openOrder

/-- The groups from which a plan evicts safely: an evictable dirty preview does not go before a clean tab
that stays, and the empty key is not evicted while the group refers to it. -/
structure SafeGroup (params : CreateTabPolicyPlanParams) (group : TabPolicyGroup) : Prop where
  preview : ∀ p ∈ group.previewKey, p ∈ evictableTabs params group →
    params.openFiles.dirty p = true →
      overflow params group = 0 ∨ (cleanTabs params group).length < overflow params group
  emptyKey : group.activeKey = some "" ∨ group.previewKey = some "" →
    "" ∈ evictableTabs params group → overflow params group
      ≤ (evictableTabs params group).countP fun a => EvictedBefore params group a ""

theorem evictsSafelyFrom_iff {params : CreateTabPolicyPlanParams} {group : TabPolicyGroup}
    (hnodup : group.openOrder.Nodup) (id : String) :
    EvictsSafelyFrom params group (groupEviction params group).keys
        (groupAfterEviction id group (groupEviction params group).keys) ↔ SafeGroup params group := by
  have hevicted (k : String) (hk : k ∈ (groupEviction params group).keys) : k ∈ group.openOrder :=
    (mem_groupEviction hk).1
  have hactive := reference_iff hevicted group.activeKey
    (group.openOrder.filter (· ∉ (groupEviction params group).keys)).getLast?
    fun k hk => mem_of_getLast? hk
  have hpreview := reference_iff hevicted group.previewKey none fun k hk => nomatch hk
  have hempty : "" ∈ (groupEviction params group).keys ↔ _ := mem_groupEviction_iff hnodup
  constructor
  · intro h
    refine ⟨(order_iff hnodup).mp h.order, fun hkey hmem => ?_⟩
    by_contra hlt
    have hin := hempty.mpr ⟨hmem, Nat.lt_of_not_le hlt⟩
    rcases hkey with hkey | hkey
    · exact hactive.mp h.activeKey ⟨hkey, hin⟩
    · exact hpreview.mp h.previewKey ⟨hkey, hin⟩
  · intro h
    have hkeeps (hkey : group.activeKey = some "" ∨ group.previewKey = some "") :
        "" ∉ (groupEviction params group).keys := fun hin =>
      Nat.not_lt_of_le (h.emptyKey hkey (hempty.mp hin).1) (hempty.mp hin).2
    exact
      { allowed := fun k hk => mem_groupEviction hk
        count := by
          rw [groupEviction_keys]
          exact ⟨(nodup_evictionOrder hnodup).sublist (take_sublist _ _), by
            rw [length_take, evictionOrder, length_insertionSort]⟩
        order := (order_iff hnodup).mpr h.preview
        openOrder := rfl
        activeKey := hactive.mpr fun hkey => hkeeps (.inl hkey.1) hkey.2
        previewKey := hpreview.mpr fun hkey => hkeeps (.inr hkey.1) hkey.2
        pinnedKeys := fun k hk hopen => mem_filter.mpr ⟨hopen, (mem_filter.mp hk).2⟩ }

/-- A plan evicts safely exactly from safe groups. -/
theorem createTabPolicyPlan_safe_iff (now : ℕ) (params : CreateTabPolicyPlanParams)
    (hnodup : ∀ id group, params.currentGroups.get? id = some group → group.openOrder.Nodup) :
    EvictsSafely params (createTabPolicyPlan now params) ↔
      ∀ id group, params.currentGroups.get? id = some group → SafeGroup params group := by
  constructor
  · intro h id group hget
    obtain ⟨post, hpost, hsafe⟩ := h.group id group hget
    obtain ⟨group', hget', rfl⟩ := get?_postGroups.mp hpost
    obtain rfl := Option.some.inj (hget.symm.trans hget')
    rw [evictedIn_createTabPolicyPlan hget] at hsafe
    exact (evictsSafelyFrom_iff (hnodup id group hget) id).mp hsafe
  · intro h
    refine ⟨fun id group hget => ⟨_, get?_postGroups.mpr ⟨group, hget, rfl⟩, ?_⟩,
      fun k => mem_unreferencedEvictedKeys⟩
    rw [evictedIn_createTabPolicyPlan hget]
    exact (evictsSafelyFrom_iff (hnodup id group hget) id).mpr (h id group hget)

/-- One group of clean or dirty tabs with a preview, and a limit of one tab. -/
def previewParams (dirtyPreview : Bool) : CreateTabPolicyPlanParams where
  workspaceInstanceId := "ws"
  nextPolicyRaw := { defaultWorkspaceTabPolicyV3 with limitPerLeaf := 1 }.toJson
  currentPolicy := none
  baseLayoutRevision := 0
  currentGroups := .ofEntries [("g",
    { openOrder := ["a", "b"], pinnedKeys := [], previewKey := some "a", activeKey := some "b" })]
  openFiles := .ofEntries [("a", ⟨dirtyPreview⟩), ("b", ⟨false⟩)]
  mruFileKeys := ["b", "a"]
  allowDirtyCandidates := true

theorem previewParams_groups {dirtyPreview : Bool} {id : String} {group : TabPolicyGroup}
    (h : (previewParams dirtyPreview).currentGroups.get? id = some group) :
    group = ⟨["a", "b"], [], some "a", some "b"⟩ := by
  obtain ⟨-, rfl⟩ := Prod.mk.inj (mem_singleton.mp (mem_of_get?_ofEntries h))
  rfl

theorem createTabPolicyPlan_safe_cleanPreview :
    EvictsSafely (previewParams false) (createTabPolicyPlan 0 (previewParams false)) :=
  (createTabPolicyPlan_safe_iff 0 (previewParams false)
    fun _ _ h => (previewParams_groups h).symm ▸ by decide).mpr fun _ _ h =>
      (previewParams_groups h).symm ▸
        ⟨fun _ hp _ hdirty => absurd (Option.some.inj hp ▸ hdirty) (by decide),
          fun h => absurd h (by decide)⟩

/-- The dirty preview goes and the clean tab stays. -/
theorem dirty_preview_evicted_first :
    (∀ id group, (previewParams true).currentGroups.get? id = some group → group.openOrder.Nodup) ∧
      (createTabPolicyPlan 0 (previewParams true)).evictedIn "g" = ["a"] ∧
      ¬EvictsSafely (previewParams true) (createTabPolicyPlan 0 (previewParams true)) := by
  have hevicted : (createTabPolicyPlan 0 (previewParams true)).evictedIn "g" = ["a"] := by
    decide +kernel
  refine ⟨fun _ _ h => (previewParams_groups h).symm ▸ by decide, hevicted, fun h => ?_⟩
  obtain ⟨post, -, hsafe⟩ := h.group "g" _ rfl
  rw [hevicted] at hsafe
  have hclean := (hsafe.order "a" (by decide) "b" (by decide) (by decide)).2 (by decide)
  exact absurd hclean (by decide)

/-!
# Recency of evicted tabs

Reference: `components/editor/workspace/tabPolicy/planning.ts`.

The recency of a tab is computed from its index in `mruFileKeys`. A tab that is not listed there has the
index `-1`, which makes it the most recent tab of all.
-/

/-- Of two tabs alike in preview and unsaved changes, the one that a plan evicts was not used after the
one that it keeps. -/
def EvictsLeastRecent (params : CreateTabPolicyPlanParams) (plan : TabPolicyPlan) : Prop :=
  ∀ id group, params.currentGroups.get? id = some group →
    ∀ e ∈ plan.evictedIn id, ∀ k ∈ evictableTabs params group, k ∉ plan.evictedIn id →
      params.openFiles.dirty e = params.openFiles.dirty k →
        (group.previewKey = some e ↔ group.previewKey = some k) →
          (k ∈ params.mruFileKeys ∧ params.mruFileKeys.idxOf k < params.mruFileKeys.idxOf e) ∨
            e ∉ params.mruFileKeys

section Group

variable (params : CreateTabPolicyPlanParams) (group : TabPolicyGroup)

/-- The class of a tab of the group. -/
def tabClass (k : String) : ℕ := (tabMeta params group k).evictionClass

/-- The evictable tabs of a class that are in `mruFileKeys`. -/
def listedTabs (i : ℕ) : List String :=
  (evictableTabs params group).filter fun k => tabClass params group k = i ∧ k ∈ params.mruFileKeys

/-- The evictable tabs of a class that are not, from the right to the left. -/
def unlistedTabs (i : ℕ) : List String :=
  (evictableTabs params group).filter fun k => tabClass params group k = i ∧ k ∉ params.mruFileKeys

/-- How many evictions are left for a class after the classes before it. -/
def evictionsLeft (i : ℕ) : ℕ :=
  overflow params group - ((evictableTabs params group).filter fun k => tabClass params group k < i).length

/-- No eviction is left for the class, or it has no listed tab, or its unlisted tabs go as well. -/
def UnlistedGoToo (i : ℕ) : Prop :=
  evictionsLeft params group i = 0 ∨ listedTabs params group i = [] ∨
    ∀ k ∈ unlistedTabs params group i, k ∈ (unlistedTabs params group i).take
      (evictionsLeft params group i - (listedTabs params group i).length)

variable {params group}

theorem indexOf_of_mem {xs : List String} {x : String} (h : x ∈ xs) : indexOf xs x = xs.idxOf x := by
  obtain ⟨i, hi⟩ := Option.isSome_iff_exists.mp (List.isSome_idxOf?.mpr h)
  rw [indexOf, hi, idxOf_eq_getD_idxOf?, hi]
  rfl

theorem indexOf_of_not_mem {xs : List String} {x : String} (h : x ∉ xs) : indexOf xs x = -1 := by
  rw [indexOf, List.idxOf?_eq_none_iff.mpr h]
  rfl

/-- Within a class the order is by recency. -/
theorem lastUsedAt_le {a b : String} (h : EvictLe params group a b)
    (hclass : tabClass params group a = tabClass params group b) :
    indexOf params.mruFileKeys b ≤ indexOf params.mruFileKeys a := by
  rcases evictLe_iff.mp h with hlt | ⟨-, hle⟩
  · exact absurd hclass hlt.ne
  · rw [tabMeta, tabMeta] at hle
    dsimp only at hle
    omega

/-- Tabs that are not listed come after the listed ones of their class. -/
theorem pairwise_listed (params : CreateTabPolicyPlanParams) (group : TabPolicyGroup) (i : ℕ) :
    ((evictionOrder params group).filter fun k => tabClass params group k = i).Pairwise
      fun a b => (if a ∈ params.mruFileKeys then 0 else 1) ≤
        if b ∈ params.mruFileKeys then 0 else 1 := by
  refine ((pairwise_evictionOrder params group).filter _).imp_of_mem fun {a b} ha hb hle => ?_
  have hclass : tabClass params group a = tabClass params group b :=
    (of_decide_eq_true (mem_filter.mp ha).2).trans
      (of_decide_eq_true (mem_filter.mp hb).2).symm
  have hindex := lastUsedAt_le hle hclass
  by_cases hmem : a ∈ params.mruFileKeys
  · rw [if_pos hmem]
    exact Nat.zero_le _
  · rw [indexOf_of_not_mem hmem] at hindex
    have hnot : b ∉ params.mruFileKeys := fun hb => by
      rw [indexOf_of_mem hb] at hindex
      omega
    rw [if_neg hmem, if_neg hnot]

/-- What is evicted of one class. -/
theorem evicted_of_class (i : ℕ) :
    ((groupEviction params group).keys.filter fun k => tabClass params group k = i) =
      ((evictionOrder params group).filter fun k => tabClass params group k = i).take
        (evictionsLeft params group i) := by
  have hsorted : (evictionOrder params group).Pairwise fun a b =>
      tabClass params group a ≤ tabClass params group b :=
    (pairwise_evictionOrder params group).imp evictionClass_le_of_evictLe
  have hperm := (perm_insertionSort (EvictLe params group) (evictableTabs params group)).filter
    fun k => tabClass params group k < i
  rw [groupEviction_keys, filter_take_of_sorted hsorted, evictionsLeft, ← hperm.length_eq]
  rfl

/-- The unlisted tabs stay in the order from the right to the left. -/
theorem filter_unlisted_eq (i : ℕ) :
    ((evictionOrder params group).filter fun k => tabClass params group k = i).filter
        (fun k => (if k ∈ params.mruFileKeys then 0 else 1) = 1) = unlistedTabs params group i := by
  have hsame (a b : String) (ha : tabClass params group a = i ∧ a ∉ params.mruFileKeys)
      (hb : tabClass params group b = i ∧ b ∉ params.mruFileKeys) : EvictLe params group a b := by
    refine evictLe_iff.mpr (.inr ⟨ha.1.trans hb.1.symm, ?_⟩)
    rw [tabMeta, tabMeta]
    dsimp only
    rw [indexOf_of_not_mem ha.2, indexOf_of_not_mem hb.2]
  rw [filter_filter, unlistedTabs, evictionOrder,
    ← filter_insertionSort (EvictLe params group) _ (evictableTabs params group) fun a b ha hb =>
      hsame a b (of_decide_eq_true ha) (of_decide_eq_true hb)]
  refine filter_congr fun k _ => ?_
  by_cases hk : k ∈ params.mruFileKeys <;> simp [hk]

theorem length_filter_listed (i : ℕ) :
    (((evictionOrder params group).filter fun k => tabClass params group k = i).filter
        fun k => (if k ∈ params.mruFileKeys then 0 else 1) < 1).length
      = (listedTabs params group i).length := by
  have hperm := (perm_insertionSort (EvictLe params group) (evictableTabs params group)).filter
    fun k => tabClass params group k = i ∧ k ∈ params.mruFileKeys
  rw [listedTabs, ← hperm.length_eq, filter_filter, evictionOrder]
  congr 1
  refine filter_congr fun k _ => ?_
  by_cases hk : k ∈ params.mruFileKeys <;> simp [hk]

/-- Which tabs that are not listed are evicted. -/
theorem unlisted_evicted_iff {i : ℕ} (hk : k ∈ unlistedTabs params group i) :
    k ∈ (groupEviction params group).keys ↔ k ∈ (unlistedTabs params group i).take
      (evictionsLeft params group i - (listedTabs params group i).length) := by
  obtain ⟨hclass, hnot⟩ := of_decide_eq_true (mem_filter.mp hk).2
  have hfront := filter_take_of_sorted (pairwise_listed params group i) 1
    (evictionsLeft params group i)
  rw [filter_unlisted_eq, length_filter_listed, ← evicted_of_class] at hfront
  rw [← hfront, mem_filter, mem_filter]
  simp [hclass, hnot]

theorem mem_listedTabs {i : ℕ} : k ∈ listedTabs params group i ↔ k ∈ evictableTabs params group ∧
      tabClass params group k = i ∧ k ∈ params.mruFileKeys := by
  rw [listedTabs, mem_filter, decide_eq_true_eq]

theorem mem_unlistedTabs {i : ℕ} : k ∈ unlistedTabs params group i ↔ k ∈ evictableTabs params group ∧
      tabClass params group k = i ∧ k ∉ params.mruFileKeys := by
  rw [unlistedTabs, mem_filter, decide_eq_true_eq]

theorem mem_class_iff {i : ℕ} :
    k ∈ ((evictionOrder params group).filter fun k => tabClass params group k = i) ↔
      k ∈ evictableTabs params group ∧ tabClass params group k = i := by
  rw [mem_filter, decide_eq_true_eq, evictionOrder, mem_insertionSort]

/-- A listed tab of a class goes as soon as any tab of the class does. -/
theorem exists_listed_evicted_iff (i : ℕ) : (∃ e ∈ (groupEviction params group).keys,
        tabClass params group e = i ∧ e ∈ params.mruFileKeys) ↔
      evictionsLeft params group i ≠ 0 ∧ listedTabs params group i ≠ [] := by
  have hevicted (e : String) : e ∈ (groupEviction params group).keys ∧ tabClass params group e = i ↔
      e ∈ ((evictionOrder params group).filter fun k => tabClass params group k = i).take
        (evictionsLeft params group i) := by
    rw [← evicted_of_class, mem_filter, decide_eq_true_eq]
  constructor
  · rintro ⟨e, he, hclass, hlisted⟩
    have hmem := (hevicted e).mp ⟨he, hclass⟩
    refine ⟨fun hzero => ?_, ne_nil_of_mem (mem_listedTabs.mpr
      ⟨(mem_class_iff.mp (mem_of_mem_take hmem)).1, hclass, hlisted⟩)⟩
    rw [hzero, take_zero] at hmem
    exact not_mem_nil hmem
  · rintro ⟨hleft, hne⟩
    obtain ⟨k, hk⟩ := exists_mem_of_ne_nil _ hne
    obtain ⟨hevictable, hclass, hlisted⟩ := mem_listedTabs.mp hk
    have hkmem := mem_class_iff.mpr ⟨hevictable, hclass⟩
    have hsorted := pairwise_listed params group i
    obtain ⟨m, hm⟩ := Nat.exists_eq_succ_of_ne_zero hleft
    rw [hm] at hevicted
    cases hlist : (evictionOrder params group).filter fun k => tabClass params group k = i with
    | nil => exact absurd (hlist ▸ hkmem) not_mem_nil
    | cons e rest =>
      rw [hlist] at hkmem hsorted hevicted
      have hfirst : e ∈ params.mruFileKeys := by
        rcases mem_cons.mp hkmem with rfl | hkmem
        · exact hlisted
        · have hle := (List.pairwise_cons.mp hsorted).1 k hkmem
          by_contra hnot
          rw [if_neg hnot, if_pos hlisted] at hle
          exact Nat.not_succ_le_zero 0 hle
      obtain ⟨he, hclass⟩ := (hevicted e).mpr (by rw [take_succ_cons]; exact mem_cons_self)
      exact ⟨e, he, hclass, hfirst⟩

theorem tabClass_eq_iff {a b : String} : tabClass params group a = tabClass params group b ↔
      params.openFiles.dirty a = params.openFiles.dirty b ∧
        (group.previewKey = some a ↔ group.previewKey = some b) := by
  rw [tabClass, tabClass, TabEvictionMeta.evictionClass_eq_iff, tabMeta, tabMeta, decide_eq_decide]

end Group

/-- A plan evicts the least recent tabs exactly when it leaves no tab out of `mruFileKeys` in a class where
it evicts a listed one. -/
theorem createTabPolicyPlan_leastRecent_iff (now : ℕ) (params : CreateTabPolicyPlanParams) :
    EvictsLeastRecent params (createTabPolicyPlan now params) ↔
      ∀ id group, params.currentGroups.get? id = some group → ∀ i, UnlistedGoToo params group i := by
  constructor
  · intro h id group hget i
    have hrecent := h id group hget
    rw [evictedIn_createTabPolicyPlan hget] at hrecent
    rw [UnlistedGoToo, or_iff_not_imp_left, or_iff_not_imp_left]
    intro hleft hlisted k hk
    obtain ⟨hevictable, hclass, hnot⟩ := mem_unlistedTabs.mp hk
    obtain ⟨e, he, heclass, helisted⟩ := (exists_listed_evicted_iff i).mpr ⟨hleft, hlisted⟩
    by_contra hkept
    obtain ⟨hdirty, hpreview⟩ := tabClass_eq_iff.mp (heclass.trans hclass.symm)
    rcases hrecent e he k hevictable (mt (unlisted_evicted_iff hk).mp hkept) hdirty hpreview
      with hk | he
    · exact hnot hk.1
    · exact he helisted
  · intro h id group hget e he k hk hkept hdirty hpreview
    rw [evictedIn_createTabPolicyPlan hget] at he hkept
    have hclass := tabClass_eq_iff.mpr ⟨hdirty, hpreview⟩
    by_cases hlisted : e ∈ params.mruFileKeys
    swap
    · exact .inr hlisted
    left
    by_cases hklisted : k ∈ params.mruFileKeys
    · -- among listed tabs the order is the one of the list
      refine ⟨hklisted, ?_⟩
      have hindex := lastUsedAt_le (evictLe_of_kept he hk hkept) hclass
      rw [indexOf_of_mem hlisted, indexOf_of_mem hklisted] at hindex
      refine lt_of_le_of_ne (Int.ofNat_le.mp hindex) fun heq => hkept ?_
      exact (idxOf_inj hklisted).mp heq ▸ he
    · obtain ⟨hleft, hne⟩ := (exists_listed_evicted_iff (tabClass params group e)).mp
        ⟨e, he, rfl, hlisted⟩
      have hmem := mem_unlistedTabs.mpr ⟨hk, hclass.symm, hklisted⟩
      have hgoes := ((h id group hget (tabClass params group e)).resolve_left hleft).resolve_left hne
      exact absurd ((unlisted_evicted_iff hmem).mpr (hgoes k hmem)) hkept

/-- One group of two clean tabs, of which one was used before, and a limit of one tab. -/
def oneUsedParams : CreateTabPolicyPlanParams where
  workspaceInstanceId := "ws"
  nextPolicyRaw := { defaultWorkspaceTabPolicyV3 with limitPerLeaf := 1 }.toJson
  currentPolicy := none
  baseLayoutRevision := 0
  currentGroups := .ofEntries [("g",
    { openOrder := ["used", "new"], pinnedKeys := [], previewKey := none, activeKey := some "used" })]
  openFiles := .ofEntries [("used", ⟨false⟩), ("new", ⟨false⟩)]
  mruFileKeys := ["used"]
  allowDirtyCandidates := false

/-- The tab in use goes and the one that was never activated stays. -/
theorem used_tab_evicted : (createTabPolicyPlan 0 oneUsedParams).evictedIn "g" = ["used"] ∧
      ¬EvictsLeastRecent oneUsedParams (createTabPolicyPlan 0 oneUsedParams) := by
  have hevicted : (createTabPolicyPlan 0 oneUsedParams).evictedIn "g" = ["used"] := by
    decide +kernel
  refine ⟨hevicted, fun h => ?_⟩
  have hrecent := h "g" _ rfl
  rw [hevicted] at hrecent
  rcases hrecent "used" (by decide) "new" (by decide) (by decide) (by decide) (by decide)
    with hnew | hused
  · exact absurd hnew.1 (by decide)
  · exact hused (by decide)

end Taomni.TabPolicy
