import Taomni.Merge.ThreeWay

/-!
# The two sides of a merge

Reference: `components/editor/workspace/threeWayMerge.ts`.

The cluster loop reads the local hunks first. Touching survives growth, so the cluster is the least one
that is closed on both sides, and no order of reading shows in it.
-/

namespace Taomni.Merge

open List

section Lines

variable {α : Type*} [DecidableEq α]

/-! ## Closed clusters -/

/-- The first hunks of a side that end inside the cluster, and a next one that does not touch it. -/
structure Closed (clusterStart clusterEnd : ℕ) (hunks taken rest : List (LineHunk α)) : Prop where
  eq_append : hunks = taken ++ rest
  stop_le : ∀ h ∈ taken, h.stop ≤ clusterEnd
  next : ∀ h ∈ rest.head?, hunkTouchesCluster h clusterStart clusterEnd = false

omit [DecidableEq α] in
/-- The inner loop takes no hunk beyond a closed cluster. -/
theorem takeTouching_closed {clusterStart clusterEnd n : ℕ} {hunks taken rest : List (LineHunk α)}
    (h : Closed clusterStart n hunks taken rest) (hle : clusterEnd ≤ n) :
    let t := takeTouching clusterStart clusterEnd hunks
    t.2.1 ≤ n ∧ ∃ more, taken = t.1 ++ more ∧ Closed clusterStart n t.2.2 more rest := by
  induction hunks generalizing clusterEnd taken with
  | nil => exact ⟨hle, taken, rfl, h⟩
  | cons hunk hunks ih =>
    rw [takeTouching]
    split
    · rename_i htouches
      have htouches' := hunkTouchesCluster_mono hle htouches
      obtain ⟨heq, hstop, hnext⟩ := h
      cases taken with
      | nil =>
        rw [nil_append] at heq
        rw [← heq] at hnext
        have hnot := hnext hunk rfl
        rw [htouches'] at hnot
        cases hnot
      | cons first taken =>
        rw [cons_append, List.cons.injEq] at heq
        obtain ⟨rfl, heq⟩ := heq
        obtain ⟨hfirst, hstop⟩ := forall_mem_cons.mp hstop
        obtain ⟨hend, more, rfl, hclosed⟩ := ih ⟨heq, hstop, hnext⟩ (max_le hle hfirst)
        exact ⟨hend, more, rfl, hclosed⟩
    · exact ⟨hle, taken, rfl, h⟩

omit [DecidableEq α] in
/-- A cluster grows inside every closed one. -/
theorem growCluster_closed (clusterStart clusterEnd : ℕ)
    (localCluster diskCluster localHunks diskHunks : List (LineHunk α)) {n : ℕ}
    {takenLocal restLocal takenDisk restDisk : List (LineHunk α)}
    (hlocal : Closed clusterStart n localHunks takenLocal restLocal)
    (hdisk : Closed clusterStart n diskHunks takenDisk restDisk) (hle : clusterEnd ≤ n) :
    let c := growCluster clusterStart clusterEnd localCluster diskCluster localHunks diskHunks
    c.stop ≤ n ∧ c.localCluster <+: localCluster ++ takenLocal ∧
      c.diskCluster <+: diskCluster ++ takenDisk := by
  fun_induction growCluster clusterStart clusterEnd localCluster diskCluster localHunks diskHunks
      generalizing takenLocal takenDisk with
  | case1 => exact ⟨hle, prefix_append _ _, prefix_append _ _⟩
  | case2 clusterEnd localCluster diskCluster localHunks diskHunks =>
    rename_i ih
    obtain ⟨hend, more, hmore, hlocal⟩ := takeTouching_closed hlocal hle
    obtain ⟨hend', more', hmore', hdisk⟩ := takeTouching_closed hdisk hend
    rw [hmore, hmore', ← append_assoc, ← append_assoc]
    exact ih hlocal hdisk hend'

omit [DecidableEq α] in
theorem Cluster.Grown.closed {clusterStart clusterEnd : ℕ} {localHunks diskHunks : List (LineHunk α)}
    {c : Cluster α} {takenLocal takenDisk : List (LineHunk α)}
    (h : Cluster.Grown clusterStart clusterEnd [] [] localHunks diskHunks c takenLocal takenDisk) :
    Closed clusterStart c.stop localHunks c.localCluster c.localHunks ∧
      Closed clusterStart c.stop diskHunks c.diskCluster c.diskHunks := by
  rw [h.localCluster_eq, h.diskCluster_eq]
  exact ⟨⟨h.localHunks_eq, h.local_stop, h.local_next⟩, h.diskHunks_eq, h.disk_stop, h.disk_next⟩

/-- The cluster with the sides exchanged. -/
def Cluster.exchange (c : Cluster α) : Cluster α :=
  { c with
    localCluster := c.diskCluster
    diskCluster := c.localCluster
    localHunks := c.diskHunks
    diskHunks := c.localHunks }

omit [DecidableEq α] in
/-- Two clusters that are closed for one another are the same. -/
private theorem closed_unique {clusterStart : ℕ} {hunks taken rest taken' rest' : List (LineHunk α)}
    {n n' : ℕ} (h : Closed clusterStart n hunks taken rest)
    (h' : Closed clusterStart n' hunks taken' rest') (hle : taken <+: taken')
    (hle' : taken' <+: taken) : taken = taken' ∧ rest = rest' := by
  have htaken := hle.eq_of_length_le hle'.length_le
  refine ⟨htaken, ?_⟩
  have happend := h.eq_append.symm.trans h'.eq_append
  rw [htaken] at happend
  exact append_cancel_left happend

omit [DecidableEq α] in
/-- The cluster does not depend on the side that is read first. -/
theorem growCluster_exchange (position : ℕ) (localHunks diskHunks : List (LineHunk α)) :
    growCluster position position [] [] diskHunks localHunks =
      (growCluster position position [] [] localHunks diskHunks).exchange := by
  obtain ⟨_, _, hgrown⟩ := growCluster_grown position position [] [] localHunks diskHunks
  obtain ⟨_, _, hgrown'⟩ := growCluster_grown position position [] [] diskHunks localHunks
  obtain ⟨hlocal, hdisk⟩ := hgrown.closed
  obtain ⟨hdisk', hlocal'⟩ := hgrown'.closed
  obtain ⟨hstop, hl, hd⟩ :=
    growCluster_closed position position [] [] localHunks diskHunks hlocal' hdisk' hgrown'.le_stop
  obtain ⟨hstop', hd', hl'⟩ :=
    growCluster_closed position position [] [] diskHunks localHunks hdisk hlocal hgrown.le_stop
  generalize growCluster position position [] [] localHunks diskHunks = c at *
  generalize growCluster position position [] [] diskHunks localHunks = c' at *
  obtain ⟨hlTaken, hlRest⟩ := closed_unique hlocal hlocal' hl hl'
  obtain ⟨hdTaken, hdRest⟩ := closed_unique hdisk hdisk' hd hd'
  cases c
  cases c'
  obtain rfl := Nat.le_antisymm hstop hstop'
  subst hlTaken hlRest hdTaken hdRest
  rfl

/-! ## Exchanging the sides -/

def MergeSegment.exchange (segment : MergeSegment α) : MergeSegment α :=
  { segment with localLines := segment.diskLines, diskLines := segment.localLines }

omit [DecidableEq α] in
theorem nextStart_exchange (localHunks diskHunks : List (LineHunk α)) :
    nextStart diskHunks localHunks = nextStart localHunks diskHunks := by
  cases localHunks with
  | nil => cases diskHunks <;> rfl
  | cons l ls =>
    cases diskHunks with
    | nil => rfl
    | cons d ds => exact congrArg some (min_comm _ _)

omit [DecidableEq α] in
theorem mergeSegments_exchange (base : List α) (localHunks diskHunks : List (LineHunk α))
    (basePosition : ℕ) : mergeSegments base diskHunks localHunks basePosition =
      (mergeSegments base localHunks diskHunks basePosition).map MergeSegment.exchange := by
  fun_induction mergeSegments base localHunks diskHunks basePosition with
  | case1 localHunks diskHunks basePosition hnone =>
    rw [mergeSegments_none ((nextStart_exchange localHunks diskHunks).trans hnone)]
    rfl
  | case2 localHunks diskHunks basePosition next hnext clusterStart cluster ih =>
    rw [mergeSegments_some ((nextStart_exchange localHunks diskHunks).trans hnext)]
    dsimp only
    rw [growCluster_exchange, map_cons, map_cons, ← ih]
    rfl

namespace MergeSegment

omit [DecidableEq α] in
theorem isConflict_exchange (segment : MergeSegment α) :
    segment.exchange.IsConflict ↔ segment.IsConflict := by
  unfold IsConflict exchange
  rw [ne_comm, and_comm (a := segment.diskLines ≠ segment.base)]

/-- Outside of a conflict the sides may be exchanged. -/
theorem diff3_exchange (markers : Markers α) {segment : MergeSegment α}
    (h : ¬segment.IsConflict) : segment.exchange.diff3 markers = segment.diff3 markers := by
  unfold IsConflict at h
  unfold diff3 exchange
  dsimp only
  by_cases hsame : segment.localLines = segment.diskLines
  · rw [if_pos (.inl hsame.symm), if_pos (.inl hsame), hsame]
  · have hone : segment.localLines = segment.base ∨ segment.diskLines = segment.base := by
      by_contra hboth
      exact h ⟨hsame, not_or.mp hboth⟩
    rcases hone with hlocal | hdisk
    · have hdisk : segment.diskLines ≠ segment.base := fun hdisk => hsame (hlocal.trans hdisk.symm)
      rw [if_pos (.inr hlocal), if_neg (not_or.mpr ⟨hsame, hdisk⟩), if_pos hlocal]
    · have hlocal : segment.localLines ≠ segment.base := fun hlocal => hsame (hlocal.trans hdisk.symm)
      rw [if_neg (not_or.mpr ⟨fun h => hsame h.symm, hlocal⟩), if_pos hdisk, if_pos (.inr hdisk)]

/-- A conflict block with the lines of both sides exchanged. -/
theorem diff3_exchange_conflict (markers : Markers α) {segment : MergeSegment α}
    (h : segment.IsConflict) : segment.diff3 markers =
        markers.localMark :: segment.localLines ++ markers.baseMark :: segment.base
          ++ markers.separator :: segment.diskLines ++ [markers.diskMark] ∧
      segment.exchange.diff3 markers =
        markers.localMark :: segment.diskLines ++ markers.baseMark :: segment.base
          ++ markers.separator :: segment.localLines ++ [markers.diskMark] := by
  obtain ⟨hsame, hlocal, hdisk⟩ := h
  unfold diff3 exchange
  dsimp only
  rw [if_neg (not_or.mpr ⟨hsame, hdisk⟩), if_neg hlocal,
    if_neg (not_or.mpr ⟨hsame.symm, hlocal⟩), if_neg hdisk]
  exact ⟨rfl, rfl⟩

end MergeSegment

end Lines

/-! ## The merge of three texts -/

theorem threeWaySegments_exchange (baseText localText diskText : JsString) :
    threeWaySegments baseText diskText localText =
      (threeWaySegments baseText localText diskText).map MergeSegment.exchange := by
  have hcond : (diskText = localText ∨ diskText = baseText ∨ localText = baseText) ↔
      (localText = diskText ∨ localText = baseText ∨ diskText = baseText) := by
    rw [eq_comm (a := diskText), or_comm (a := diskText = baseText)]
  unfold threeWaySegments
  rw [if_congr hcond rfl rfl]
  split
  · rfl
  · exact mergeSegments_exchange _ _ _ 0

/-- Exchanging the sides exchanges them in every conflict block and changes nothing else. -/
theorem threeWayMergeText_exchange (baseText localText diskText : JsString) :
    let result := threeWayMergeText baseText localText diskText
    let result' := threeWayMergeText baseText diskText localText
    result'.conflicts = result.conflicts ∧ result'.autoMerged = result.autoMerged ∧
      (result.conflicts = 0 → result'.text = result.text) ∧
      ∃ segments, IsDiff3 baseText localText diskText result segments ∧
        IsDiff3 baseText diskText localText result' (segments.map MergeSegment.exchange) ∧
        ∀ segment ∈ segments,
          (¬segment.IsConflict →
            segment.exchange.diff3 conflictMarkers = segment.diff3 conflictMarkers) ∧
          (segment.IsConflict →
            segment.diff3 conflictMarkers =
                conflictMarkers.localMark :: segment.localLines
                  ++ conflictMarkers.baseMark :: segment.base
                  ++ conflictMarkers.separator :: segment.diskLines ++ [conflictMarkers.diskMark] ∧
              segment.exchange.diff3 conflictMarkers =
                conflictMarkers.localMark :: segment.diskLines
                  ++ conflictMarkers.baseMark :: segment.base
                  ++ conflictMarkers.separator :: segment.localLines
                  ++ [conflictMarkers.diskMark]) := by
  intro result result'
  have hdiff : IsDiff3 baseText localText diskText result _ :=
    isDiff3_threeWaySegments baseText localText diskText
  have hdiff' : IsDiff3 baseText diskText localText result' _ :=
    isDiff3_threeWaySegments baseText diskText localText
  rw [threeWaySegments_exchange] at hdiff'
  generalize threeWaySegments baseText localText diskText = segments at hdiff hdiff'
  have hconflicts : result'.conflicts = result.conflicts := by
    rw [hdiff'.conflicts, hdiff.conflicts, countP_map]
    exact countP_congr fun segment _ => by
      simp only [Function.comp_apply, decide_eq_true_eq, MergeSegment.isConflict_exchange]
  have hauto : result'.autoMerged = result.autoMerged := by
    rw [Bool.eq_iff_iff, hdiff'.autoMerged, hdiff.autoMerged, forall_mem_map]
    exact forall₂_congr fun segment _ => not_congr segment.isConflict_exchange
  refine ⟨hconflicts, hauto, fun hnone => ?_, segments, hdiff, hdiff', fun segment _ =>
    ⟨segment.diff3_exchange conflictMarkers, segment.diff3_exchange_conflict conflictMarkers⟩⟩
  rw [hdiff.conflicts, countP_eq_zero] at hnone
  rw [hdiff'.text, hdiff.text, flatMap_map]
  refine congrArg JsString.joinLines (flatMap_congr fun segment hsegment => ?_)
  exact segment.diff3_exchange conflictMarkers fun h => hnone segment hsegment (decide_eq_true h)

end Taomni.Merge
