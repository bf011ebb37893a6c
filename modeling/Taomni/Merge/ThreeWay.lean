import Taomni.Common.Splice
import Taomni.Common.Utf16

/-!
# Line diff

Reference: `components/editor/workspace/threeWayMerge.ts`, `lineHunks`.

The diff walks a table of longest common subsequences and collects the steps between equal lines into
hunks. Whatever the table says, the hunks are ordered and turn the base into the variant.
-/

namespace Taomni.Merge

open List

variable {α : Type*} [DecidableEq α]

/-- A `LineHunk`: `end` is `stop` and `replacement` is `insert`. -/
abbrev LineHunk (α : Type*) := Splice α

/-- Above this many lines the diff is one hunk for the whole file. -/
def maxDiffLines : ℕ := 1600

/-! ## The table -/

/-- The row of one base line, from the row below it; both are indexed by the variant line. -/
def lcsRow (x : α) : List α → List ℕ → List ℕ
  | [], _ => [0]
  | y :: ys, next =>
      let row := lcsRow x ys next.tail
      (if x = y then next.tail.headD 0 + 1 else max (next.headD 0) (row.headD 0)) :: row

/-- `lcs[i][j]` for every base line `i` and variant line `j`, and one past either end. -/
def lcsTable (base variant : List α) : List (List ℕ) :=
  base.foldr (fun x rows => lcsRow x variant (rows.headD []) :: rows)
    [List.replicate (variant.length + 1) 0]

/-- `lcs[i]?.[j] ?? 0`. -/
def lcsAt (table : List (List ℕ)) (i j : ℕ) : ℕ := (table.getD i []).getD j 0

/-! ## The walk -/

inductive Operation (α : Type*) where
  | equal (line : α)
  | delete
  | insert (line : α)
deriving DecidableEq, Repr

/-- The operations from base line `i` and variant line `j` on; the lists are what is left. -/
def walk (lcs : ℕ → ℕ → ℕ) : List α → List α → ℕ → ℕ → List (Operation α)
  | [], [], _, _ => []
  | [], y :: ys, i, j => .insert y :: walk lcs [] ys i (j + 1)
  | _ :: xs, [], i, j => .delete :: walk lcs xs [] (i + 1) j
  | x :: xs, y :: ys, i, j =>
      if x = y then .equal x :: walk lcs xs ys (i + 1) (j + 1)
      else if lcs i (j + 1) ≤ lcs (i + 1) j then .delete :: walk lcs xs (y :: ys) (i + 1) j
      else .insert y :: walk lcs (x :: xs) ys i (j + 1)
termination_by xs ys => xs.length + ys.length

/-- `flush`: the hunk under construction, if there is one. -/
def flush (baseIndex : ℕ) (activeStart : Option ℕ) (replacement : List α) : List (LineHunk α) :=
  activeStart.toList.map fun start => { start, stop := baseIndex, insert := replacement }

/-- Collect the operations between equal lines into hunks. -/
def collectHunks : List (Operation α) → ℕ → Option ℕ → List α → List (LineHunk α)
  | [], baseIndex, activeStart, replacement => flush baseIndex activeStart replacement
  | .equal _ :: ops, baseIndex, activeStart, replacement =>
      flush baseIndex activeStart replacement ++ collectHunks ops (baseIndex + 1) none []
  | .delete :: ops, baseIndex, activeStart, replacement =>
      collectHunks ops (baseIndex + 1) (some (activeStart.getD baseIndex)) replacement
  | .insert line :: ops, baseIndex, activeStart, replacement =>
      collectHunks ops baseIndex (some (activeStart.getD baseIndex)) (replacement ++ [line])

/-- The hunks that turn `base` into `variant`. -/
def lineHunks (base variant : List α) : List (LineHunk α) :=
  if base = variant then []
  else if maxDiffLines < base.length ∨ maxDiffLines < variant.length then
    [{ start := 0, stop := base.length, insert := variant }]
  else collectHunks (walk (lcsAt (lcsTable base variant)) base variant 0 0) 0 none []

/-! ## What the hunks do -/

/-- The operations consume the first list and produce the second. -/
inductive EditScript : List (Operation α) → List α → List α → Prop
  | done : EditScript [] [] []
  | equal {ops : List (Operation α)} {xs ys : List α} (line : α) (h : EditScript ops xs ys) :
      EditScript (.equal line :: ops) (line :: xs) (line :: ys)
  | delete {ops : List (Operation α)} {xs ys : List α} (line : α) (h : EditScript ops xs ys) :
      EditScript (.delete :: ops) (line :: xs) ys
  | insert {ops : List (Operation α)} {xs ys : List α} (line : α) (h : EditScript ops xs ys) :
      EditScript (.insert line :: ops) xs (line :: ys)

/-- Any walk is an edit script, whichever way the table sends it. -/
theorem editScript_walk (lcs : ℕ → ℕ → ℕ) (xs ys : List α) (i j : ℕ) :
    EditScript (walk lcs xs ys i j) xs ys := by
  fun_induction walk lcs xs ys i j with
  | case1 => exact .done
  | case2 y ys i j ih => exact .insert y ih
  | case3 x xs i j ih => exact .delete x ih
  | case4 xs y ys i j ih => exact .equal y ih
  | case5 x xs y ys i j _ _ ih => exact .delete x ih
  | case6 x xs y ys i j _ _ ih => exact .insert y ih

omit [DecidableEq α] in
/-- With `xs` left of the base and a hunk open since `activeStart`, the collected hunks replace the
rest of the base by the open replacement and what the operations produce. -/
theorem collectHunks_spec {base : List α} {ops : List (Operation α)} {xs ys : List α}
    (h : EditScript ops xs ys) : ∀ (baseIndex : ℕ) (activeStart : Option ℕ) (replacement : List α),
      base.drop baseIndex = xs → baseIndex + xs.length = base.length →
      activeStart.getD baseIndex ≤ baseIndex → (activeStart = none → replacement = []) →
      Ordered (activeStart.getD baseIndex) base.length
          (collectHunks ops baseIndex activeStart replacement) ∧
        applySplices base (activeStart.getD baseIndex) base.length
          (collectHunks ops baseIndex activeStart replacement) = replacement ++ ys := by
  induction h with
  | done =>
    intro b active rep hdrop hlen hle hrep
    have hb : slice base b base.length = [] := by rw [slice_length, hdrop]
    have hend : b ≤ base.length := by simpa using hlen.le
    cases active with
    | none =>
      rw [hrep rfl]
      exact ⟨hend, hb⟩
    | some start =>
      refine ⟨⟨le_refl start, hle, hend⟩, ?_⟩
      simp [flush, collectHunks, applySplices, hb]
  | @equal ops xs ys line h ih =>
    intro b active rep hdrop hlen hle hrep
    rw [length_cons] at hlen
    obtain ⟨hordered, happly⟩ := ih (b + 1) none [] (by rw [← drop_drop, hdrop]; rfl)
      (by omega) le_rfl fun _ => rfl
    have hline : slice base b (b + 1) = [line] := by rw [slice, hdrop]; simp
    -- the equal line closes the open hunk, whose range ends before it
    have hskip : Ordered b base.length (collectHunks ops (b + 1) none []) ∧
        applySplices base b base.length (collectHunks ops (b + 1) none []) = line :: ys :=
      ⟨hordered.mono (by simp), by
        rw [applySplices_skip base (Nat.le_succ b) hordered, hline]
        exact congrArg _ happly⟩
    cases active with
    | none =>
      rw [hrep rfl]
      exact hskip
    | some start =>
      refine ⟨⟨le_refl start, hle, hskip.1⟩, ?_⟩
      simp only [collectHunks, flush, Option.toList_some, map_cons, map_nil,
        cons_append, nil_append, Option.getD_some, applySplices, slice_self, hskip.2]
  | @delete ops xs ys line h ih =>
    intro b active rep hdrop hlen hle hrep
    rw [length_cons] at hlen
    have hdrop' : base.drop (b + 1) = xs := by rw [← drop_drop, hdrop]; rfl
    exact ih (b + 1) (some (active.getD b)) rep hdrop' (by omega) (by simpa using by omega)
      (by simp)
  | @insert ops xs ys line h ih =>
    intro b active rep hdrop hlen hle hrep
    have hinsert := ih b (some (active.getD b)) (rep ++ [line]) hdrop hlen hle (by simp)
    rw [append_assoc] at hinsert
    exact hinsert

theorem lineHunks_spec (base variant : List α) : Ordered 0 base.length (lineHunks base variant) ∧
      applySplices base 0 base.length (lineHunks base variant) = variant := by
  rw [lineHunks]
  split
  · next heq =>
    subst heq
    exact ⟨Nat.zero_le _, slice_length base 0⟩
  split
  · refine ⟨⟨le_rfl, Nat.zero_le _, le_refl base.length⟩, ?_⟩
    simp [applySplices]
  · exact collectHunks_spec (editScript_walk _ base variant 0 0) 0 none [] rfl (by simp) le_rfl
      fun _ => rfl

end Taomni.Merge

/-!
# Three-way merge

Reference: `components/editor/workspace/threeWayMerge.ts`.

Hunks of both sides that touch are gathered into clusters; between clusters the base is copied. A
cluster is resolved from its three segments. `threeWayMergeText_diff3` reads the result as a
partition of the three texts into aligned segments, each resolved on its own.
-/

namespace Taomni.Merge

open List

section Lines

variable {α : Type*} [DecidableEq α]

/-! ## Clusters -/

/-- `hunkTouchesCluster`: an insertion exactly after a replacement is adjacent, not overlapping;
insertions at the same point belong together. -/
def hunkTouchesCluster (hunk : LineHunk α) (clusterStart clusterEnd : ℕ) : Bool :=
  hunk.start < clusterEnd ||
    (hunk.start = clusterEnd && (clusterStart = clusterEnd || hunk.start < hunk.stop))

/-- Either inner loop: the leading hunks that touch, the new end and the hunks left. -/
def takeTouching (clusterStart : ℕ) :
    ℕ → List (LineHunk α) → List (LineHunk α) × ℕ × List (LineHunk α)
  | clusterEnd, [] => ([], clusterEnd, [])
  | clusterEnd, hunk :: rest =>
      if hunkTouchesCluster hunk clusterStart clusterEnd then
        let (taken, clusterEnd, rest) := takeTouching clusterStart (max clusterEnd hunk.stop) rest
        (hunk :: taken, clusterEnd, rest)
      else ([], clusterEnd, hunk :: rest)

structure Cluster (α : Type*) where
  stop : ℕ
  localCluster : List (LineHunk α)
  diskCluster : List (LineHunk α)
  localHunks : List (LineHunk α)
  diskHunks : List (LineHunk α)

omit [DecidableEq α] in
/-- What the inner loop takes is the front of the list, up to the end it reports, and it stops at a
hunk that does not touch. -/
theorem takeTouching_spec (clusterStart clusterEnd : ℕ) (hunks : List (LineHunk α)) :
    let taken := takeTouching clusterStart clusterEnd hunks
    taken.1 ++ taken.2.2 = hunks ∧ clusterEnd ≤ taken.2.1 ∧ (∀ t ∈ taken.1, t.stop ≤ taken.2.1) ∧
      (∀ n, clusterEnd ≤ n → (∀ t ∈ hunks, t.stop ≤ n) → taken.2.1 ≤ n) ∧
      (taken.1 = [] → taken.2.1 = clusterEnd) ∧
      ∀ h ∈ taken.2.2.head?, hunkTouchesCluster h clusterStart taken.2.1 = false := by
  induction hunks generalizing clusterEnd with
  | nil => simp [takeTouching]
  | cons hunk rest ih =>
    rw [takeTouching]
    split
    · obtain ⟨happend, hle, hstop, hbound, -, hhead⟩ := ih (max clusterEnd hunk.stop)
      refine ⟨congrArg _ happend, (le_max_left _ _).trans hle, ?_, ?_, by simp, hhead⟩
      · exact forall_mem_cons.mpr ⟨(le_max_right _ _).trans hle, hstop⟩
      · intro n hn hall
        obtain ⟨hfirst, hall⟩ := forall_mem_cons.mp hall
        exact hbound n (max_le hn hfirst) hall
    · next hnot =>
      refine ⟨rfl, le_rfl, by simp, fun n hn _ => hn, fun _ => rfl, ?_⟩
      rintro h ⟨⟩
      exact Bool.eq_false_iff.mpr hnot

omit [DecidableEq α] in
theorem length_takeTouching (clusterStart clusterEnd : ℕ) (hunks : List (LineHunk α)) :
    (takeTouching clusterStart clusterEnd hunks).1.length
      + (takeTouching clusterStart clusterEnd hunks).2.2.length = hunks.length := by
  rw [← length_append, (takeTouching_spec clusterStart clusterEnd hunks).1]

/-- The alternating loop: take touching hunks from both sides until neither side has any. -/
def growCluster (clusterStart clusterEnd : ℕ)
    (localCluster diskCluster localHunks diskHunks : List (LineHunk α)) : Cluster α :=
  let takenLocal := takeTouching clusterStart clusterEnd localHunks
  let takenDisk := takeTouching clusterStart takenLocal.2.1 diskHunks
  if takenLocal.1 = [] ∧ takenDisk.1 = [] then
    { stop := clusterEnd, localCluster, diskCluster, localHunks, diskHunks }
  else
    growCluster clusterStart takenDisk.2.1 (localCluster ++ takenLocal.1)
      (diskCluster ++ takenDisk.1) takenLocal.2.2 takenDisk.2.2
termination_by localHunks.length + diskHunks.length
decreasing_by
  have hlocal : takenLocal.1.length + takenLocal.2.2.length = localHunks.length :=
    length_takeTouching _ _ _
  have hdisk : takenDisk.1.length + takenDisk.2.2.length = diskHunks.length :=
    length_takeTouching _ _ _
  have hsome : 0 < takenLocal.1.length + takenDisk.1.length := by
    by_contra hzero
    have : takenLocal.1.length = 0 ∧ takenDisk.1.length = 0 := by omega
    exact ‹¬(takenLocal.1 = [] ∧ takenDisk.1 = [])›
      ⟨length_eq_zero_iff.mp this.1, length_eq_zero_iff.mp this.2⟩
  show takenLocal.2.2.length + takenDisk.2.2.length < _
  omega

omit [DecidableEq α] in
/-- Touching survives the growth of the cluster. -/
theorem hunkTouchesCluster_mono {hunk : LineHunk α} {clusterStart e e' : ℕ} (he : e ≤ e')
    (h : hunkTouchesCluster hunk clusterStart e = true) :
    hunkTouchesCluster hunk clusterStart e' = true := by
  simp only [hunkTouchesCluster, Bool.or_eq_true, Bool.and_eq_true, decide_eq_true_eq] at h ⊢
  omega

/-- A grown cluster: the hunks it took come first on their sides and end inside it, and the next
hunk on either side does not touch it. -/
structure Cluster.Grown (clusterStart clusterEnd : ℕ)
    (localCluster diskCluster localHunks diskHunks : List (LineHunk α)) (c : Cluster α)
    (takenLocal takenDisk : List (LineHunk α)) : Prop where
  localCluster_eq : c.localCluster = localCluster ++ takenLocal
  diskCluster_eq : c.diskCluster = diskCluster ++ takenDisk
  localHunks_eq : localHunks = takenLocal ++ c.localHunks
  diskHunks_eq : diskHunks = takenDisk ++ c.diskHunks
  le_stop : clusterEnd ≤ c.stop
  stop_le : ∀ n, clusterEnd ≤ n → (∀ h ∈ localHunks, h.stop ≤ n) → (∀ h ∈ diskHunks, h.stop ≤ n) →
    c.stop ≤ n
  local_stop : ∀ h ∈ takenLocal, h.stop ≤ c.stop
  disk_stop : ∀ h ∈ takenDisk, h.stop ≤ c.stop
  local_next : ∀ h ∈ c.localHunks.head?, hunkTouchesCluster h clusterStart c.stop = false
  disk_next : ∀ h ∈ c.diskHunks.head?, hunkTouchesCluster h clusterStart c.stop = false

omit [DecidableEq α] in
theorem growCluster_grown (clusterStart clusterEnd : ℕ)
    (localCluster diskCluster localHunks diskHunks : List (LineHunk α)) :
    ∃ takenLocal takenDisk, Cluster.Grown clusterStart clusterEnd localCluster diskCluster localHunks
      diskHunks (growCluster clusterStart clusterEnd localCluster diskCluster localHunks diskHunks)
      takenLocal takenDisk := by
  fun_induction growCluster clusterStart clusterEnd localCluster diskCluster localHunks diskHunks with
  | case1 clusterEnd localCluster diskCluster localHunks diskHunks takenLocal takenDisk hnone =>
    obtain ⟨hlAppend, -, -, -, hlEnd, hlHead⟩ :=
      takeTouching_spec clusterStart clusterEnd localHunks
    obtain ⟨hdAppend, -, -, -, hdEnd, hdHead⟩ :=
      takeTouching_spec clusterStart takenLocal.2.1 diskHunks
    obtain ⟨hl, hd⟩ := hnone
    have hle : takenLocal.2.1 = clusterEnd := hlEnd hl
    have hde : takenDisk.2.1 = clusterEnd := (hdEnd hd).trans hle
    have hlRest : takenLocal.2.2 = localHunks := by
      rw [← hlAppend]
      exact (congrArg (· ++ takenLocal.2.2) hl).symm
    have hdRest : takenDisk.2.2 = diskHunks := by
      rw [← hdAppend]
      exact (congrArg (· ++ takenDisk.2.2) hd).symm
    refine ⟨[], [], ⟨(append_nil _).symm, (append_nil _).symm, rfl, rfl, le_rfl,
      fun n hn _ _ => hn, by simp, by simp, fun h hh => ?_, fun h hh => ?_⟩⟩
    · rw [← hlRest] at hh
      exact hle ▸ hlHead h hh
    · rw [← hdRest] at hh
      exact hde ▸ hdHead h hh
  | case2 clusterEnd localCluster diskCluster localHunks diskHunks takenLocal takenDisk hsome ih =>
    obtain ⟨hlAppend, hlLe, hlStop, hlBound, -⟩ :=
      takeTouching_spec clusterStart clusterEnd localHunks
    obtain ⟨hdAppend, hdLe, hdStop, hdBound, -⟩ :=
      takeTouching_spec clusterStart takenLocal.2.1 diskHunks
    obtain ⟨tl, td, hgrown⟩ := ih
    refine ⟨takenLocal.1 ++ tl, takenDisk.1 ++ td, ⟨?_, ?_, ?_, ?_, ?_, ?_, ?_, ?_,
      hgrown.local_next, hgrown.disk_next⟩⟩
    · rw [hgrown.localCluster_eq, append_assoc]
    · rw [hgrown.diskCluster_eq, append_assoc]
    · rw [append_assoc, ← hgrown.localHunks_eq]
      exact hlAppend.symm
    · rw [append_assoc, ← hgrown.diskHunks_eq]
      exact hdAppend.symm
    · exact (hlLe.trans hdLe).trans hgrown.le_stop
    · intro n hn hl hd
      have hlEnd := hlBound n hn hl
      refine hgrown.stop_le n (hdBound n hlEnd hd) (fun h hh => hl h ?_) fun h hh => hd h ?_
      · rw [← hlAppend]
        exact mem_append_right _ hh
      · rw [← hdAppend]
        exact mem_append_right _ hh
    · intro h hh
      rcases mem_append.mp hh with hh | hh
      · exact ((hlStop h hh).trans hdLe).trans hgrown.le_stop
      · exact hgrown.local_stop h hh
    · intro h hh
      rcases mem_append.mp hh with hh | hh
      · exact (hdStop h hh).trans hgrown.le_stop
      · exact hgrown.disk_stop h hh

/-! ## Segments -/

/-- `applyHunks`: the window with the hunks of one side applied. -/
def applyHunks (base : List α) (start stop : ℕ) (hunks : List (LineHunk α)) : List α :=
  go start hunks
where
  go (cursor : ℕ) : List (LineHunk α) → List α
    | [] => if cursor < stop then slice base cursor stop else []
    | hunk :: rest =>
        (if cursor < hunk.start then slice base cursor hunk.start else []) ++ hunk.insert
          ++ go (max cursor hunk.stop) rest

omit [DecidableEq α] in
/-- On ordered hunks this is the splicing of the window. -/
theorem applyHunks_eq (base : List α) {start stop : ℕ} {hunks : List (LineHunk α)}
    (h : Ordered start stop hunks) :
    applyHunks base start stop hunks = applySplices base start stop hunks := by
  rw [applyHunks]
  induction hunks generalizing start with
  | nil =>
    rw [applyHunks.go, applySplices]
    split
    · rfl
    · next hle =>
      obtain rfl : start = stop := Nat.le_antisymm h (not_lt.mp hle)
      rw [slice_self]
  | cons hunk rest ih =>
    rw [applyHunks.go, applySplices, max_eq_right (h.1.trans h.2.1), ih h.2.2]
    split
    · rfl
    · next hle =>
      obtain heq : start = hunk.start := Nat.le_antisymm h.1 (not_lt.mp hle)
      rw [heq, slice_self]

/-- One aligned part of the three texts. -/
structure MergeSegment (α : Type*) where
  base : List α
  localLines : List α
  diskLines : List α

/-- The lines around the three versions of a conflict. -/
structure Markers (α : Type*) where
  localMark : α
  baseMark : α
  separator : α
  diskMark : α

namespace MergeSegment

/-- Both sides changed the segment, to different lines. -/
def IsConflict (segment : MergeSegment α) : Prop :=
  segment.localLines ≠ segment.diskLines ∧ segment.localLines ≠ segment.base ∧
    segment.diskLines ≠ segment.base

instance (segment : MergeSegment α) : Decidable segment.IsConflict :=
  inferInstanceAs (Decidable (_ ∧ _ ∧ _))

/-- The lines a segment contributes to the output. -/
def resolve (markers : Markers α) (segment : MergeSegment α) : List α :=
  if segment.localLines = segment.diskLines then segment.localLines
  else if segment.localLines = segment.base then segment.diskLines
  else if segment.diskLines = segment.base then segment.localLines
  else
    [markers.localMark] ++ segment.localLines ++ [markers.baseMark] ++ segment.base
      ++ [markers.separator] ++ segment.diskLines ++ [markers.diskMark]

end MergeSegment

/-! ## The merge loop -/

/-- `Math.min(nextLocal, nextDisk)`, none when both sides are exhausted. -/
def nextStart : List (LineHunk α) → List (LineHunk α) → Option ℕ
  | [], [] => none
  | l :: _, [] => some l.start
  | [], d :: _ => some d.start
  | l :: _, d :: _ => some (min l.start d.start)

omit [DecidableEq α] in
/-- The next start is that of a leading hunk. -/
theorem nextStart_eq_some {localHunks diskHunks : List (LineHunk α)} {next : ℕ}
    (h : nextStart localHunks diskHunks = some next) :
    (∃ hunk, (hunk ∈ localHunks.head? ∨ hunk ∈ diskHunks.head?) ∧ hunk.start = next) ∧
      (∀ hunk ∈ localHunks.head?, next ≤ hunk.start) ∧ ∀ hunk ∈ diskHunks.head?, next ≤ hunk.start := by
  rcases localHunks with _ | ⟨l, ls⟩ <;> rcases diskHunks with _ | ⟨d, ds⟩
  · cases h
  · obtain rfl := Option.some.inj h
    exact ⟨⟨d, by simp⟩, by simp, by simp⟩
  · obtain rfl := Option.some.inj h
    exact ⟨⟨l, by simp⟩, by simp, by simp⟩
  · obtain rfl := Option.some.inj h
    refine ⟨?_, ?_, ?_⟩
    · rcases le_total l.start d.start with hle | hle
      · exact ⟨l, .inl rfl, (min_eq_left hle).symm⟩
      · exact ⟨d, .inr rfl, (min_eq_right hle).symm⟩
    · rintro hunk ⟨⟩
      exact min_le_left _ _
    · rintro hunk ⟨⟩
      exact min_le_right _ _

omit [DecidableEq α] in
/-- A cluster that starts at the next hunk takes at least that hunk. -/
theorem length_growCluster_lt {localHunks diskHunks : List (LineHunk α)} {position next : ℕ}
    (h : nextStart localHunks diskHunks = some next) (hle : next ≤ position) :
    (growCluster position position [] [] localHunks diskHunks).localHunks.length
      + (growCluster position position [] [] localHunks diskHunks).diskHunks.length
      < localHunks.length + diskHunks.length := by
  obtain ⟨⟨hunk, hhead, hstart⟩, -⟩ := nextStart_eq_some h
  obtain ⟨takenLocal, takenDisk, hgrown⟩ := growCluster_grown position position [] [] localHunks
    diskHunks
  have htouch : hunkTouchesCluster hunk position position = true := by
    rcases lt_or_eq_of_le (hstart.le.trans hle) with hlt | heq
    · simp [hunkTouchesCluster, hlt]
    · simp [hunkTouchesCluster, heq]
  have htouch := hunkTouchesCluster_mono hgrown.le_stop htouch
  have hl := congrArg List.length hgrown.localHunks_eq
  have hd := congrArg List.length hgrown.diskHunks_eq
  rw [length_append] at hl hd
  -- were nothing taken, the touching hunk would still lead its side
  have hsome : 0 < takenLocal.length + takenDisk.length := by
    by_contra hzero
    obtain rfl : takenLocal = [] := length_eq_zero_iff.mp (by omega)
    obtain rfl : takenDisk = [] := length_eq_zero_iff.mp (by omega)
    have hlEq := hgrown.localHunks_eq
    have hdEq := hgrown.diskHunks_eq
    rw [nil_append] at hlEq hdEq
    rcases hhead with hhead | hhead
    · have := hgrown.local_next hunk (hlEq ▸ hhead)
      rw [htouch] at this
      cases this
    · have := hgrown.disk_next hunk (hdEq ▸ hhead)
      rw [htouch] at this
      cases this
  omega

/-- The main loop from `basePosition` on: the output lines and the number of conflicts. -/
def mergeHunks (markers : Markers α) (base : List α) (localHunks diskHunks : List (LineHunk α))
    (basePosition : ℕ) : List α × ℕ :=
  match h : nextStart localHunks diskHunks with
  | none => (if basePosition < base.length then base.drop basePosition else [], 0)
  | some next =>
      let unchanged := if basePosition < next then slice base basePosition next else []
      let clusterStart := max basePosition next
      let cluster := growCluster clusterStart clusterStart [] [] localHunks diskHunks
      let segment : MergeSegment α :=
        { base := slice base clusterStart cluster.stop
          localLines := applyHunks base clusterStart cluster.stop cluster.localCluster
          diskLines := applyHunks base clusterStart cluster.stop cluster.diskCluster }
      let rest := mergeHunks markers base cluster.localHunks cluster.diskHunks cluster.stop
      (unchanged ++ segment.resolve markers ++ rest.1,
        (if segment.IsConflict then 1 else 0) + rest.2)
termination_by localHunks.length + diskHunks.length
decreasing_by exact length_growCluster_lt h (le_max_right _ _)

/-! ## The segments -/

/-- Lines that both sides leave alone form a segment of their own. -/
def MergeSegment.same (lines : List α) : MergeSegment α := ⟨lines, lines, lines⟩

/-- The segments that the loop goes through from `basePosition` on. -/
def mergeSegments (base : List α) (localHunks diskHunks : List (LineHunk α)) (basePosition : ℕ) :
    List (MergeSegment α) :=
  match _ : nextStart localHunks diskHunks with
  | none => [.same (base.drop basePosition)]
  | some next =>
      let clusterStart := max basePosition next
      let cluster := growCluster clusterStart clusterStart [] [] localHunks diskHunks
      .same (slice base basePosition clusterStart) ::
        { base := slice base clusterStart cluster.stop
          localLines := applyHunks base clusterStart cluster.stop cluster.localCluster
          diskLines := applyHunks base clusterStart cluster.stop cluster.diskCluster } ::
        mergeSegments base cluster.localHunks cluster.diskHunks cluster.stop
termination_by localHunks.length + diskHunks.length
decreasing_by exact length_growCluster_lt ‹_› (le_max_right _ _)

omit [DecidableEq α] in
theorem mergeSegments_none {base : List α} {localHunks diskHunks : List (LineHunk α)}
    {basePosition : ℕ} (h : nextStart localHunks diskHunks = none) :
    mergeSegments base localHunks diskHunks basePosition = [.same (base.drop basePosition)] := by
  rw [mergeSegments]
  split
  · rfl
  · next hnext => cases h.symm.trans hnext

omit [DecidableEq α] in
theorem mergeSegments_some {base : List α} {localHunks diskHunks : List (LineHunk α)}
    {basePosition next : ℕ} (h : nextStart localHunks diskHunks = some next) :
    mergeSegments base localHunks diskHunks basePosition = let clusterStart := max basePosition next
      let cluster := growCluster clusterStart clusterStart [] [] localHunks diskHunks
      .same (slice base basePosition clusterStart) ::
        { base := slice base clusterStart cluster.stop
          localLines := applyHunks base clusterStart cluster.stop cluster.localCluster
          diskLines := applyHunks base clusterStart cluster.stop cluster.diskCluster } ::
        mergeSegments base cluster.localHunks cluster.diskHunks cluster.stop := by
  rw [mergeSegments]
  split
  · next hnone => cases h.symm.trans hnone
  · next next' hnext =>
    obtain rfl := Option.some.inj (h.symm.trans hnext)
    rfl

/-- A partition of the base from `basePosition` on and of what each side makes of it. -/
structure Segmented (markers : Markers α) (base localLines diskLines : List α)
    (result : List α × ℕ) (segments : List (MergeSegment α)) : Prop where
  base : segments.flatMap MergeSegment.base = base
  localLines : segments.flatMap MergeSegment.localLines = localLines
  diskLines : segments.flatMap MergeSegment.diskLines = diskLines
  output : result.1 = segments.flatMap (MergeSegment.resolve markers)
  conflicts : result.2 = segments.countP fun segment => segment.IsConflict

variable (markers : Markers α)

theorem Segmented.nil : Segmented markers [] [] [] ([], 0) [] :=
  ⟨rfl, rfl, rfl, rfl, rfl⟩

/-- Put one more segment in front. -/
theorem Segmented.cons {markers : Markers α} {base localLines diskLines : List α}
    {result : List α × ℕ} {segments : List (MergeSegment α)}
    (h : Segmented markers base localLines diskLines result segments) (segment : MergeSegment α) :
    Segmented markers (segment.base ++ base) (segment.localLines ++ localLines)
      (segment.diskLines ++ diskLines)
      (segment.resolve markers ++ result.1, (if segment.IsConflict then 1 else 0) + result.2)
      (segment :: segments) where
  base := by rw [flatMap_cons, h.base]
  localLines := by rw [flatMap_cons, h.localLines]
  diskLines := by rw [flatMap_cons, h.diskLines]
  output := by rw [flatMap_cons, h.output]
  conflicts := by
    rw [countP_cons, h.conflicts, Nat.add_comm]
    simp

theorem MergeSegment.resolve_same (lines : List α) :
    (MergeSegment.same lines).resolve markers = lines := by
  rw [MergeSegment.resolve, MergeSegment.same, if_pos rfl]

omit [DecidableEq α] in
theorem MergeSegment.not_isConflict_same (lines : List α) :
    ¬ (MergeSegment.same lines).IsConflict := fun h => h.1 rfl

omit [DecidableEq α] in
/-- A hunk that does not touch a cluster starts at its end or later. -/
theorem le_start_of_not_touches {hunk : LineHunk α} {clusterStart clusterEnd : ℕ}
    (h : hunkTouchesCluster hunk clusterStart clusterEnd = false) : clusterEnd ≤ hunk.start := by
  rw [hunkTouchesCluster, Bool.or_eq_false_iff] at h
  exact not_lt.mp (of_decide_eq_false h.1)

omit [DecidableEq α] in
/-- A grown cluster cuts each side at its end. -/
theorem Cluster.Grown.ordered {position n : ℕ} {localHunks diskHunks : List (LineHunk α)}
    {c : Cluster α} {takenLocal takenDisk : List (LineHunk α)}
    (h : Cluster.Grown position position [] [] localHunks diskHunks c takenLocal takenDisk)
    (hl : Ordered position n localHunks) (hd : Ordered position n diskHunks) :
    (Ordered position c.stop c.localCluster ∧ Ordered c.stop n c.localHunks ∧
      localHunks = c.localCluster ++ c.localHunks) ∧
    (Ordered position c.stop c.diskCluster ∧ Ordered c.stop n c.diskHunks ∧
      diskHunks = c.diskCluster ++ c.diskHunks) := by
  have hstop := h.stop_le n hl.le hl.stop_le hd.stop_le
  have hlc : c.localCluster = takenLocal := h.localCluster_eq
  have hdc : c.diskCluster = takenDisk := h.diskCluster_eq
  have hlCut := (h.localHunks_eq ▸ hl).of_append h.le_stop hstop h.local_stop
    fun t ht => le_start_of_not_touches (h.local_next t ht)
  have hdCut := (h.diskHunks_eq ▸ hd).of_append h.le_stop hstop h.disk_stop
    fun t ht => le_start_of_not_touches (h.disk_next t ht)
  rw [hlc, hdc]
  exact ⟨⟨hlCut.1, hlCut.2, h.localHunks_eq⟩, hdCut.1, hdCut.2, h.diskHunks_eq⟩

omit [DecidableEq α] in
theorem nextStart_eq_none {localHunks diskHunks : List (LineHunk α)}
    (h : nextStart localHunks diskHunks = none) : localHunks = [] ∧ diskHunks = [] := by
  rcases localHunks with _ | ⟨l, ls⟩ <;> rcases diskHunks with _ | ⟨d, ds⟩
  · exact ⟨rfl, rfl⟩
  all_goals cases h

omit [DecidableEq α] in
/-- The first hunk of an ordered side starts in the window. -/
theorem start_mem_window {p n : ℕ} {hunks : List (LineHunk α)} (h : Ordered p n hunks)
    {hunk : LineHunk α} (hmem : hunk ∈ hunks.head?) : p ≤ hunk.start ∧ hunk.start ≤ n := by
  rcases hunks with _ | ⟨first, rest⟩
  · cases hmem
  · obtain rfl := Option.some.inj hmem
    exact ⟨h.1, h.2.1.trans h.2.2.le⟩

omit [DecidableEq α] in
/-- The next start lies in the window, and both sides are ordered from there on. -/
theorem ordered_nextStart {p n next : ℕ} {localHunks diskHunks : List (LineHunk α)}
    (hl : Ordered p n localHunks) (hd : Ordered p n diskHunks)
    (hnext : nextStart localHunks diskHunks = some next) :
    p ≤ next ∧ Ordered next n localHunks ∧ Ordered next n diskHunks := by
  obtain ⟨⟨hunk, hhead, rfl⟩, hlNext, hdNext⟩ := nextStart_eq_some hnext
  obtain ⟨hp, hn⟩ := hhead.elim (start_mem_window hl) (start_mem_window hd)
  exact ⟨hp, hl.mono_left hn hlNext, hd.mono_left hn hdNext⟩

/-- The loop resolves a partition of what is left of the base. -/
theorem mergeHunks_segmented (base : List α)
    (localHunks diskHunks : List (LineHunk α)) (basePosition : ℕ)
    (hl : Ordered basePosition base.length localHunks)
    (hd : Ordered basePosition base.length diskHunks) : Segmented markers (base.drop basePosition)
      (applySplices base basePosition base.length localHunks)
      (applySplices base basePosition base.length diskHunks)
      (mergeHunks markers base localHunks diskHunks basePosition)
      (mergeSegments base localHunks diskHunks basePosition) := by
  fun_induction mergeHunks markers base localHunks diskHunks basePosition with
  | case1 localHunks diskHunks basePosition hnone =>
    rw [mergeSegments_none hnone]
    obtain ⟨rfl, rfl⟩ := nextStart_eq_none hnone
    have hdrop : (if basePosition < base.length then base.drop basePosition else [])
        = base.drop basePosition := by
      split
      · rfl
      · next hle => exact (drop_of_length_le (not_lt.mp hle)).symm
    have hlast := (Segmented.nil markers).cons (.same (base.drop basePosition))
    rw [MergeSegment.resolve_same, if_neg (MergeSegment.not_isConflict_same _)] at hlast
    rw [applySplices, slice_length, hdrop]
    simp only [append_nil, MergeSegment.same] at hlast
    exact hlast
  | case2 localHunks diskHunks basePosition next hnext unchanged clusterStart cluster segment rest
      ih =>
    obtain ⟨hle, hlNext, hdNext⟩ := ordered_nextStart hl hd hnext
    have hstart : clusterStart = next := max_eq_right hle
    have hunchanged : unchanged = slice base basePosition clusterStart := by
      rw [hstart]
      show (if _ then _ else _) = _
      split
      · rfl
      · next hge => rw [Nat.le_antisymm hle (not_lt.mp hge), slice_self]
    rw [← hstart] at hle hlNext hdNext
    obtain ⟨takenLocal, takenDisk, hgrown⟩ := growCluster_grown clusterStart clusterStart [] []
      localHunks diskHunks
    obtain ⟨⟨hlIn, hlOut, hlEq⟩, hdIn, hdOut, hdEq⟩ := hgrown.ordered hlNext hdNext
    have hrest := ih hlOut hdOut
    rw [mergeSegments_some hnext]
    -- the window is cut at the start and at the end of the cluster
    have hlocal : applySplices base basePosition base.length localHunks
        = slice base basePosition clusterStart ++ (segment.localLines
          ++ applySplices base cluster.stop base.length cluster.localHunks) := by
      rw [applySplices_skip base hle hlNext, hlEq, applySplices_append base hlIn hlOut,
        ← applyHunks_eq base hlIn]
    have hdisk : applySplices base basePosition base.length diskHunks
        = slice base basePosition clusterStart ++ (segment.diskLines
          ++ applySplices base cluster.stop base.length cluster.diskHunks) := by
      rw [applySplices_skip base hle hdNext, hdEq, applySplices_append base hdIn hdOut,
        ← applyHunks_eq base hdIn]
    have hbase : base.drop basePosition
        = slice base basePosition clusterStart ++ (segment.base ++ base.drop cluster.stop) := by
      rw [← slice_length, ← slice_length, slice_append base hgrown.le_stop hlOut.le,
        slice_append base hle hlNext.le]
    have hall := (hrest.cons segment).cons (.same (slice base basePosition clusterStart))
    rw [MergeSegment.resolve_same, if_neg (MergeSegment.not_isConflict_same _),
      Nat.zero_add] at hall
    rw [hlocal, hdisk, hbase, hunchanged, append_assoc]
    exact hall

namespace MergeSegment

/-- The diff3 rule: a side that agrees with the other one or stands against an unchanged one wins,
anything else is a conflict block. -/
def diff3 (markers : Markers α) (segment : MergeSegment α) : List α :=
  if segment.localLines = segment.diskLines ∨ segment.diskLines = segment.base then
    segment.localLines
  else if segment.localLines = segment.base then segment.diskLines
  else
    markers.localMark :: segment.localLines ++ markers.baseMark :: segment.base
      ++ markers.separator :: segment.diskLines ++ [markers.diskMark]

theorem resolve_eq_diff3 (segment : MergeSegment α) :
    segment.resolve markers = segment.diff3 markers := by
  rw [resolve, diff3]
  by_cases hboth : segment.localLines = segment.diskLines
  · rw [if_pos hboth, if_pos (.inl hboth)]
  by_cases hdisk : segment.diskLines = segment.base
  · have hlocal : segment.localLines ≠ segment.base := fun h => hboth (h.trans hdisk.symm)
    rw [if_neg hboth, if_neg hlocal, if_pos hdisk, if_pos (.inr hdisk)]
  · rw [if_neg hboth, if_neg (not_or.mpr ⟨hboth, hdisk⟩), if_neg hdisk]
    simp

/-- What either side made of a segment it changed is in the output. -/
theorem infix_diff3 (segment : MergeSegment α) :
    (segment.localLines = segment.base ∨ segment.localLines <:+: segment.diff3 markers) ∧
      (segment.diskLines = segment.base ∨ segment.diskLines <:+: segment.diff3 markers) := by
  rw [diff3]
  split
  · next h =>
    refine ⟨.inr (infix_refl _), ?_⟩
    rcases h with h | h
    · exact .inr (h ▸ infix_refl _)
    · exact .inl h
  split
  · next h => exact ⟨.inl h, .inr (infix_refl _)⟩
  · refine ⟨.inr ⟨[markers.localMark], markers.baseMark :: segment.base
        ++ markers.separator :: segment.diskLines ++ [markers.diskMark], ?_⟩,
      .inr ⟨markers.localMark :: segment.localLines ++ markers.baseMark :: segment.base
        ++ [markers.separator], [markers.diskMark], ?_⟩⟩ <;>
    simp

end MergeSegment

end Lines

/-! ## The merge of three texts -/

structure ThreeWayMergeResult where
  text : JsString
  conflicts : ℕ
  autoMerged : Bool
deriving DecidableEq, Repr

def conflictMarkers : Markers JsString where
  localMark := .ascii "<<<<<<< LOCAL"
  baseMark := .ascii "||||||| BASE"
  separator := .ascii "======="
  diskMark := .ascii ">>>>>>> DISK"

/-- `threeWayMergeText`. -/
def threeWayMergeText (baseText localText diskText : JsString) : ThreeWayMergeResult :=
  if localText = diskText then { text := localText, conflicts := 0, autoMerged := true }
  else if localText = baseText then { text := diskText, conflicts := 0, autoMerged := true }
  else if diskText = baseText then { text := localText, conflicts := 0, autoMerged := true }
  else
    let base := baseText.splitLines
    let localHunks := lineHunks base localText.splitLines
    let diskHunks := lineHunks base diskText.splitLines
    let (output, conflicts) := mergeHunks conflictMarkers base localHunks diskHunks 0
    { text := JsString.joinLines output, conflicts, autoMerged := conflicts = 0 }

/-- `segments` cuts the three texts into aligned parts, and the result is what the diff3 rule makes
of each part. -/
structure IsDiff3 (baseText localText diskText : JsString) (result : ThreeWayMergeResult)
    (segments : List (MergeSegment JsString)) : Prop where
  base : segments.flatMap MergeSegment.base = baseText.splitLines
  localLines : segments.flatMap MergeSegment.localLines = localText.splitLines
  diskLines : segments.flatMap MergeSegment.diskLines = diskText.splitLines
  text : result.text = JsString.joinLines (segments.flatMap (MergeSegment.diff3 conflictMarkers))
  conflicts : result.conflicts = segments.countP fun segment => segment.IsConflict
  autoMerged : result.autoMerged = true ↔ ∀ segment ∈ segments, ¬ segment.IsConflict

/-- A fast path: the texts as one part that is no conflict. -/
private theorem isDiff3_single {baseText localText diskText text : JsString}
    (hconflict : ¬ MergeSegment.IsConflict
      ⟨baseText.splitLines, localText.splitLines, diskText.splitLines⟩)
    (htext : MergeSegment.diff3 conflictMarkers
      ⟨baseText.splitLines, localText.splitLines, diskText.splitLines⟩ = text.splitLines) :
    IsDiff3 baseText localText diskText { text, conflicts := 0, autoMerged := true }
      [⟨baseText.splitLines, localText.splitLines, diskText.splitLines⟩] where
  base := flatMap_singleton _ _
  localLines := flatMap_singleton _ _
  diskLines := flatMap_singleton _ _
  text := by rw [flatMap_singleton, htext, JsString.joinLines_splitLines]
  conflicts := by simp [hconflict]
  autoMerged := by simpa using hconflict

/-- The segments of a merge: the whole texts when a side can be taken. -/
def threeWaySegments (baseText localText diskText : JsString) : List (MergeSegment JsString) :=
  if localText = diskText ∨ localText = baseText ∨ diskText = baseText then
    [⟨baseText.splitLines, localText.splitLines, diskText.splitLines⟩]
  else
    mergeSegments baseText.splitLines (lineHunks baseText.splitLines localText.splitLines)
      (lineHunks baseText.splitLines diskText.splitLines) 0

theorem isDiff3_threeWaySegments (baseText localText diskText : JsString) :
    IsDiff3 baseText localText diskText (threeWayMergeText baseText localText diskText)
      (threeWaySegments baseText localText diskText) := by
  rw [threeWayMergeText, threeWaySegments]
  split
  · next h =>
    subst h
    rw [if_pos (.inl rfl)]
    exact isDiff3_single (fun h => h.1 rfl) (if_pos (.inl rfl))
  next hsame =>
  split
  · next h =>
    subst h
    rw [if_pos (.inr (.inl rfl))]
    refine isDiff3_single (fun h => h.2.1 rfl) ?_
    rw [← MergeSegment.resolve_eq_diff3, MergeSegment.resolve]
    split
    · next h => exact h
    · exact if_pos rfl
  next hlocal =>
  split
  · next h =>
    subst h
    rw [if_pos (.inr (.inr rfl))]
    exact isDiff3_single (fun h => h.2.2 rfl) (if_pos (.inr rfl))
  · next hdisk =>
    rw [if_neg (not_or.mpr ⟨hsame, not_or.mpr ⟨hlocal, hdisk⟩⟩)]
    obtain ⟨hlOrdered, hlApply⟩ := lineHunks_spec baseText.splitLines localText.splitLines
    obtain ⟨hdOrdered, hdApply⟩ := lineHunks_spec baseText.splitLines diskText.splitLines
    have hsegments := mergeHunks_segmented conflictMarkers _ _ _ 0 hlOrdered hdOrdered
    rw [hlApply, hdApply, drop_zero] at hsegments
    refine ⟨hsegments.base, hsegments.localLines, hsegments.diskLines, ?_,
      hsegments.conflicts, ?_⟩
    · show JsString.joinLines _ = _
      rw [hsegments.output, funext (MergeSegment.resolve_eq_diff3 conflictMarkers)]
    · show decide (_ = 0) = true ↔ _
      rw [hsegments.conflicts, decide_eq_true_iff, countP_eq_zero]
      simp

/-- The merge is a diff3: its output is the resolution of a partition of the three texts into
aligned segments, the conflicts are the segments that both sides changed differently, and every
change of either side is in the output. -/
theorem threeWayMergeText_diff3 (baseText localText diskText : JsString) :
    ∃ segments, IsDiff3 baseText localText diskText
        (threeWayMergeText baseText localText diskText) segments ∧ ∀ segment ∈ segments,
        (segment.localLines = segment.base ∨ segment.localLines <:+: segment.diff3 conflictMarkers) ∧
        (segment.diskLines = segment.base ∨ segment.diskLines <:+: segment.diff3 conflictMarkers) :=
  ⟨_, isDiff3_threeWaySegments baseText localText diskText,
    fun segment _ => segment.infix_diff3 conflictMarkers⟩

end Taomni.Merge
