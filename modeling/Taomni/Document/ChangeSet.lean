import Taomni.Common.Splice
import Taomni.Common.Utf16

/-!
# Change sets

Reference: `applyChanges` and `singleReplacement` of
`components/editor/workspace/workspaceDocumentTransactionOwner.ts`.

`ChangeSet.of` and `iterChanges` of CodeMirror are a parameter: from a list of replacements and a
document length it makes the ranges it reports, or throws. `ChangeSetLaws` collects what is assumed
of it. `sortedChangeSet` is an instance for sorted replacements.
-/

namespace Taomni.Document

open List
open JsString (cr)

/-- `DocumentChangeDelta`. -/
structure DocumentChangeDelta where
  fromPos : ℕ
  toPos : ℕ
  insert : JsString
  deleted : Option JsString
deriving DecidableEq, Repr

namespace DocumentChangeDelta

/-- The replacement handed to `ChangeSet.of`. -/
def toSplice (change : DocumentChangeDelta) : Splice UInt16 :=
  ⟨change.fromPos, change.toPos, change.insert⟩

end DocumentChangeDelta

/-- The arguments of the `iterChanges` callback. -/
structure ChangedRange where
  fromA : ℕ
  toA : ℕ
  fromB : ℕ
  toB : ℕ
  inserted : JsString
deriving DecidableEq, Repr

/-- The range in the coordinates of the old text. -/
def ChangedRange.toSplice (range : ChangedRange) : Splice UInt16 :=
  ⟨range.fromA, range.toA, range.inserted⟩

/-- `ChangeSet.of` followed by `iterChanges`; `none` when `of` throws. -/
abbrev ChangeSetOf := List (Splice UInt16) → ℕ → Option (List ChangedRange)

/-- The new coordinates follow the old ones: `a` of the old text stands at `b` of the new one. -/
def NewCoordinates (a b : ℕ) : List ChangedRange → Prop
  | [] => True
  | range :: rest =>
      range.fromB = b + (range.fromA - a) ∧ range.toB = range.fromB + range.inserted.length ∧
        NewCoordinates range.toA range.toB rest

/-- What is assumed of change sets: a list is accepted only when its ranges lie in the document; the
reported ranges are sorted, do not overlap and carry both coordinates; insertions with LF only stay
such; of a list of no-ops nothing is reported, of any other list something; and sorted replacements
are accepted and applied as they stand. -/
structure ChangeSetLaws (changeSetOf : ChangeSetOf) : Prop where
  in_range : ∀ {changes len ranges}, changeSetOf changes len = some ranges →
    ∀ change ∈ changes, change.stop ≤ len
  ordered : ∀ {changes len ranges}, changeSetOf changes len = some ranges →
    Ordered 0 len (ranges.map ChangedRange.toSplice)
  coordinates : ∀ {changes len ranges}, changeSetOf changes len = some ranges →
    NewCoordinates 0 0 ranges
  inserted_lf : ∀ {changes len ranges}, changeSetOf changes len = some ranges →
    (∀ change ∈ changes, cr ∉ change.insert) → ∀ range ∈ ranges, cr ∉ range.inserted
  noops : ∀ {changes : List (Splice UInt16)} {len}, (∀ change ∈ changes, change.stop ≤ len) →
    (∀ change ∈ changes, change.IsNoop) → changeSetOf changes len = some []
  reports : ∀ {changes len ranges}, changeSetOf changes len = some ranges →
    ∀ change ∈ changes, ¬ change.IsNoop → ranges ≠ []
  accepts : ∀ {changes : List (Splice UInt16)} {len}, Ordered 0 len changes →
    (∀ change ∈ changes, cr ∉ change.insert) → ∃ ranges, changeSetOf changes len = some ranges ∧
      ∀ text : JsString, text.length = len →
        applySplices text 0 len (ranges.map ChangedRange.toSplice) = applySplices text 0 len changes

/-! ## applyChanges -/

/-- `AppliedChanges`. -/
structure AppliedChanges where
  text : JsString
  changes : List DocumentChangeDelta
  inverse : List DocumentChangeDelta
deriving DecidableEq, Repr

/-- An empty string leaves the `deleted` field out. -/
def deletedField (s : JsString) : Option JsString := if s = [] then none else some s

/-- The text assembled by the `iterChanges` callback from `cursor` on. -/
def assembleText (text : JsString) (cursor : ℕ) : List ChangedRange → JsString
  | [] => text.drop cursor
  | range :: rest =>
      slice text cursor range.fromA ++ range.inserted ++ assembleText text range.toA rest

/-- `applyChanges`. -/
def applyChanges (changeSetOf : ChangeSetOf) (text : JsString)
    (changes : List DocumentChangeDelta) : Option AppliedChanges :=
  if changes = [] then none
  else
    match changeSetOf (changes.map DocumentChangeDelta.toSplice) text.length with
    | none => none
    | some ranges => some {
        text := assembleText text 0 ranges
        changes := ranges.map fun range =>
          { fromPos := range.fromA, toPos := range.toA, insert := range.inserted
            deleted := deletedField (slice text range.fromA range.toA) }
        inverse := ranges.map fun range =>
          { fromPos := range.fromB, toPos := range.toB, insert := slice text range.fromA range.toA
            deleted := deletedField range.inserted } }

theorem assembleText_eq (text : JsString) (cursor : ℕ) (ranges : List ChangedRange) :
    assembleText text cursor ranges
      = applySplices text cursor text.length (ranges.map ChangedRange.toSplice) := by
  induction ranges generalizing cursor with
  | nil => exact (slice_length text cursor).symm
  | cons range rest ih => rw [assembleText, ih, map_cons, applySplices]; rfl

/-- In the new coordinates, putting the deleted texts back is the inverse splicing. -/
theorem map_inverse_eq (text : JsString) {a b : ℕ} {ranges : List ChangedRange}
    (h : NewCoordinates a b ranges) : ranges.map (fun range =>
        (⟨range.fromB, range.toB, slice text range.fromA range.toA⟩ : Splice UInt16))
      = inverseSplices text a b (ranges.map ChangedRange.toSplice) := by
  induction ranges generalizing a b with
  | nil => rfl
  | cons range rest ih =>
    obtain ⟨hfrom, hto, hrest⟩ := h
    rw [map_cons, map_cons, inverseSplices, ih hrest, hto, hfrom]
    rfl

variable {changeSetOf : ChangeSetOf}

/-- An applied list of changes can be applied again and undone, as long as it reports a change and
the text has LF only. -/
structure AppliedChanges.Sound (changeSetOf : ChangeSetOf) (before : JsString)
    (applied : AppliedChanges) : Prop where
  text_lf : cr ∉ applied.text
  forward : applied.changes ≠ [] → ∃ again, applyChanges changeSetOf before applied.changes
    = some again ∧ again.text = applied.text
  inverse : applied.changes ≠ [] → ∃ undone, applyChanges changeSetOf applied.text applied.inverse
    = some undone ∧ undone.text = before

variable {changes : List DocumentChangeDelta}

/-- Sorted replacements with LF only are applied as they stand. -/
theorem applyChanges_ordered (laws : ChangeSetLaws changeSetOf) (text : JsString) (hne : changes ≠ [])
    (hordered : Ordered 0 text.length (changes.map DocumentChangeDelta.toSplice))
    (hlf : ∀ change ∈ changes, cr ∉ change.insert) :
    ∃ applied, applyChanges changeSetOf text changes = some applied ∧ applied.text
        = applySplices text 0 text.length (changes.map DocumentChangeDelta.toSplice) := by
  obtain ⟨ranges, hranges, happly⟩ := laws.accepts hordered (by
    intro splice hsplice
    obtain ⟨change, hchange, rfl⟩ := mem_map.mp hsplice
    exact hlf change hchange)
  refine ⟨_, by rw [applyChanges, if_neg hne, hranges], ?_⟩
  show assembleText text 0 ranges = _
  rw [assembleText_eq, happly text rfl]

variable {text : JsString}

theorem not_mem_slice (h : cr ∉ text) (p q : ℕ) : cr ∉ slice text p q :=
  fun hmem => h (mem_of_mem_drop (mem_of_mem_take hmem))

theorem not_mem_applySplices (h : cr ∉ text) {p q : ℕ}
    {splices : List (Splice UInt16)} (hs : ∀ s ∈ splices, cr ∉ s.insert) :
    cr ∉ applySplices text p q splices := by
  induction splices generalizing p with
  | nil => exact not_mem_slice h p q
  | cons s rest ih =>
    obtain ⟨hfirst, hrest⟩ := forall_mem_cons.mp hs
    rw [applySplices, mem_append, mem_append]
    exact not_or.mpr ⟨not_or.mpr ⟨not_mem_slice h _ _, hfirst⟩, ih hrest⟩

variable {applied : AppliedChanges}

theorem applyChanges_sound (laws : ChangeSetLaws changeSetOf) (hlf : cr ∉ text)
    (hchanges : ∀ change ∈ changes, cr ∉ change.insert)
    (h : applyChanges changeSetOf text changes = some applied) : applied.Sound changeSetOf text := by
  rw [applyChanges] at h
  split at h
  · cases h
  split at h
  · cases h
  next ranges hranges =>
  obtain rfl := Option.some.inj h
  have hordered := laws.ordered hranges
  have hinserted := laws.inserted_lf hranges (by
    intro splice hsplice
    obtain ⟨change, hchange, rfl⟩ := mem_map.mp hsplice
    exact hchanges change hchange)
  have hspliceLf : ∀ s ∈ ranges.map ChangedRange.toSplice, cr ∉ s.insert := by
    intro s hs
    obtain ⟨range, hrange, rfl⟩ := mem_map.mp hs
    exact hinserted range hrange
  obtain ⟨hinverse, happly⟩ := applySplices_inverse text hordered
  rw [← map_inverse_eq text (laws.coordinates hranges)] at hinverse happly
  refine ⟨?_, fun hne => ?_, fun hne => ?_⟩
  · show cr ∉ assembleText text 0 ranges
    rw [assembleText_eq]
    exact not_mem_applySplices hlf hspliceLf
  · obtain ⟨again, hagain, htext⟩ := applyChanges_ordered laws text hne
      (by rwa [map_map]) (by
        intro change hchange
        obtain ⟨range, hrange, rfl⟩ := mem_map.mp hchange
        exact hinserted range hrange)
    refine ⟨again, hagain, htext.trans ?_⟩
    show _ = assembleText text 0 ranges
    rw [assembleText_eq, map_map]
    rfl
  · have hne' : ranges.map (fun range : ChangedRange =>
        ({ fromPos := range.fromB, toPos := range.toB
           insert := slice text range.fromA range.toA
           deleted := deletedField range.inserted } : DocumentChangeDelta)) ≠ [] := by
      simpa using hne
    obtain ⟨undone, hundone, htext⟩ := applyChanges_ordered laws
      (assembleText text 0 ranges) hne' (by
        rw [map_map, assembleText_eq]
        exact hinverse) (by
        intro change hchange
        obtain ⟨range, hrange, rfl⟩ := mem_map.mp hchange
        exact not_mem_slice hlf _ _)
    refine ⟨undone, hundone, htext.trans ?_⟩
    rw [map_map, assembleText_eq]
    exact happly

/-- Nothing is reported of no-ops, and the text stays. -/
theorem applyChanges_eq_some_nil_iff (laws : ChangeSetLaws changeSetOf)
    (hnoop : ∀ change ∈ changes, change.toSplice.IsNoop) :
    applyChanges changeSetOf text changes = some applied ↔
      changes ≠ [] ∧ (∀ change ∈ changes, change.toPos ≤ text.length) ∧ applied = ⟨text, [], []⟩ := by
  have hnoops : ∀ splice ∈ changes.map DocumentChangeDelta.toSplice, splice.IsNoop := by
    simpa using hnoop
  rw [applyChanges]
  constructor
  · intro h
    split at h
    · cases h
    next hne =>
    split at h
    · cases h
    next ranges hranges =>
    have hrange := laws.in_range hranges
    obtain rfl : [] = ranges := Option.some.inj ((laws.noops hrange hnoops).symm.trans hranges)
    refine ⟨hne, fun change hchange => hrange _ (mem_map_of_mem hchange), ?_⟩
    obtain rfl := Option.some.inj h
    simp [assembleText]
  · rintro ⟨hne, hrange, rfl⟩
    have hstop : ∀ splice ∈ changes.map DocumentChangeDelta.toSplice,
        splice.stop ≤ text.length := by
      intro splice hsplice
      obtain ⟨change, hchange, rfl⟩ := mem_map.mp hsplice
      exact hrange change hchange
    rw [if_neg hne, laws.noops hstop hnoops]
    simp [assembleText]

/-- A list with a change that is not a no-op reports a change. -/
theorem applyChanges_changes_ne_nil (laws : ChangeSetLaws changeSetOf)
    (h : applyChanges changeSetOf text changes = some applied)
    (hchange : ∃ change ∈ changes, ¬ change.toSplice.IsNoop) : applied.changes ≠ [] := by
  rw [applyChanges] at h
  split at h
  · cases h
  split at h
  · cases h
  next ranges hranges =>
  obtain rfl := Option.some.inj h
  obtain ⟨change, hmem, hnoop⟩ := hchange
  have hne := laws.reports hranges _ (mem_map_of_mem hmem) hnoop
  simpa using hne

/-! ## singleReplacement -/

/-- `singleReplacement`. -/
def singleReplacement (text nextText : JsString) : DocumentChangeDelta :=
  let fromStart := commonPrefixLength text nextText
  let fromEnd := commonSuffixLength text nextText fromStart
  { fromPos := fromStart
    toPos := text.length - fromEnd
    insert := slice nextText fromStart (nextText.length - fromEnd)
    deleted := some (slice text fromStart (text.length - fromEnd)) }

/-- The replacement is sorted on its own and turns the text into the next one. -/
theorem singleReplacement_spec (text nextText : JsString) :
    Ordered 0 text.length [(singleReplacement text nextText).toSplice] ∧
      applySplices text 0 text.length [(singleReplacement text nextText).toSplice] = nextText := by
  obtain ⟨hx, hy⟩ := commonPrefixLength_le text nextText
  obtain ⟨hxEnd, hyEnd⟩ := commonSuffixLength_le text nextText (commonPrefixLength text nextText)
  have hsplice : (singleReplacement text nextText).toSplice
      = affixSplice text nextText (commonPrefixLength text nextText)
        (commonSuffixLength text nextText (commonPrefixLength text nextText)) := rfl
  rw [hsplice]
  exact ⟨ordered_affixSplice (by omega),
    applySplices_affixSplice (by omega) (take_commonPrefixLength text nextText)
      (drop_eq_of_le_commonSuffixLength hx hy le_rfl)⟩

/-- Only equal texts have a no-op as their replacement. -/
theorem not_isNoop_singleReplacement {nextText : JsString} (h : text ≠ nextText) :
    ¬ (singleReplacement text nextText).toSplice.IsNoop := by
  rintro ⟨hempty, hinsert⟩
  obtain ⟨-, happly⟩ := singleReplacement_spec text nextText
  apply h
  rw [← happly, applySplices, applySplices, slice_length, hinsert, ← hempty, append_nil,
    slice, drop_zero, Nat.sub_zero, take_append_drop]

/-- The replacement is accepted and gives the next text. -/
theorem applyChanges_singleReplacement (laws : ChangeSetLaws changeSetOf) (text : JsString)
    {nextText : JsString} (hlf : cr ∉ nextText) :
    ∃ applied, applyChanges changeSetOf text [singleReplacement text nextText] = some applied ∧
      applied.text = nextText := by
  obtain ⟨hordered, happly⟩ := singleReplacement_spec text nextText
  obtain ⟨applied, happlied, htext⟩ := applyChanges_ordered laws text (cons_ne_nil _ []) hordered
    (forall_mem_singleton.mpr (not_mem_slice hlf _ _))
  exact ⟨applied, happlied, htext.trans happly⟩

/-! ## Sorted replacements -/

/-- The ranges reported of sorted replacements, where `a` of the old text stands at `b`. -/
def sortedRanges (a b : ℕ) : List (Splice UInt16) → List ChangedRange
  | [] => []
  | s :: rest =>
      let fromB := b + (s.start - a)
      let toB := fromB + s.insert.length
      ⟨s.start, s.stop, fromB, toB, s.insert⟩ :: sortedRanges s.stop toB rest

/-- A change set for sorted replacements; no-ops are left out. -/
def sortedChangeSet : ChangeSetOf := fun changes len =>
  if (∀ change ∈ changes, change.stop ≤ len) ∧ Ordered 0 len (changes.filter (¬ ·.IsNoop)) then
    some (sortedRanges 0 0 (changes.filter (¬ ·.IsNoop)))
  else none

private theorem sortedRanges_spec (a b : ℕ) (changes : List (Splice UInt16)) :
    (sortedRanges a b changes).map ChangedRange.toSplice = changes ∧
      NewCoordinates a b (sortedRanges a b changes) := by
  induction changes generalizing a b with
  | nil => exact ⟨rfl, trivial⟩
  | cons s rest ih =>
    obtain ⟨hmap, hcoords⟩ := ih s.stop (b + (s.start - a) + s.insert.length)
    exact ⟨congrArg (s :: ·) hmap, rfl, rfl, hcoords⟩

private theorem filter_noop_spec {a len : ℕ} {changes : List (Splice UInt16)}
    (h : Ordered a len changes) : Ordered a len (changes.filter (¬ ·.IsNoop)) ∧ ∀ text : JsString,
      applySplices text a len (changes.filter (¬ ·.IsNoop)) = applySplices text a len changes := by
  induction changes generalizing a with
  | nil => exact ⟨h, fun _ => rfl⟩
  | cons s rest ih =>
    obtain ⟨hstart, hstop, hrest⟩ := h
    obtain ⟨hordered, happly⟩ := ih hrest
    by_cases hnoop : s.IsNoop
    · rw [filter_cons_of_neg (by simpa using hnoop)]
      obtain ⟨hempty, hinsert⟩ := hnoop
      rw [← hempty] at hordered
      refine ⟨hordered.mono hstart, fun text => ?_⟩
      rw [applySplices_skip text hstart hordered, hempty, happly, applySplices, hinsert,
        append_nil, hempty]
    · rw [filter_cons_of_pos (by simpa using hnoop)]
      refine ⟨⟨hstart, hstop, hordered⟩, fun text => ?_⟩
      rw [applySplices, applySplices, happly]

private theorem sortedChangeSet_eq_some {changes : List (Splice UInt16)} {len : ℕ}
    {ranges : List ChangedRange} (h : sortedChangeSet changes len = some ranges) :
    (∀ change ∈ changes, change.stop ≤ len) ∧ Ordered 0 len (changes.filter (¬ ·.IsNoop)) ∧
      ranges = sortedRanges 0 0 (changes.filter (¬ ·.IsNoop)) := by
  rw [sortedChangeSet] at h
  split at h
  · next hok => exact ⟨hok.1, hok.2, (Option.some.inj h).symm⟩
  · cases h

theorem sortedChangeSet_laws : ChangeSetLaws sortedChangeSet where
  in_range h := (sortedChangeSet_eq_some h).1
  ordered h := by
    obtain ⟨-, hordered, rfl⟩ := sortedChangeSet_eq_some h
    rwa [(sortedRanges_spec 0 0 _).1]
  coordinates h := by
    obtain ⟨-, -, rfl⟩ := sortedChangeSet_eq_some h
    exact (sortedRanges_spec 0 0 _).2
  inserted_lf {changes len ranges} h hlf range hrange := by
    obtain ⟨-, -, rfl⟩ := sortedChangeSet_eq_some h
    have hmem := mem_map_of_mem (f := ChangedRange.toSplice) hrange
    rw [(sortedRanges_spec 0 0 _).1] at hmem
    exact hlf _ (mem_of_mem_filter hmem)
  noops {changes len} hrange hnoops := by
    have hfilter : changes.filter (¬ ·.IsNoop) = [] :=
      filter_eq_nil_iff.mpr fun change hchange => by simpa using hnoops change hchange
    rw [sortedChangeSet, hfilter]
    exact if_pos ⟨hrange, Nat.zero_le len⟩
  reports {changes len ranges} h change hchange hnoop hnil := by
    obtain ⟨-, -, rfl⟩ := sortedChangeSet_eq_some h
    have hmap := (sortedRanges_spec 0 0 (changes.filter (¬ ·.IsNoop))).1
    rw [hnil] at hmap
    exact not_mem_nil (hmap ▸ mem_filter.mpr ⟨hchange, by simpa using hnoop⟩)
  accepts {changes len} hordered _ := by
    obtain ⟨hfilter, happly⟩ := filter_noop_spec hordered
    refine ⟨_, if_pos ⟨hordered.stop_le, hfilter⟩, fun text _ => ?_⟩
    rw [(sortedRanges_spec 0 0 _).1, happly]

end Taomni.Document
