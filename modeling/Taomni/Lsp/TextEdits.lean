import Taomni.Common.Lists
import Taomni.Common.Simultaneous
import Taomni.Lsp.Position

/-!
# Applying text edits

Reference: `applyLspTextEditsToString` of `components/editor/workspace/lspTextEdits.ts`.

The edits are applied from the end of the text to its start, each resolved against the text edited
so far. On texts with LF only this is the simultaneous application, but for the order of several
insertions at one position, which comes out reversed (`applyLspTextEditsToString_eq_iff`).
-/

namespace Taomni.Lsp

open List
open JsString (cr lf)

/-- `LspTextEdit`. -/
structure LspTextEdit where
  range : LspRange
  newText : JsString
deriving DecidableEq, Repr

/-- The comparator of the sort: later starts first, then later ends. -/
def compareEdits (text : JsString) (a b : LspTextEdit) : ℤ :=
  let aStart := offsetFromLspPositionInString text a.range.start
  let bStart := offsetFromLspPositionInString text b.range.start
  if aStart ≠ bStart then (bStart : ℤ) - aStart
  else
    let aEnd := offsetFromLspPositionInString text a.range.stop
    let bEnd := offsetFromLspPositionInString text b.range.stop
    (bEnd : ℤ) - aEnd

/-- One round of the loop. -/
def applyEdit (next : JsString) (edit : LspTextEdit) : JsString :=
  let start := offsetFromLspPositionInString next edit.range.start
  let stop := offsetFromLspPositionInString next edit.range.stop
  next.take start ++ edit.newText ++ next.drop stop

/-- `applyLspTextEditsToString`; `sort` is stable, so an insertion sort by the comparator. -/
def applyLspTextEditsToString (text : JsString) (edits : List LspTextEdit) : JsString :=
  if edits = [] then text
  else (edits.insertionSort fun a b => compareEdits text a b ≤ 0).foldl applyEdit text

/-! ## Resolving edits -/

/-- The offsets of an edit whose range is in the text. -/
def editSplice (text : JsString) (edit : LspTextEdit) : Option (Splice UInt16) :=
  match offsetFromLspPositionInStringStrict text edit.range.start,
    offsetFromLspPositionInStringStrict text edit.range.stop with
  | some start, some stop => some { start, stop, insert := edit.newText }
  | _, _ => none

variable {text : JsString}

theorem editSplice_eq_some_iff {edit : LspTextEdit} {s : Splice UInt16} : editSplice text edit = some s ↔
      offsetFromLspPositionInStringStrict text edit.range.start = some s.start ∧
        offsetFromLspPositionInStringStrict text edit.range.stop = some s.stop ∧
        edit.newText = s.insert := by
  rw [editSplice]
  split
  · next start stop hstart hstop =>
    obtain ⟨sStart, sStop, sInsert⟩ := s
    simp [hstart, hstop]
  · next hnot =>
    refine iff_of_false (by simp) ?_
    rintro ⟨hstart, hstop, -⟩
    exact hnot _ _ hstart hstop

/-- The edit lies in the text and does not run backwards. -/
def InRange (text : JsString) (edit : LspTextEdit) : Prop :=
  ∃ s ∈ editSplice text edit, s.start ≤ s.stop

instance (text : JsString) (edit : LspTextEdit) : Decidable (InRange text edit) :=
  inferInstanceAs (Decidable (∃ s ∈ editSplice text edit, _))

/-- The offsets of an edit by the clamping conversion. -/
def clampedSplice (text : JsString) (edit : LspTextEdit) : Splice UInt16 where
  start := offsetFromLspPositionInString text edit.range.start
  stop := offsetFromLspPositionInString text edit.range.stop
  insert := edit.newText

variable {position : LspPosition}

theorem offsetFromLspPositionInString_eq_of_strict
    {o : ℕ} (h : offsetFromLspPositionInStringStrict text position = some o) :
    offsetFromLspPositionInString text position = o := by
  obtain ⟨line, character, rfl, hposition⟩ :=
    offsetFromLspPositionInStringStrict_eq_some_iff.mp h
  exact offsetFromLspPositionInString_eq hposition

theorem le_length_of_strict {o : ℕ}
    (h : offsetFromLspPositionInStringStrict text position = some o) : o ≤ text.length := by
  obtain ⟨line, character, rfl, hposition⟩ :=
    offsetFromLspPositionInStringStrict_eq_some_iff.mp h
  obtain ⟨rest, hreads⟩ := hposition.exists_reads
  exact hreads.of_tokens.1

/-- In range both conversions agree. -/
theorem InRange.editSplice_eq {edit : LspTextEdit} (h : InRange text edit) :
    editSplice text edit = some (clampedSplice text edit) ∧
      (clampedSplice text edit).start ≤ (clampedSplice text edit).stop := by
  obtain ⟨s, hs, hle⟩ := h
  obtain ⟨hstart, hstop, hinsert⟩ := editSplice_eq_some_iff.mp hs
  have heq : clampedSplice text edit = s := by
    rw [clampedSplice, offsetFromLspPositionInString_eq_of_strict hstart,
      offsetFromLspPositionInString_eq_of_strict hstop, hinsert]
  rw [heq]
  exact ⟨hs, hle⟩

theorem filterMap_editSplice {edits : List LspTextEdit} (h : ∀ edit ∈ edits, InRange text edit) :
    edits.filterMap (editSplice text) = edits.map (clampedSplice text) := by
  rw [← filterMap_eq_map]
  exact filterMap_congr fun edit hedit => (h edit hedit).editSplice_eq.1

/-! ## Resolving against the edited text -/

/-- Without CR every code unit is read on its own. -/
theorem tokens_append {a : JsString} (h : cr ∉ a) (b : JsString) :
    tokens (a ++ b) = a.map unitToken ++ tokens b := by
  induction a with
  | nil => rfl
  | cons c a ih =>
    obtain ⟨hc, ha⟩ := ne_and_not_mem_of_not_mem_cons h
    rw [cons_append, map_cons, cons_append, ← ih ha]
    rcases a ++ b with _ | ⟨d, rest⟩
    · rfl
    · rw [tokens, if_neg fun hcrlf => hc hcrlf.1.symm]

/-- A position is the same one in every text that agrees up to it. -/
theorem isPosition_take_append (hlf : cr ∉ text) {o line character k : ℕ}
    (h : IsPosition (tokens text) o line character) (hk : o ≤ k) (tail : JsString) :
    IsPosition (tokens (text.take k ++ tail)) o line character := by
  obtain ⟨rest, hreads⟩ := h.exists_reads
  obtain ⟨hle, -, rfl⟩ := hreads.of_tokens
  obtain ⟨pre, hpre, hother⟩ := hreads.exists_append
  have hlfTake : cr ∉ text.take o := fun hmem => hlf (mem_of_mem_take hmem)
  have hcut := tokens_append hlfTake (text.drop o)
  rw [take_append_drop, hpre, append_left_inj] at hcut
  have htake : text.take k ++ tail = text.take o ++ (slice text o k ++ tail) := by
    have hslice := slice_append text (Nat.zero_le o) hk
    simp only [slice, drop_zero, Nat.sub_zero] at hslice
    rw [← hslice, append_assoc, slice]
  have hreads' : Reads (tokens (text.take k ++ tail)) o line character
      (tokens (slice text o k ++ tail)) := by
    rw [htake, tokens_append hlfTake, ← hcut]
    exact hother _
  exact hreads'.isPosition

/-- So is the position of a strict offset. -/
theorem offsetFromLspPositionInString_take_append (hlf : cr ∉ text) {o k : ℕ}
    (h : offsetFromLspPositionInStringStrict text position = some o) (hk : o ≤ k) (tail : JsString) :
    offsetFromLspPositionInString (text.take k ++ tail) position = o := by
  obtain ⟨line, character, rfl, hposition⟩ :=
    offsetFromLspPositionInStringStrict_eq_some_iff.mp h
  exact offsetFromLspPositionInString_eq (isPosition_take_append hlf hposition hk tail)

/-- The loop splices from the end: the text before the edits still to come is the old one. -/
theorem foldl_applyEdit (hlf : cr ∉ text) {edits : List LspTextEdit} {k : ℕ}
    (hrange : ∀ edit ∈ edits, InRange text edit)
    (hdescending : Descending k (edits.map (clampedSplice text))) (hk : k ≤ text.length)
    (tail : JsString) : edits.foldl applyEdit (text.take k ++ tail)
      = applySplices text 0 k (edits.map (clampedSplice text)).reverse ++ tail := by
  induction edits generalizing k tail with
  | nil => rw [foldl_nil, map_nil, reverse_nil, applySplices, slice]; rfl
  | cons edit rest ih =>
    obtain ⟨hedit, hrest⟩ := forall_mem_cons.mp hrange
    obtain ⟨hsplice, -⟩ := hedit.editSplice_eq
    obtain ⟨hstart, hstop, -⟩ := editSplice_eq_some_iff.mp hsplice
    obtain ⟨hforward, hle, hnext⟩ := hdescending
    have hround : applyEdit (text.take k ++ tail) edit
        = text.take (clampedSplice text edit).start
          ++ (edit.newText ++ (slice text (clampedSplice text edit).stop k ++ tail)) := by
      rw [applyEdit, offsetFromLspPositionInString_take_append hlf hstart (hforward.trans hle) tail,
        offsetFromLspPositionInString_take_append hlf hstop hle tail]
      have hlen : (text.take k).length = k := length_take_of_le hk
      have hstartLen : (clampedSplice text edit).start ≤ (text.take k).length :=
        hlen.symm ▸ hforward.trans hle
      have hstopLen : (clampedSplice text edit).stop ≤ (text.take k).length := hlen.symm ▸ hle
      rw [take_append_of_le_length hstartLen, take_take, min_eq_left (hforward.trans hle),
        drop_append_of_le_length hstopLen, drop_take, append_assoc, slice]
    rw [foldl_cons, hround, ih hrest hnext (hforward.trans (hle.trans hk)), map_cons,
      Descending.applySplices_cons text ⟨hforward, hle, hnext⟩]
    simp only [append_assoc]
    rfl

/-! ## The order of the edits -/

/-- The order of the sort, on offsets: later starts first, then later ends. -/
def Later (s t : Splice UInt16) : Prop := t.start < s.start ∨ (s.start = t.start ∧ t.stop ≤ s.stop)

instance : DecidableRel Later := fun _ _ => inferInstanceAs (Decidable (_ ∨ _))

instance : Std.Total Later := ⟨fun s t => by unfold Later; omega⟩

instance : IsTrans (Splice UInt16) Later := ⟨fun s t u => by unfold Later; omega⟩

theorem compareEdits_le_iff {a b : LspTextEdit} :
    compareEdits text a b ≤ 0 ↔ Later (clampedSplice text a) (clampedSplice text b) := by
  rw [compareEdits, Later, clampedSplice, clampedSplice]
  simp only
  split <;> omega

/-- Sorted, the edits go from the end of the text to its start. -/
theorem descending_of_later {q : ℕ} {ss : List (Splice UInt16)} (hlater : ss.Pairwise Later)
    (hapart : ss.Pairwise Splice.Apart) (hforward : ∀ s ∈ ss, s.start ≤ s.stop)
    (hstop : ∀ s ∈ ss, s.stop ≤ q) : Descending q ss := by
  induction ss generalizing q with
  | nil => trivial
  | cons s rest ih =>
    obtain ⟨hlaterFirst, hlaterRest⟩ := List.pairwise_cons.mp hlater
    obtain ⟨hapartFirst, hapartRest⟩ := List.pairwise_cons.mp hapart
    obtain ⟨hforwardFirst, hforwardRest⟩ := forall_mem_cons.mp hforward
    refine ⟨hforwardFirst, hstop s mem_cons_self,
      ih hlaterRest hapartRest hforwardRest fun t ht => ?_⟩
    have hts := hlaterFirst t ht
    have hst := hapartFirst t ht
    rw [Later] at hts
    rw [Splice.Apart] at hst
    omega

/-! ## The result -/

/-- The result is the simultaneous application just when no position tells the insertions made
there from the same insertions in reverse. -/
theorem applyLspTextEditsToString_eq_iff {text : JsString} (hlf : cr ∉ text)
    {edits : List LspTextEdit} (hrange : ∀ edit ∈ edits, InRange text edit)
    (hapart : (edits.filterMap (editSplice text)).Pairwise Splice.Apart) :
    applyLspTextEditsToString text edits = simultaneous text (edits.filterMap (editSplice text)) ↔
      ∀ i, (insertionsAt (edits.filterMap (editSplice text)) i).reverse.flatMap Splice.insert
        = (insertionsAt (edits.filterMap (editSplice text)) i).flatMap Splice.insert := by
  rw [filterMap_editSplice hrange] at hapart ⊢
  set splices := edits.map (clampedSplice text) with hsplices
  have hmem : ∀ s ∈ splices, s.start ≤ s.stop ∧ s.stop ≤ text.length := by
    intro s hs
    obtain ⟨edit, hedit, rfl⟩ := mem_map.mp hs
    obtain ⟨heq, hle⟩ := (hrange edit hedit).editSplice_eq
    obtain ⟨-, hstop, -⟩ := editSplice_eq_some_iff.mp heq
    exact ⟨hle, le_length_of_strict hstop⟩
  set sorted := edits.insertionSort fun a b => compareEdits text a b ≤ 0
  have hsorted : sorted.map (clampedSplice text) = splices.insertionSort Later :=
    map_insertionSort _ _ _ _ fun a _ b _ => compareEdits_le_iff
  have hperm := perm_insertionSort Later splices
  have hdescending : Descending text.length (splices.insertionSort Later) :=
    descending_of_later (pairwise_insertionSort Later splices)
      (hperm.symm.pairwise hapart fun h => h.symm)
      (fun s hs => (hmem s (hperm.mem_iff.mp hs)).1) fun s hs => (hmem s (hperm.mem_iff.mp hs)).2
  have hresult : applyLspTextEditsToString text edits
      = simultaneous text (splices.insertionSort Later).reverse := by
    have hfold : sorted.foldl applyEdit (text.take text.length ++ []) = _ :=
      foldl_applyEdit hlf (fun edit h => hrange edit ((mem_insertionSort _).mp h))
        (hsorted ▸ hdescending) le_rfl []
    rw [take_length, append_nil, append_nil, hsorted,
      applySplices_eq_simultaneous text hdescending.ordered] at hfold
    rw [← hfold, applyLspTextEditsToString]
    split
    · next hnil =>
      have hsortedNil : sorted = [] := by
        show edits.insertionSort _ = []
        rw [hnil, insertionSort_nil]
      rw [hsortedNil, foldl_nil]
    · rfl
  rw [hresult]
  refine simultaneous_eq_iff_of_reverse text ((reverse_perm _).trans hperm) hapart
    (fun i => ?_) fun s hs => (hmem s hs).2
  rw [insertionsAt, insertionsAt, filter_reverse, filter_insertionSort]
  intro a b ha hb
  simp only [decide_eq_true_eq] at ha hb
  exact .inr ⟨ha.1.trans hb.1.symm, (hb.2.trans ha.2.symm).le⟩

/-- A replacement and, later in the list, an insertion at its start. -/
def replaceAndInsert : List LspTextEdit :=
  [⟨⟨⟨1, 1⟩, ⟨1, 2⟩⟩, JsString.ascii "c"⟩, ⟨⟨⟨1, 1⟩, ⟨1, 1⟩⟩, JsString.ascii "-"⟩]

theorem applyLspTextEditsToString_replaceAndInsert :
    applyLspTextEditsToString (JsString.ascii "a\nbb") replaceAndInsert
      = simultaneous (JsString.ascii "a\nbb")
        (replaceAndInsert.filterMap (editSplice (JsString.ascii "a\nbb"))) := by
  refine (applyLspTextEditsToString_eq_iff (by decide) (by decide)
    (by decide)).mpr fun i => ?_
  have hsplices : replaceAndInsert.filterMap (editSplice (JsString.ascii "a\nbb"))
      = [⟨3, 4, JsString.ascii "c"⟩, ⟨3, 3, JsString.ascii "-"⟩] := by
    decide
  have hlen : (insertionsAt [⟨3, 4, JsString.ascii "c"⟩, ⟨3, 3, JsString.ascii "-"⟩] i).length
      ≤ 1 := by
    rw [insertionsAt, filter_cons_of_neg (by simp only [decide_eq_true_eq]; omega)]
    exact length_filter_le _ _
  rw [hsplices]
  rcases hcases : insertionsAt [⟨3, 4, JsString.ascii "c"⟩, ⟨3, 3, JsString.ascii "-"⟩] i
    with _ | ⟨s, _ | ⟨t, rest⟩⟩
  · rfl
  · rfl
  · rw [hcases] at hlen
    simp at hlen

/-- Two insertions at the start of a text, in array order. -/
def twoInsertions : List LspTextEdit :=
  [⟨⟨⟨0, 0⟩, ⟨0, 0⟩⟩, JsString.ascii "1"⟩, ⟨⟨⟨0, 0⟩, ⟨0, 0⟩⟩, JsString.ascii "2"⟩]

/-- They come out in the reverse order. -/
theorem twoInsertions_are_reversed :
    (cr ∉ JsString.ascii "x" ∧ (∀ edit ∈ twoInsertions, InRange (JsString.ascii "x") edit) ∧
      (twoInsertions.filterMap (editSplice (JsString.ascii "x"))).Pairwise Splice.Apart) ∧
    applyLspTextEditsToString (JsString.ascii "x") twoInsertions = JsString.ascii "21x" ∧
    simultaneous (JsString.ascii "x") (twoInsertions.filterMap (editSplice (JsString.ascii "x")))
      = JsString.ascii "12x" := by
  decide

end Taomni.Lsp
