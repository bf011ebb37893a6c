import Taomni.Common.Fallible
import Taomni.Common.Lists
import Taomni.Common.Simultaneous

/-!
# Semantic token deltas

Reference: `apply_semantic_token_delta` of `src-tauri/src/lsp/semantic_tokens.rs`.

An offset is an unsigned number of 64 bits. The edits are sorted by their starts, the last one first, and
spliced one after the other into what has become of the data. Each is checked against the length that the
data has then.
-/

namespace Taomni.Lsp

open List

/-! ## Values -/

/-- A `serde_json` value. Of the numbers only those that `as_u64` gives matter. -/
inductive SerdeValue where
  | null
  | bool (b : Bool)
  | u64 (n : UInt64)
  | otherNumber
  | str (s : String)
  | arr (elems : List SerdeValue)
  | obj (fields : List (String × SerdeValue))

namespace SerdeValue

def get : SerdeValue → String → Option SerdeValue
  | obj fields, key => fields.lookup key
  | _, _ => none

def asU64 : SerdeValue → Option UInt64
  | u64 n => some n
  | _ => none

def asStr : SerdeValue → Option String
  | str s => some s
  | _ => none

def asArray : SerdeValue → Option (List SerdeValue)
  | arr elems => some elems
  | _ => none

end SerdeValue

/-- A vector is shorter than the offsets go. -/
structure SemanticTokensCache where
  resultId : String
  data : List UInt64
  length_lt : data.length < 2 ^ 64

structure DeltaEdit where
  start : UInt64
  deleteCount : UInt64
  data : List UInt64
deriving DecidableEq

namespace DeltaEdit

/-- Where an edit ends, not reduced. -/
def stop (edit : DeltaEdit) : ℕ := edit.start.toNat + edit.deleteCount.toNat

def splice (edit : DeltaEdit) : Splice UInt64 := ⟨edit.start.toNat, edit.stop, edit.data⟩

end DeltaEdit

def parseEdit (edit : SerdeValue) : Option DeltaEdit := do
  let start ← (← edit.get "start").asU64
  let deleteCount ← (← edit.get "deleteCount").asU64
  let data ← match edit.get "data" with
    | some value => value.asArray.bind fun elems => elems.mapM SerdeValue.asU64
    | none => some []
  some { start, deleteCount, data }

def parseEdits (value : SerdeValue) : Option (List DeltaEdit) := do
  let edits ← (← value.get "edits").asArray
  edits.mapM parseEdit

/-! ## Applying a delta -/

/-- The order of the sort. -/
def LaterStart (left right : DeltaEdit) : Prop := right.start ≤ left.start

instance : DecidableRel LaterStart := fun left right => inferInstanceAs (Decidable (right.start ≤ left.start))

instance : Std.Total LaterStart := ⟨fun left right => UInt64.le_total right.start left.start⟩

instance : IsTrans DeltaEdit LaterStart := ⟨fun _ _ _ h h' => UInt64.le_trans h' h⟩

def sortEdits (edits : List DeltaEdit) : List DeltaEdit := edits.insertionSort LaterStart

/-- The loop. An end that overflows is refused, as is one beyond the data. -/
def applyEdits : List DeltaEdit → List UInt64 → Option (List UInt64)
  | [], data => some data
  | edit :: rest, data =>
    if 2 ^ 64 ≤ edit.stop then none
    else if data.length < edit.start.toNat ∨ data.length < edit.stop then none
    else applyEdits rest (Splice.into data edit.splice)

def deltaResultId (previous : SemanticTokensCache) (value : SerdeValue) : Option String :=
  ((value.get "resultId").bind SerdeValue.asStr).or (some previous.resultId)

/-- Tokens are five numbers each. -/
def deltaAnswer (previous : SemanticTokensCache) (value : SerdeValue) (data : List UInt64) :
    Option (List UInt64 × Option String) :=
  if data.length % 5 ≠ 0 then none else some (data, deltaResultId previous value)

def applySemanticTokenDelta (previous : SemanticTokensCache) (value : SerdeValue) :
    Option (List UInt64 × Option String) := do
  let parsed ← parseEdits value
  let data ← applyEdits (sortEdits parsed) previous.data
  deltaAnswer previous value data

/-!
# When a delta is applied as a whole

The delta is applied to the previous data at once just when no start tells its edits from the same edits in
reverse, the deletion there taking from what was inserted before it (`AlikeInTurn`). An edit beyond the
previous data is refused just when one edit ends beyond what the data has become (`Refused`).
-/

/-! ## Lengths -/

def insertedBy (edits : List DeltaEdit) : ℕ := (edits.map fun edit => edit.data.length).sum

def deletedBy (edits : List DeltaEdit) : ℕ := (edits.map fun edit => edit.deleteCount.toNat).sum

/-- How long data becomes. -/
def deltaLength (length : ℕ) (edits : List DeltaEdit) : ℕ := length + insertedBy edits - deletedBy edits

/-- An edit ends beyond what data of a length has become through the edits before it. -/
def EndsBeyond (length : ℕ) (edits : List DeltaEdit) : Prop :=
  ∃ before edit after, edits = before ++ edit :: after ∧
    (2 ^ 64 ≤ edit.stop ∨ length + insertedBy before < edit.stop + deletedBy before)

theorem insertedBy_cons (edit : DeltaEdit) (edits : List DeltaEdit) :
    insertedBy (edit :: edits) = edit.data.length + insertedBy edits := rfl

theorem deletedBy_cons (edit : DeltaEdit) (edits : List DeltaEdit) :
    deletedBy (edit :: edits) = edit.deleteCount.toNat + deletedBy edits := rfl

theorem DeltaEdit.start_le_stop (edit : DeltaEdit) : edit.splice.start ≤ edit.splice.stop :=
  Nat.le_add_right _ _

variable {edit : DeltaEdit}

theorem length_into {data : List UInt64} (h : edit.stop ≤ data.length) :
    (Splice.into data edit.splice).length + edit.deleteCount.toNat = data.length + edit.data.length := by
  have hstart : edit.splice.start = edit.start.toNat := rfl
  have hstop : edit.stop = edit.start.toNat + edit.deleteCount.toNat := rfl
  rw [Splice.into, length_append, length_append, length_take, length_drop]
  change min edit.start.toNat data.length + edit.data.length + (data.length - edit.stop)
    + edit.deleteCount.toNat = _
  omega

theorem endsBeyond_cons {length length' : ℕ} {edits : List DeltaEdit}
    (hfits : edit.stop < 2 ^ 64 ∧ edit.stop ≤ length)
    (hlength : length' + edit.deleteCount.toNat = length + edit.data.length) :
    EndsBeyond length (edit :: edits) ↔ EndsBeyond length' edits := by
  constructor
  · rintro ⟨before, late, after, heq, hbeyond⟩
    cases before with
    | nil =>
      obtain ⟨rfl, rfl⟩ := List.cons.inj heq
      have hnone : insertedBy [] = 0 ∧ deletedBy [] = 0 := ⟨rfl, rfl⟩
      omega
    | cons first before =>
      obtain ⟨rfl, rfl⟩ := List.cons.inj heq
      rw [insertedBy_cons, deletedBy_cons] at hbeyond
      exact ⟨before, late, after, rfl, by omega⟩
  · rintro ⟨before, late, after, rfl, hbeyond⟩
    refine ⟨edit :: before, late, after, rfl, ?_⟩
    rw [insertedBy_cons, deletedBy_cons]
    omega

/-- The loop refuses just when an edit ends beyond the data; otherwise all edits are made. -/
theorem applyEdits_spec (edits : List DeltaEdit) (data : List UInt64) :
    EndsBeyond data.length edits ∧ applyEdits edits data = none ∨ ¬ EndsBeyond data.length edits ∧
      applyEdits edits data = some ((edits.map DeltaEdit.splice).foldl Splice.into data) ∧
      ((edits.map DeltaEdit.splice).foldl Splice.into data).length + deletedBy edits
        = data.length + insertedBy edits := by
  induction edits generalizing data with
  | nil =>
    refine .inr ⟨?_, rfl, rfl⟩
    rintro ⟨before, edit, after, heq, -⟩
    exact append_ne_nil_of_right_ne_nil before (cons_ne_nil _ _) heq.symm
  | cons edit edits ih =>
    have hle : edit.start.toNat ≤ edit.stop := Nat.le_add_right _ _
    rw [applyEdits]
    by_cases hoverflow : 2 ^ 64 ≤ edit.stop
    · rw [if_pos hoverflow]
      exact .inl ⟨⟨[], edit, edits, rfl, .inl hoverflow⟩, rfl⟩
    rw [if_neg hoverflow]
    by_cases hbeyond : data.length < edit.start.toNat ∨ data.length < edit.stop
    · rw [if_pos hbeyond]
      have hstop : data.length < edit.stop := by omega
      exact .inl ⟨⟨[], edit, edits, rfl, .inr hstop⟩, rfl⟩
    · rw [if_neg hbeyond]
      have hfits : edit.stop < 2 ^ 64 ∧ edit.stop ≤ data.length := by omega
      have hlength := length_into hfits.2
      rw [endsBeyond_cons hfits hlength]
      refine (ih (Splice.into data edit.splice)).imp id fun ⟨hall, hsome, hrest⟩ => ⟨hall, hsome, ?_⟩
      rw [insertedBy_cons, deletedBy_cons, map_cons, foldl_cons]
      omega

/-! ## The order of the edits -/

theorem perm_sortEdits (edits : List DeltaEdit) : (sortEdits edits).Perm edits :=
  perm_insertionSort LaterStart edits

theorem pairwise_sortEdits (edits : List DeltaEdit) : (sortEdits edits).Pairwise LaterStart :=
  pairwise_insertionSort LaterStart edits

/-- Edits at one start keep their order. -/
theorem startingAt_sortEdits (edits : List DeltaEdit) (i : ℕ) :
    startingAt ((sortEdits edits).map DeltaEdit.splice) i = startingAt (edits.map DeltaEdit.splice) i := by
  have hstable : (sortEdits edits).filter (fun edit => edit.start.toNat = i)
      = edits.filter fun edit => edit.start.toNat = i := by
    refine filter_insertionSort LaterStart _ edits fun a b ha hb => ?_
    rw [LaterStart, UInt64.le_iff_toNat_le, of_decide_eq_true ha, of_decide_eq_true hb]
  rw [startingAt, startingAt, filter_map, filter_map]
  exact congrArg (List.map DeltaEdit.splice) hstable

/-- Sorted edits that do not overlap leave each other the data that they remove. -/
theorem stop_add_deletedBy_le {edits : List DeltaEdit} (hsorted : edits.Pairwise LaterStart)
    (hapart : edits.Pairwise fun a b => a.splice.Apart b.splice) {n : ℕ}
    (hstop : ∀ edit ∈ edits, edit.stop ≤ n) {before after : List DeltaEdit}
    (heq : edits = before ++ edit :: after) : edit.stop + deletedBy before ≤ n := by
  induction before generalizing edits n with
  | nil =>
    rw [heq] at hstop
    exact hstop edit mem_cons_self
  | cons first before ih =>
    subst heq
    obtain ⟨hlater, hsorted⟩ := List.pairwise_cons.mp hsorted
    obtain ⟨haparts, hapart⟩ := List.pairwise_cons.mp hapart
    obtain ⟨hfirst, hstop⟩ := forall_mem_cons.mp hstop
    have hdelete : first.stop = first.start.toNat + first.deleteCount.toNat := rfl
    rw [deletedBy_cons]
    have hrest : ∀ e ∈ before ++ edit :: after, e.stop ≤ n - first.deleteCount.toNat := by
      intro e he
      have hstart := UInt64.le_iff_toNat_le.mp (hlater e he)
      have hle := hstop e he
      have hestop : e.stop = e.start.toNat + e.deleteCount.toNat := rfl
      rcases haparts e he with h | h
      · change first.stop ≤ e.start.toNat at h
        omega
      · change e.stop ≤ first.start.toNat at h
        omega
    have hle := ih hsorted hapart hrest rfl
    omega

/-! ## The result -/

/-- All edits end inside of the data and none overlaps another. -/
def FitsData (previous : SemanticTokensCache) (edits : List DeltaEdit) : Prop :=
  (∀ edit ∈ edits, edit.stop ≤ previous.data.length) ∧
    edits.Pairwise fun a b => a.splice.Apart b.splice

/-- What is asked of a delta: made at once when it fits the data, and refused when an edit ends beyond. -/
def DeltaCorrect (previous : SemanticTokensCache) (value : SerdeValue) (edits : List DeltaEdit) : Prop :=
  (FitsData previous edits → applySemanticTokenDelta previous value
    = deltaAnswer previous value (atOnce previous.data (edits.map DeltaEdit.splice))) ∧
  ((∃ edit ∈ edits, previous.data.length < edit.stop) → applySemanticTokenDelta previous value = none)

/-- The data of the edits at one start is the same in reverse, when the deletion takes from what was
inserted before it. -/
def AlikeInTurn (data : List UInt64) (splices : List (Splice UInt64)) (i : ℕ) : Prop :=
  (removingOn splices i).reverse.flatMap Splice.insert ++
      ((insertedFirst splices i).reverse.flatMap Splice.insert ++ oldAt data splices i).drop
        (removedAt splices i)
    = (startingAt splices i).flatMap Splice.insert

/-- One edit ends beyond what the data has become, or the data becomes no whole number of tokens. -/
def Refused (previous : SemanticTokensCache) (edits : List DeltaEdit) : Prop :=
  EndsBeyond previous.data.length (sortEdits edits) ∨ deltaLength previous.data.length edits % 5 ≠ 0

section

variable {previous : SemanticTokensCache} {value : SerdeValue} {edits : List DeltaEdit}

theorem lengthBy_sortEdits : insertedBy (sortEdits edits) = insertedBy edits ∧
    deletedBy (sortEdits edits) = deletedBy edits :=
  ⟨((perm_sortEdits edits).map _).sum_nat, ((perm_sortEdits edits).map _).sum_nat⟩

theorem applySemanticTokenDelta_eq (hparse : parseEdits value = some edits) :
    applySemanticTokenDelta previous value
      = (applyEdits (sortEdits edits) previous.data).bind (deltaAnswer previous value) := by
  rw [applySemanticTokenDelta, hparse]
  rfl

/-- The data that is not refused. -/
theorem applied_of_not_endsBeyond (h : ¬ EndsBeyond previous.data.length (sortEdits edits)) :
    applyEdits (sortEdits edits) previous.data
        = some (((sortEdits edits).map DeltaEdit.splice).foldl Splice.into previous.data) ∧
      (((sortEdits edits).map DeltaEdit.splice).foldl Splice.into previous.data).length
        = deltaLength previous.data.length edits := by
  rcases applyEdits_spec (sortEdits edits) previous.data with ⟨hbeyond, -⟩ | ⟨-, hsome, hlength⟩
  · exact absurd hbeyond h
  · rw [lengthBy_sortEdits.1, lengthBy_sortEdits.2] at hlength
    exact ⟨hsome, by rw [deltaLength]; omega⟩

theorem applySemanticTokenDelta_eq_none_iff (hparse : parseEdits value = some edits) :
    applySemanticTokenDelta previous value = none ↔ Refused previous edits := by
  rw [applySemanticTokenDelta_eq hparse, Refused]
  by_cases hbeyond : EndsBeyond previous.data.length (sortEdits edits)
  · rcases applyEdits_spec (sortEdits edits) previous.data with ⟨-, hnone⟩ | ⟨h, -⟩
    · rw [hnone]
      exact iff_of_true rfl (.inl hbeyond)
    · exact absurd hbeyond h
  · obtain ⟨hsome, hlength⟩ := applied_of_not_endsBeyond hbeyond
    rw [hsome, Option.bind_some, deltaAnswer, hlength, or_iff_right hbeyond]
    by_cases hfive : deltaLength previous.data.length edits % 5 ≠ 0
    · rw [if_pos hfive]
      exact iff_of_true rfl hfive
    · rw [if_neg hfive]
      exact iff_of_false (Option.some_ne_none _) hfive

theorem FitsData.apart (h : FitsData previous edits) :
    (edits.map DeltaEdit.splice).Pairwise Splice.Apart :=
  pairwise_map.mpr h.2

theorem FitsData.not_endsBeyond (h : FitsData previous edits) :
    ¬ EndsBeyond previous.data.length (sortEdits edits) := by
  rintro ⟨before, edit, after, heq, hbeyond⟩
  have hapart : (sortEdits edits).Pairwise fun a b => a.splice.Apart b.splice :=
    (List.Perm.pairwise_iff (fun {a b} hab => Or.symm hab) (perm_sortEdits edits)).mpr h.2
  have hstop : ∀ edit ∈ sortEdits edits, edit.stop ≤ previous.data.length := fun edit hedit =>
    h.1 edit ((perm_sortEdits edits).mem_iff.mp hedit)
  have hle := stop_add_deletedBy_le (pairwise_sortEdits edits) hapart hstop heq
  have hlt := previous.length_lt
  omega

theorem AlikeInTurn.iff (h : FitsData previous edits) (i : ℕ) :
    AlikeInTurn previous.data (edits.map DeltaEdit.splice) i ↔
      inTurnAt previous.data (edits.map DeltaEdit.splice) i
        = (startingAt (edits.map DeltaEdit.splice) i).flatMap Splice.insert := by
  rw [AlikeInTurn, inTurnAt_eq previous.data h.apart]
  exact forall_mem_map.mpr fun edit _ => edit.start_le_stop

/-- A delta that fits the data is made at once just when the edits at each start are alike in turn, or the
data becomes no whole number of tokens. -/
theorem fits_iff (hparse : parseEdits value = some edits) (h : FitsData previous edits) :
    applySemanticTokenDelta previous value
        = deltaAnswer previous value (atOnce previous.data (edits.map DeltaEdit.splice)) ↔
      (deltaLength previous.data.length edits % 5 = 0 →
        ∀ i, AlikeInTurn previous.data (edits.map DeltaEdit.splice) i) := by
  obtain ⟨hsome, hlength⟩ := applied_of_not_endsBeyond h.not_endsBeyond
  have hsorted : ((sortEdits edits).map DeltaEdit.splice).Pairwise fun s t => t.start ≤ s.start :=
    pairwise_map.mpr ((pairwise_sortEdits edits).imp fun hab => UInt64.le_iff_toNat_le.mp hab)
  obtain ⟨hlengths, hiff⟩ := foldl_into_eq_atOnce_iff h.apart
    (forall_mem_map.mpr fun edit _ => edit.start_le_stop) (forall_mem_map.mpr h.1) hsorted
    (startingAt_sortEdits edits)
  rw [applySemanticTokenDelta_eq hparse, hsome, Option.bind_some, deltaAnswer, deltaAnswer, ← hlengths,
    hlength]
  by_cases hfive : deltaLength previous.data.length edits % 5 = 0
  · rw [if_neg (not_not.mpr hfive), if_neg (not_not.mpr hfive), Option.some_inj, Prod.mk.injEq,
      and_iff_left rfl, hiff, forall_congr' (AlikeInTurn.iff h)]
    exact ⟨fun hall _ => hall, fun hall => hall hfive⟩
  · rw [if_pos hfive, if_pos hfive]
    exact iff_of_true rfl fun h => absurd h hfive

/-- Exactly when a delta is applied as a whole, and refused as a whole. -/
theorem semanticTokenDelta_iff (hparse : parseEdits value = some edits) :
    DeltaCorrect previous value edits ↔
      (FitsData previous edits → deltaLength previous.data.length edits % 5 = 0 →
        ∀ i, AlikeInTurn previous.data (edits.map DeltaEdit.splice) i) ∧
      ((∃ edit ∈ edits, previous.data.length < edit.stop) → Refused previous edits) :=
  and_congr (forall_congr' fun h => fits_iff hparse h)
    (imp_congr_right fun _ => applySemanticTokenDelta_eq_none_iff hparse)

end

/-! ## Two insertions, and an edit that grows into range -/

/-- Two tokens. -/
def twoTokens : SemanticTokensCache := ⟨"one", [0, 0, 3, 0, 0, 0, 4, 2, 0, 0], by decide⟩

/-- The value of an edit. -/
def DeltaEdit.toValue (edit : DeltaEdit) : SerdeValue :=
  .obj [("start", .u64 edit.start), ("deleteCount", .u64 edit.deleteCount),
    ("data", .arr (edit.data.map .u64))]

/-- The value of some edits. -/
def deltaValue (edits : List DeltaEdit) : SerdeValue :=
  .obj [("resultId", .str "two"), ("edits", .arr (edits.map DeltaEdit.toValue))]

theorem semanticTokenDelta_iff_replace :
    DeltaCorrect twoTokens (deltaValue [⟨5, 5, [1, 1, 4, 0, 0]⟩]) [⟨5, 5, [1, 1, 4, 0, 0]⟩] := by
  refine (semanticTokenDelta_iff rfl).mpr ⟨fun _ _ i => ?_, fun hbeyond => absurd hbeyond (by decide)⟩
  by_cases hi : i = 5
  · subst hi
    rw [AlikeInTurn]
    decide
  · have hnone : startingAt [DeltaEdit.splice ⟨5, 5, [1, 1, 4, 0, 0]⟩] i = [] :=
      filter_eq_nil_iff.mpr <| forall_mem_singleton.mpr fun h =>
        hi (of_decide_eq_true h).symm
    rw [AlikeInTurn, map_singleton, removingOn, insertedFirst, oldAt, removedAt_of_eq_nil hnone, hnone,
      Nat.add_zero, slice_self]
    rfl

/-- Two insertions at one start come out in reverse, and an edit beyond the ten old numbers is made when
twenty have been inserted before. -/
theorem semanticTokenDelta_wrong :
    ¬ DeltaCorrect twoTokens (deltaValue [⟨5, 0, [1, 1, 4, 0, 0]⟩, ⟨5, 0, [1, 2, 4, 0, 0]⟩])
      [⟨5, 0, [1, 1, 4, 0, 0]⟩, ⟨5, 0, [1, 2, 4, 0, 0]⟩] ∧
    ¬ DeltaCorrect twoTokens (deltaValue [⟨8, 0, List.replicate 20 0⟩, ⟨5, 10, []⟩])
      [⟨8, 0, List.replicate 20 0⟩, ⟨5, 10, []⟩] := by
  refine ⟨fun h => ?_, fun h => ?_⟩
  · have hfits : FitsData twoTokens [⟨5, 0, [1, 1, 4, 0, 0]⟩, ⟨5, 0, [1, 2, 4, 0, 0]⟩] :=
      ⟨by decide, by decide⟩
    exact absurd (h.1 hfits) (by decide)
  · exact absurd (h.2 ⟨⟨5, 10, []⟩, by decide, by decide⟩) (by decide)

end Taomni.Lsp
