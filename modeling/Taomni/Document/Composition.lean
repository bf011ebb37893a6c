import Taomni.Document.Run

/-!
# Compositions and the undo history

Reference: `components/editor/workspace/workspaceDocumentTransactionOwner.ts`.

The owner keeps no account of who pushed an entry: that an entry belongs to the open composition is
inferred from the open view and session. `Trace` keeps that account beside a run.
-/

namespace Taomni.Document

open List

variable {changeSetOf : ChangeSetOf}

/-! ## Who pushed an entry -/

/-- A composition, with the number of those that were opened before it. -/
structure Composition where
  number : ℕ
  viewId : String
  sessionId : Option String
deriving DecidableEq

/-- For each entry of an undo stack the composition that pushed it, if it was one, and the composition
that is open. It is `cancelled` once it has popped its own entry. -/
structure Trace where
  pushers : List (Option Composition)
  opened : ℕ
  current : Option Composition
  cancelled : Bool

namespace DocumentRecord

/-- The call extends the newest entry or drops it. -/
def touchesNewest (r : DocumentRecord) (text : JsString) (sourceViewId : String)
    (origin : DocumentTransactionOrigin) (compositionSessionId : Option String) : Bool :=
  r.cancelsComposition origin text ||
    r.isSameCompositionSession origin sourceViewId compositionSessionId && !r.undo.isEmpty

end DocumentRecord

/-- The file whose text the call edits. -/
def Action.editedFile : Action → Option String
  | dispatchTransaction fileKey .. | replaceDocument fileKey .. | undo fileKey _ | redo fileKey _ =>
    some fileKey
  | _ => none

namespace Trace

def new : Trace := ⟨[], 0, none, false⟩

/-- The composition of a view and a session: the open one, or the next one. -/
def composition (g : Trace) (viewId : String) (sessionId : Option String) : Composition :=
  match g.current with
  | some c => if c.viewId = viewId ∧ c.sessionId = sessionId then c else ⟨g.opened, viewId, sessionId⟩
  | none => ⟨g.opened, viewId, sessionId⟩

/-- A transaction that gives the text. -/
def commit (g : Trace) (r : DocumentRecord) (text : JsString) (sourceViewId : String)
    (origin : DocumentTransactionOrigin) (compositionSessionId : Option String) : Trace :=
  if r.cancelsComposition origin text then { g with pushers := g.pushers.tail }
  else if r.touchesNewest text sourceViewId origin compositionSessionId then
    if r.undo.head?.any fun entry => entry.beforeText = text then
      { g with pushers := g.pushers.tail, cancelled := true }
    else g
  else if origin = .composition then
    let c := g.composition sourceViewId compositionSessionId
    ⟨some c :: g.pushers, g.opened + 1, some c, false⟩
  else if canRecordHistory origin && !isHistoryReplay origin then
    { g with pushers := none :: g.pushers }
  else g

def dispatchTransaction (changeSetOf : ChangeSetOf) (g : Trace) (r : DocumentRecord)
    (sourceViewId : String) (changes : List DocumentChangeDelta) (origin : DocumentTransactionOrigin)
    (compositionSessionId : Option String) : Trace :=
  match applyChanges changeSetOf r.text changes with
  | none => g
  | some applied =>
    if declaredDeletionsMatch changes applied.changes then
      g.commit r applied.text sourceViewId origin compositionSessionId
    else g

/-- A call on the file whose record is `r`. -/
def call (changeSetOf : ChangeSetOf) (g : Trace) (r : DocumentRecord) : Action → Trace
  | .dispatchTransaction _ sourceViewId changes origin compositionSessionId _ =>
    g.dispatchTransaction changeSetOf r sourceViewId changes origin compositionSessionId
  | .replaceDocument _ sourceViewId text origin =>
    if r.text = text then g
    else g.dispatchTransaction changeSetOf r sourceViewId [singleReplacement r.text text] origin none
  | .undo _ _ => if (r.undoNewest changeSetOf).2.isSome then { g with pushers := g.pushers.tail } else g
  | .redo _ _ => if (r.redoNewest changeSetOf).2.isSome then { g with pushers := none :: g.pushers } else g
  | _ => g

/-- The stack may have been cut, and the composition closed. -/
def follow (g : Trace) (next : DocumentRecord) : Trace :=
  { g with
    pushers := g.pushers.take next.undo.length
    current := if next.openCompositionViewId = none then none else g.current }

/-- The trace of a file after a call on the owner. A record that is made has no entries. -/
def step (changeSetOf : ChangeSetOf) (fileKey : String) (owner : Owner) (g : Trace)
    (action : Action) : Trace :=
  match owner.documentsByFile.get? fileKey,
    (owner.step changeSetOf action).documentsByFile.get? fileKey with
  | some r, some next =>
    (if action.editedFile = some fileKey then g.call changeSetOf r action else g).follow next
  | _, _ => { g with pushers := [], current := none }

/-- The trace of a file after the calls in order. -/
def run (changeSetOf : ChangeSetOf) (fileKey : String) : Owner → Trace → List Action → Trace
  | _, g, [] => g
  | owner, g, action :: rest =>
    run changeSetOf fileKey (owner.step changeSetOf action) (g.step changeSetOf fileKey owner action)
      rest

end Trace

/-! ## What a transaction does to the undo stack -/

variable {text : JsString}

namespace DocumentRecord

variable {r : DocumentRecord} {applied : AppliedChanges} {sourceViewId : String}
  {origin : DocumentTransactionOrigin} {compositionSessionId : Option String}
  {completionSelection : Option CompletionSelectionSnapshot}

theorem not_composition_of_cancels (h : r.cancelsComposition origin text = true) :
    origin ≠ .composition := by
  unfold cancelsComposition at h
  rw [Bool.and_eq_true, Bool.and_eq_true, decide_eq_true_eq] at h
  exact h.1.1

theorem not_cancels_composition (text : JsString) : r.cancelsComposition .composition text = false := by
  unfold cancelsComposition
  rfl

theorem not_same_of_ne (h : origin ≠ .composition) :
    r.isSameCompositionSession origin sourceViewId compositionSessionId = false := by
  unfold isSameCompositionSession
  rw [decide_eq_false h, Bool.false_and, Bool.false_and]

/-- Another origin than a composition closes the open one. -/
theorem commit_other (r : DocumentRecord) (applied : AppliedChanges) (sourceViewId : String)
    (compositionSessionId : Option String)
    (completionSelection : Option CompletionSelectionSnapshot) (h : origin ≠ .composition) :
    let next := r.commit applied sourceViewId origin compositionSessionId completionSelection
    next.openCompositionViewId = none ∧ next.openCompositionSessionId = none ∧
      next.text = applied.text ∧
      if r.cancelsComposition origin applied.text then next.undo = r.undo.tail
      else if canRecordHistory origin && !isHistoryReplay origin then
        ∃ entry, next.undo = trimUndo applied.text (entry :: r.undo)
      else next.undo = r.undo := by
  have hclose : r.closeComposition origin applied.text =
      { r with
        undo := if r.cancelsComposition origin applied.text then r.undo.tail else r.undo
        openCompositionViewId := none
        openCompositionSessionId := none } := by
    unfold closeComposition
    rw [if_neg h]
    rfl
  dsimp only
  unfold commit
  rw [hclose]
  dsimp only
  by_cases hcancels : r.cancelsComposition origin applied.text = true
  · rw [hcancels, Bool.not_true, Bool.and_false]
    exact ⟨rfl, rfl, rfl, rfl⟩
  · rw [Bool.not_eq_true] at hcancels
    rw [hcancels, Bool.not_false, Bool.and_true]
    by_cases hrecords : (canRecordHistory origin && !isHistoryReplay origin) = true
    · rw [hrecords]
      unfold recordHistory
      rw [if_pos rfl, not_same_of_ne h]
      exact ⟨if_neg h, if_neg h, rfl, _, rfl⟩
    · rw [Bool.not_eq_true] at hrecords
      rw [hrecords]
      exact ⟨rfl, rfl, rfl, rfl⟩

theorem commit_composition :
    r.commit applied sourceViewId .composition compositionSessionId completionSelection =
      let next := recordHistory { r with text := applied.text } r.text applied sourceViewId .composition
        compositionSessionId completionSelection
      { next with revision := next.revision + 1 } := by
  have hclose : r.closeComposition .composition applied.text = r := if_pos rfl
  have hrecords : (canRecordHistory .composition && !isHistoryReplay .composition &&
      !r.cancelsComposition .composition applied.text) = true := by
    rw [not_cancels_composition]
    rfl
  unfold commit
  rw [hclose]
  dsimp only
  rw [if_pos hrecords]

/-- A composition extends the newest entry, or drops it when the text is back at its start. -/
theorem commit_extend (applied : AppliedChanges)
    (completionSelection : Option CompletionSelectionSnapshot) {last : HistoryEntry} {older : List HistoryEntry}
    (h : r.isSameCompositionSession .composition sourceViewId compositionSessionId = true)
    (hundo : r.undo = last :: older) :
    let next := r.commit applied sourceViewId .composition compositionSessionId completionSelection
    next.openCompositionViewId = r.openCompositionViewId ∧
      next.openCompositionSessionId = r.openCompositionSessionId ∧ next.text = applied.text ∧
      next.undo = trimUndo applied.text
        (if last.beforeText = applied.text then older else extendEntry last applied.text :: older) := by
  have hsame : isSameCompositionSession { r with text := applied.text } .composition sourceViewId
      compositionSessionId = true := h
  dsimp only
  rw [commit_composition]
  unfold recordHistory
  rw [hsame]
  dsimp only
  rw [hundo]
  exact ⟨rfl, rfl, rfl, rfl⟩

/-- Or it pushes an entry and is the open composition. -/
theorem commit_open (applied : AppliedChanges) (completionSelection : Option CompletionSelectionSnapshot)
    (h : r.isSameCompositionSession .composition sourceViewId compositionSessionId = true →
      r.undo = []) :
    let next := r.commit applied sourceViewId .composition compositionSessionId completionSelection
    next.openCompositionViewId = some sourceViewId ∧
      next.openCompositionSessionId = compositionSessionId ∧ next.text = applied.text ∧
      ∃ entry, next.undo = trimUndo applied.text (entry :: r.undo) := by
  have hsame : isSameCompositionSession { r with text := applied.text } .composition sourceViewId
      compositionSessionId = r.isSameCompositionSession .composition sourceViewId
        compositionSessionId := rfl
  dsimp only
  rw [commit_composition]
  unfold recordHistory
  rw [hsame]
  dsimp only
  cases hcase : r.isSameCompositionSession .composition sourceViewId compositionSessionId with
  | false => exact ⟨rfl, rfl, rfl, _, rfl⟩
  | true =>
    rw [h hcase]
    exact ⟨rfl, rfl, rfl, _, rfl⟩

theorem length_trimUndo_le (text : JsString) (undo : List HistoryEntry) :
    (trimUndo text undo).length ≤ undo.length := by
  unfold trimUndo
  split
  · exact length_take_le' _ _
  · exact Nat.le_refl _

theorem trimUndo_ne_nil (text : JsString) {undo : List HistoryEntry} (h : undo ≠ []) :
    trimUndo text undo ≠ [] := by
  unfold trimUndo
  split
  · rw [Ne, take_eq_nil_iff, not_or]
    exact ⟨by decide, h⟩
  · exact h

end DocumentRecord

/-! ## What a call does to a record -/

/-- The entries are kept, and the open composition too or it is closed. -/
def DocumentRecord.KeepsUndo (r next : DocumentRecord) : Prop :=
  next.undo = r.undo ∧
    (next.openCompositionViewId = r.openCompositionViewId ∧
        next.openCompositionSessionId = r.openCompositionSessionId ∨
      next.openCompositionViewId = none)

theorem DocumentRecord.KeepsUndo.refl (r : DocumentRecord) : r.KeepsUndo r :=
  ⟨rfl, .inl ⟨rfl, rfl⟩⟩

/-- What a call that edits a file makes of its record. -/
def Action.edit (changeSetOf : ChangeSetOf) (r : DocumentRecord) : Action → DocumentRecord
  | dispatchTransaction _ sourceViewId changes origin compositionSessionId completionSelection =>
    (r.dispatchTransaction changeSetOf sourceViewId changes origin compositionSessionId
      completionSelection).1
  | replaceDocument _ sourceViewId text origin =>
    (r.replaceDocument changeSetOf sourceViewId text origin).1
  | undo _ _ => (r.undoNewest changeSetOf).1
  | redo _ _ => (r.redoNewest changeSetOf).1
  | _ => r

namespace Owner

variable {owner : Owner} {fileKey : String} {r next : DocumentRecord}

theorem get?_setDocument (owner : Owner) (key fileKey : String) (record : DocumentRecord) :
    (owner.setDocument key record).documentsByFile.get? fileKey =
      if fileKey = key then some record else owner.documentsByFile.get? fileKey :=
  Record.get?_set _ _ _ _

theorem get?_deleteDocument (owner : Owner) (key fileKey : String) :
    (owner.deleteDocument key).documentsByFile.get? fileKey =
      if fileKey = key then none else owner.documentsByFile.get? fileKey :=
  Record.get?_delete _ _ _

/-- A record that keeps its entries, or that is made without any. -/
def Unedited (before : Option DocumentRecord) (next : DocumentRecord) : Prop :=
  (∃ r, before = some r ∧ r.KeepsUndo next) ∨
    before = none ∧ next.undo = [] ∧ next.openCompositionViewId = none

theorem unedited_of_get? (h : owner.documentsByFile.get? fileKey = some next) :
    Unedited (owner.documentsByFile.get? fileKey) next :=
  .inl ⟨next, h, .refl next⟩

variable {key : String}

theorem unedited_setDocument {record : DocumentRecord}
    (h : Unedited (owner.documentsByFile.get? key) record)
    (hnext : (owner.setDocument key record).documentsByFile.get? fileKey = some next) :
    Unedited (owner.documentsByFile.get? fileKey) next := by
  rw [get?_setDocument] at hnext
  split at hnext
  · rename_i heq
    rw [heq, ← Option.some.inj hnext]
    exact h
  · exact unedited_of_get? hnext

theorem unedited_deleteDocument
    (hnext : (owner.deleteDocument key).documentsByFile.get? fileKey = some next) :
    Unedited (owner.documentsByFile.get? fileKey) next := by
  rw [get?_deleteDocument] at hnext
  split at hnext
  · cases hnext
  · exact unedited_of_get? hnext

theorem unedited_initialized (owner : Owner) (fileKey : String) (text : JsString) (revision : ℤ) :
    Unedited (owner.documentsByFile.get? fileKey)
      (owner.initializeDocument fileKey text revision).2 := by
  unfold initializeDocument
  dsimp only
  split
  · rename_i existing hexisting
    exact .inl ⟨existing, hexisting, rfl, .inl ⟨rfl, rfl⟩⟩
  · rename_i hnone
    exact .inr ⟨hnone, rfl, rfl⟩

theorem unedited_acquireView {viewId : String} {revision : ℤ}
    (hnext : (owner.acquireView key viewId text revision).1.documentsByFile.get? fileKey =
      some next) : Unedited (owner.documentsByFile.get? fileKey) next := by
  have hmade := unedited_initialized owner key text revision
  unfold acquireView at hnext
  dsimp only at hnext
  rw [get?_setDocument] at hnext
  split at hnext
  · rename_i heq
    rw [heq, ← Option.some.inj hnext]
    rcases hmade with ⟨r, hr, hkeeps⟩ | hnone
    · exact .inl ⟨r, hr, hkeeps⟩
    · exact .inr hnone
  · exact unedited_setDocument hmade hnext

theorem unedited_releaseView {viewId : String}
    (hnext : (owner.releaseView key viewId).1.documentsByFile.get? fileKey = some next) :
    Unedited (owner.documentsByFile.get? fileKey) next := by
  unfold releaseView at hnext
  split at hnext
  · exact unedited_of_get? hnext
  · rename_i record hrecord
    split at hnext
    · exact unedited_of_get? hnext
    · dsimp only at hnext
      split at hnext
      · refine unedited_setDocument (.inl ⟨record, hrecord, ?_⟩) hnext
        split
        · exact ⟨rfl, .inr rfl⟩
        · exact ⟨rfl, .inl ⟨rfl, rfl⟩⟩
      · exact unedited_deleteDocument hnext

theorem unedited_finalizeComposition {target : Option String}
    (hnext : (owner.finalizeComposition key target).documentsByFile.get? fileKey = some next) :
    Unedited (owner.documentsByFile.get? fileKey) next := by
  unfold finalizeComposition at hnext
  split at hnext
  · exact unedited_of_get? hnext
  · rename_i record hrecord
    refine unedited_setDocument (.inl ⟨record, hrecord, ?_⟩) hnext
    unfold DocumentRecord.finalizeComposition
    split
    · exact .refl record
    · exact ⟨rfl, .inr rfl⟩

theorem unedited_clear {key : Option String}
    (hnext : (owner.clear key).documentsByFile.get? fileKey = some next) :
    Unedited (owner.documentsByFile.get? fileKey) next := by
  unfold clear at hnext
  split at hnext
  · split at hnext
    · exact unedited_deleteDocument hnext
    · cases hnext
  · cases hnext

/-- A call that edits the record of a file. -/
theorem edited_cases {action : Action} (hedit : action.editedFile = some key)
    (hnone : owner.documentsByFile.get? key = none → owner.step changeSetOf action = owner)
    (hsome : ∀ r, owner.documentsByFile.get? key = some r →
      owner.step changeSetOf action = owner.setDocument key (action.edit changeSetOf r))
    (hnext : (owner.step changeSetOf action).documentsByFile.get? fileKey = some next) :
    (action.editedFile = some fileKey ∧
        ∃ r, owner.documentsByFile.get? fileKey = some r ∧ next = action.edit changeSetOf r) ∨
      action.editedFile ≠ some fileKey ∧ Unedited (owner.documentsByFile.get? fileKey) next := by
  cases hkey : owner.documentsByFile.get? key with
  | none =>
    rw [hnone hkey] at hnext
    refine .inr ⟨fun h => ?_, unedited_of_get? hnext⟩
    rw [← Option.some.inj (hedit.symm.trans h), hkey] at hnext
    cases hnext
  | some r =>
    rw [hsome r hkey, get?_setDocument] at hnext
    split at hnext
    · rename_i heq
      exact .inl ⟨by rw [hedit, heq], r, by rw [heq, hkey], (Option.some.inj hnext).symm⟩
    · rename_i hne
      refine .inr ⟨fun h => hne ?_, unedited_of_get? hnext⟩
      exact (Option.some.inj (hedit.symm.trans h)).symm

/-- A call edits the record, or it keeps its entries. -/
theorem step_cases {action : Action}
    (hnext : (owner.step changeSetOf action).documentsByFile.get? fileKey = some next) :
    (action.editedFile = some fileKey ∧
        ∃ r, owner.documentsByFile.get? fileKey = some r ∧ next = action.edit changeSetOf r) ∨
      action.editedFile ≠ some fileKey ∧ Unedited (owner.documentsByFile.get? fileKey) next := by
  have hunedited (hedited : action.editedFile = none)
      (h : Unedited (owner.documentsByFile.get? fileKey) next) :
      (action.editedFile = some fileKey ∧
          ∃ r, owner.documentsByFile.get? fileKey = some r ∧ next = action.edit changeSetOf r) ∨
        action.editedFile ≠ some fileKey ∧ Unedited (owner.documentsByFile.get? fileKey) next :=
    .inr ⟨fun h => Option.some_ne_none _ (h.symm.trans hedited), h⟩
  cases action with
  | initializeDocument key text revision =>
    exact hunedited rfl (unedited_setDocument (unedited_initialized owner key text revision) hnext)
  | acquireView key viewId text revision => exact hunedited rfl (unedited_acquireView hnext)
  | retainDocument key =>
    refine hunedited rfl (unedited_of_get? ?_)
    have hretain : (owner.retainDocument key).documentsByFile = owner.documentsByFile := by
      unfold retainDocument
      split <;> rfl
    exact hretain ▸ hnext
  | releaseDocument key =>
    refine hunedited rfl ?_
    change (owner.releaseDocument key).documentsByFile.get? fileKey = some next at hnext
    unfold releaseDocument at hnext
    dsimp only at hnext
    split at hnext
    · split at hnext
      · exact unedited_deleteDocument hnext
      · exact unedited_of_get? hnext
    · exact unedited_of_get? hnext
  | releaseView key viewId => exact hunedited rfl (unedited_releaseView hnext)
  | setRevision key revision =>
    exact hunedited rfl (unedited_setDocument (unedited_initialized owner key [] revision) hnext)
  | finalizeComposition key target => exact hunedited rfl (unedited_finalizeComposition hnext)
  | clear key => exact hunedited rfl (unedited_clear hnext)
  | dispatchTransaction key view changes origin session selection =>
    refine edited_cases rfl (fun hnone => ?_) (fun r hr => ?_) hnext
    · simp only [Owner.step, Owner.dispatchTransaction, hnone]
    · simp only [Owner.step, Owner.dispatchTransaction, hr, publish, Action.edit]
  | replaceDocument key view text origin =>
    refine edited_cases rfl (fun hnone => ?_) (fun r hr => ?_) hnext
    · simp only [Owner.step, Owner.replaceDocument, hnone]
    · simp only [Owner.step, Owner.replaceDocument, hr, publish, Action.edit]
  | undo key view =>
    refine edited_cases rfl (fun hnone => ?_) (fun r hr => ?_) hnext
    · simp only [Owner.step, Owner.undo, hnone]
    · simp only [Owner.step, Owner.undo, hr, replayed, Action.edit]
  | redo key view =>
    refine edited_cases rfl (fun hnone => ?_) (fun r hr => ?_) hnext
    · simp only [Owner.step, Owner.redo, hnone]
    · simp only [Owner.step, Owner.redo, hr, replayed, Action.edit]

end Owner

/-! ## The trace is kept -/

/-- The newest entry belongs to the open composition unless it has cancelled its own. -/
structure Trace.Tracks (g : Trace) (r : DocumentRecord) : Prop where
  length : g.pushers.length = r.undo.length
  view : r.openCompositionViewId = g.current.map Composition.viewId
  session : ∀ c ∈ g.current, r.openCompositionSessionId = c.sessionId
  own : ∀ c ∈ g.current, g.cancelled = false → g.pushers.head? = some (some c)

namespace Trace

open DocumentRecord

variable {g : Trace} {r next : DocumentRecord}

theorem tracks_of_closed (hlength : g.pushers.length = r.undo.length) (hcurrent : g.current = none)
    (hview : r.openCompositionViewId = none) : g.Tracks r where
  length := hlength
  view := by rw [hview, hcurrent, Option.map_none]
  session := fun c hc => by rw [hcurrent] at hc; cases hc
  own := fun c hc => by rw [hcurrent] at hc; cases hc

theorem length_take_pushers (h : next.undo.length ≤ g.pushers.length) :
    (g.follow next).pushers.length = next.undo.length := by
  show (g.pushers.take next.undo.length).length = _
  rw [length_take, Nat.min_eq_left h]

theorem follow_closed (hlength : next.undo.length ≤ g.pushers.length)
    (hview : next.openCompositionViewId = none) : (g.follow next).Tracks next :=
  tracks_of_closed (length_take_pushers hlength) (if_pos hview) hview

theorem follow_open (hlength : next.undo.length ≤ g.pushers.length) {c : Composition}
    (hcurrent : g.current = some c) (hview : next.openCompositionViewId = some c.viewId)
    (hsession : next.openCompositionSessionId = c.sessionId)
    (hown : g.cancelled = false → g.pushers.head? = some (some c) ∧ next.undo ≠ []) :
    (g.follow next).Tracks next := by
  have hfollow : (g.follow next).current = some c := by
    show (if _ then _ else _) = _
    rw [hview, if_neg (Option.some_ne_none _), hcurrent]
  refine ⟨length_take_pushers hlength, ?_, fun c' hc' => ?_, fun c' hc' hlive => ?_⟩
  · rw [hview, hfollow, Option.map_some]
  · rw [hfollow] at hc'
    obtain rfl := Option.some.inj hc'
    exact hsession
  · rw [hfollow] at hc'
    obtain rfl := Option.some.inj hc'
    obtain ⟨hhead, hne⟩ := hown hlive
    show (g.pushers.take next.undo.length).head? = _
    rw [head?_take, if_neg (mt length_eq_zero_iff.mp hne), hhead]

/-- A call that keeps the entries, and the composition or closes it. -/
theorem Tracks.follow (h : g.Tracks r) (hundo : next.undo = r.undo)
    (hopen : next.openCompositionViewId = r.openCompositionViewId ∧
      next.openCompositionSessionId = r.openCompositionSessionId ∨
      next.openCompositionViewId = none) : (g.follow next).Tracks next := by
  have hlength : next.undo.length ≤ g.pushers.length := by rw [hundo, h.length]
  rcases hopen with ⟨hview, hsession⟩ | hnone
  · cases hcurrent : g.current with
    | none =>
      refine follow_closed hlength ?_
      rw [hview, h.view, hcurrent, Option.map_none]
    | some c =>
      refine follow_open hlength hcurrent ?_ (hsession.trans (h.session c hcurrent)) fun hlive => ?_
      · rw [hview, h.view, hcurrent, Option.map_some]
      · have hhead := h.own c hcurrent hlive
        refine ⟨hhead, fun hnil => ?_⟩
        rw [hundo, ← length_eq_zero_iff, ← h.length, length_eq_zero_iff] at hnil
        rw [hnil] at hhead
        cases hhead
  · exact follow_closed hlength hnone

variable {applied : AppliedChanges} {sourceViewId : String} {origin : DocumentTransactionOrigin}
  {compositionSessionId : Option String} {completionSelection : Option CompletionSelectionSnapshot}

theorem commit_of_other (h : origin ≠ .composition) :
    g.commit r applied.text sourceViewId origin compositionSessionId =
      if r.cancelsComposition origin applied.text then { g with pushers := g.pushers.tail }
      else if canRecordHistory origin && !isHistoryReplay origin then
        { g with pushers := none :: g.pushers }
      else g := by
  unfold commit touchesNewest
  rw [not_same_of_ne h, Bool.false_and, Bool.or_false]
  split <;> rfl

theorem composition_viewId (g : Trace) (viewId : String) (sessionId : Option String) :
    (g.composition viewId sessionId).viewId = viewId ∧
      (g.composition viewId sessionId).sessionId = sessionId := by
  unfold composition
  split
  · split
    · assumption
    · exact ⟨rfl, rfl⟩
  · exact ⟨rfl, rfl⟩

theorem commit_of_extend {last : HistoryEntry} {older : List HistoryEntry}
    (h : r.isSameCompositionSession .composition sourceViewId compositionSessionId = true)
    (hundo : r.undo = last :: older) :
    g.commit r applied.text sourceViewId .composition compositionSessionId =
      if last.beforeText = applied.text then
        { g with pushers := g.pushers.tail, cancelled := true }
      else g := by
  unfold commit touchesNewest
  rw [not_cancels_composition, h, hundo, if_neg Bool.false_ne_true,
    show (false || true && !(last :: older).isEmpty) = true from rfl, if_pos rfl]
  exact if_congr decide_eq_true_iff rfl rfl

theorem commit_of_open
    (h : r.isSameCompositionSession .composition sourceViewId compositionSessionId = true →
      r.undo = []) : g.commit r applied.text sourceViewId .composition compositionSessionId =
      let c := g.composition sourceViewId compositionSessionId
      ⟨some c :: g.pushers, g.opened + 1, some c, false⟩ := by
  have htouches : r.touchesNewest applied.text sourceViewId .composition compositionSessionId =
      false := by
    unfold touchesNewest
    rw [not_cancels_composition, Bool.false_or, Bool.and_eq_false_imp]
    intro hsame
    rw [h hsame]
    rfl
  unfold commit
  rw [not_cancels_composition, htouches, if_neg Bool.false_ne_true, if_neg Bool.false_ne_true,
    if_pos rfl]

theorem Tracks.commit (h : g.Tracks r) (applied : AppliedChanges) (sourceViewId : String)
    (origin : DocumentTransactionOrigin) (compositionSessionId : Option String)
    (completionSelection : Option CompletionSelectionSnapshot) :
    let next := r.commit applied sourceViewId origin compositionSessionId completionSelection
    ((g.commit r applied.text sourceViewId origin compositionSessionId).follow next).Tracks next := by
  dsimp only
  by_cases horigin : origin = .composition
  swap
  · obtain ⟨hview, -, -, hundo⟩ :=
      commit_other r applied sourceViewId compositionSessionId completionSelection horigin
    refine follow_closed ?_ hview
    rw [commit_of_other horigin]
    split at hundo
    · rename_i hcancels
      rw [if_pos hcancels, hundo]
      show _ ≤ g.pushers.tail.length
      rw [length_tail, length_tail, h.length]
    · rename_i hcancels
      rw [if_neg hcancels]
      split at hundo
      · rename_i hrecords
        obtain ⟨entry, hundo⟩ := hundo
        rw [if_pos hrecords, hundo]
        refine (length_trimUndo_le _ _).trans ?_
        rw [length_cons, length_cons, h.length]
      · rename_i hrecords
        rw [if_neg hrecords, hundo, h.length]
  subst horigin
  by_cases hopen : r.isSameCompositionSession .composition sourceViewId compositionSessionId = true →
      r.undo = []
  · -- The composition is opened, or goes on with an entry of its own.
    obtain ⟨hview, hsession, -, entry, hundo⟩ := commit_open applied completionSelection hopen
    obtain ⟨hviewId, hsessionId⟩ := composition_viewId g sourceViewId compositionSessionId
    rw [commit_of_open hopen]
    refine follow_open ?_ rfl (hview.trans (congrArg some hviewId.symm))
      (hsession.trans hsessionId.symm) fun _ => ⟨rfl, ?_⟩
    · rw [hundo]
      refine (length_trimUndo_le _ _).trans ?_
      rw [length_cons, length_cons, h.length]
    · rw [hundo]
      exact trimUndo_ne_nil _ (cons_ne_nil _ _)
  · obtain ⟨hsame, hne⟩ := Classical.not_imp.mp hopen
    obtain ⟨last, older, hundo⟩ := exists_cons_of_ne_nil hne
    obtain ⟨hview, hsession, -, hnext⟩ := commit_extend applied completionSelection hsame hundo
    obtain ⟨c, hcurrent, hviewId⟩ : ∃ c, g.current = some c ∧
        r.openCompositionViewId = some c.viewId := by
      unfold isSameCompositionSession at hsame
      rw [Bool.and_eq_true, Bool.and_eq_true, decide_eq_true_eq, decide_eq_true_eq] at hsame
      have hsome := hsame.1.2
      rw [h.view, Option.map_eq_some_iff] at hsome
      obtain ⟨c, hc, -⟩ := hsome
      exact ⟨c, hc, by rw [h.view, hc, Option.map_some]⟩
    rw [commit_of_extend hsame hundo]
    split
    · rename_i hback
      rw [if_pos hback] at hnext
      refine follow_open ?_ hcurrent (hview.trans hviewId)
        (hsession.trans (h.session c hcurrent)) fun hlive => absurd hlive.symm Bool.false_ne_true
      rw [hnext]
      refine (length_trimUndo_le _ _).trans ?_
      show _ ≤ g.pushers.tail.length
      rw [length_tail, h.length, hundo, length_cons, Nat.add_sub_cancel]
    · rename_i hback
      rw [if_neg hback] at hnext
      refine follow_open ?_ hcurrent (hview.trans hviewId)
        (hsession.trans (h.session c hcurrent)) fun hlive => ⟨h.own c hcurrent hlive, ?_⟩
      · rw [hnext]
        refine (length_trimUndo_le _ _).trans ?_
        rw [h.length, hundo, length_cons, length_cons]
      · rw [hnext]
        exact trimUndo_ne_nil _ (cons_ne_nil _ _)

theorem Tracks.dispatchTransaction (h : g.Tracks r) (sourceViewId : String)
    (changes : List DocumentChangeDelta) (origin : DocumentTransactionOrigin)
    (compositionSessionId : Option String) (completionSelection : Option CompletionSelectionSnapshot) :
    let next := (r.dispatchTransaction changeSetOf sourceViewId changes origin compositionSessionId
      completionSelection).1
    ((g.dispatchTransaction changeSetOf r sourceViewId changes origin
      compositionSessionId).follow next).Tracks next := by
  dsimp only
  unfold DocumentRecord.dispatchTransaction Trace.dispatchTransaction
  cases applyChanges changeSetOf r.text changes with
  | none => exact h.follow rfl (.inl ⟨rfl, rfl⟩)
  | some applied =>
    dsimp only
    split
    · exact h.commit applied sourceViewId origin compositionSessionId completionSelection
    · exact h.follow rfl (.inl ⟨rfl, rfl⟩)

theorem undoNewest_cases (changeSetOf : ChangeSetOf) (r : DocumentRecord) :
    let result := r.undoNewest changeSetOf
    result.1.openCompositionViewId = none ∧
      (result.2 = none ∧ result.1.undo = r.undo ∨
        result.2.isSome = true ∧ result.1.undo = r.undo.tail) := by
  dsimp only
  unfold undoNewest
  dsimp only
  cases r.undo with
  | nil => exact ⟨rfl, .inl ⟨rfl, rfl⟩⟩
  | cons entry older =>
    dsimp only
    by_cases htext : r.text ≠ entry.afterText
    · rw [if_pos htext]
      exact ⟨rfl, .inl ⟨rfl, rfl⟩⟩
    · rw [if_neg htext]
      cases applyChanges changeSetOf r.text entry.inverse with
      | none => exact ⟨rfl, .inl ⟨rfl, rfl⟩⟩
      | some applied =>
        dsimp only
        by_cases hback : applied.text ≠ entry.beforeText
        · rw [if_pos hback]
          exact ⟨rfl, .inl ⟨rfl, rfl⟩⟩
        · rw [if_neg hback]
          exact ⟨rfl, .inr ⟨rfl, rfl⟩⟩

theorem redoNewest_cases (changeSetOf : ChangeSetOf) (r : DocumentRecord) :
    let result := r.redoNewest changeSetOf
    result.1.openCompositionViewId = none ∧
      (result.2 = none ∧ result.1.undo = r.undo ∨
        result.2.isSome = true ∧ ∃ entry, result.1.undo = entry :: r.undo) := by
  dsimp only
  unfold redoNewest
  dsimp only
  cases r.redo with
  | nil => exact ⟨rfl, .inl ⟨rfl, rfl⟩⟩
  | cons entry later =>
    dsimp only
    by_cases htext : r.text ≠ entry.beforeText
    · rw [if_pos htext]
      exact ⟨rfl, .inl ⟨rfl, rfl⟩⟩
    · rw [if_neg htext]
      cases applyChanges changeSetOf r.text entry.forward with
      | none => exact ⟨rfl, .inl ⟨rfl, rfl⟩⟩
      | some applied =>
        dsimp only
        by_cases hafter : applied.text ≠ entry.afterText
        · rw [if_pos hafter]
          exact ⟨rfl, .inl ⟨rfl, rfl⟩⟩
        · rw [if_neg hafter]
          exact ⟨rfl, .inr ⟨rfl, _, rfl⟩⟩

theorem Tracks.call (h : g.Tracks r) (action : Action) : let next := action.edit changeSetOf r
    ((g.call changeSetOf r action).follow next).Tracks next := by
  dsimp only
  cases action with
  | dispatchTransaction _ view changes origin session selection =>
    exact h.dispatchTransaction view changes origin session selection
  | replaceDocument _ view text origin =>
    unfold Trace.call Action.edit DocumentRecord.replaceDocument
    dsimp only
    split
    · exact h.follow rfl (.inl ⟨rfl, rfl⟩)
    · exact h.dispatchTransaction view _ origin none none
  | undo _ _ =>
    obtain ⟨hview, hundo⟩ := undoNewest_cases changeSetOf r
    refine follow_closed ?_ hview
    unfold Trace.call Action.edit
    dsimp only
    rcases hundo with ⟨hnone, hundo⟩ | ⟨hsome, hundo⟩
    · rw [hnone, hundo]
      exact h.length.ge
    · rw [if_pos hsome, hundo]
      show _ ≤ g.pushers.tail.length
      rw [length_tail, length_tail, h.length]
  | redo _ _ =>
    obtain ⟨hview, hundo⟩ := redoNewest_cases changeSetOf r
    refine follow_closed ?_ hview
    unfold Trace.call Action.edit
    dsimp only
    rcases hundo with ⟨hnone, hundo⟩ | ⟨hsome, entry, hundo⟩
    · rw [hnone, hundo]
      exact h.length.ge
    · rw [if_pos hsome, hundo, length_cons, length_cons, h.length]
  | _ => exact h.follow rfl (.inl ⟨rfl, rfl⟩)

/-- The step lemma. -/
theorem tracks_step {owner : Owner} {fileKey : String} (action : Action)
    (h : ∀ r, owner.documentsByFile.get? fileKey = some r → g.Tracks r)
    (hnext : (owner.step changeSetOf action).documentsByFile.get? fileKey = some next) :
    (g.step changeSetOf fileKey owner action).Tracks next := by
  unfold step
  rcases Owner.step_cases hnext with ⟨hedited, r, hr, rfl⟩ | ⟨hedited, ⟨r, hr, hundo, hopen⟩ | hmade⟩
  · rw [hr, hnext]
    dsimp only
    rw [if_pos hedited]
    exact (h r hr).call action
  · rw [hr, hnext]
    dsimp only
    rw [if_neg hedited]
    exact (h r hr).follow hundo hopen
  · obtain ⟨hnone, hundo, hview⟩ := hmade
    rw [hnone]
    refine tracks_of_closed ?_ rfl hview
    rw [hundo]
    rfl

/-- The run lemma. -/
theorem tracks_run {fileKey : String} (actions : List Action) {owner : Owner}
    (h : ∀ r, owner.documentsByFile.get? fileKey = some r → g.Tracks r)
    (hr : (owner.run changeSetOf actions).documentsByFile.get? fileKey = some r) :
    (run changeSetOf fileKey owner g actions).Tracks r := by
  induction actions generalizing owner g with
  | nil => exact h r hr
  | cons action rest ih => exact ih (fun _ => tracks_step action h) hr

end Trace

/-! ## Entries of others -/

/-- The newest entry was pushed by the open composition, and a composition transaction is of its view
and of its session when it gives one. -/
def Trace.OwnsNewest (g : Trace) (sourceViewId : String) (origin : DocumentTransactionOrigin)
    (compositionSessionId : Option String) : Prop :=
  ∃ c, g.pushers.head? = some (some c) ∧ g.current = some c ∧
    (origin = .composition → c.viewId = sourceViewId ∧
      (truthy compositionSessionId = true → c.sessionId = compositionSessionId))

/-- Entries are kept but for the oldest ones beyond the bound and one of the open composition. -/
def Trace.KeepsForeign (g : Trace) (r next : DocumentRecord) (sourceViewId : String)
    (origin : DocumentTransactionOrigin) (compositionSessionId : Option String) : Prop :=
  ∃ pushed kept, pushed.length ≤ 1 ∧
    (next.undo = pushed ++ kept ∨
      next.undo = DocumentRecord.trimUndo next.text (pushed ++ kept)) ∧
    (kept = r.undo ∨
      kept = r.undo.tail ∧ g.OwnsNewest sourceViewId origin compositionSessionId)

/-- A call that touches the newest entry finds the open composition. -/
theorem Trace.Tracks.ownsNewest {g : Trace} {r : DocumentRecord} (h : g.Tracks r)
    (hlive : g.cancelled = false) {sourceViewId : String}
    {origin : DocumentTransactionOrigin} {compositionSessionId : Option String}
    (htouches : r.touchesNewest text sourceViewId origin compositionSessionId = true) :
    g.OwnsNewest sourceViewId origin compositionSessionId := by
  unfold DocumentRecord.touchesNewest at htouches
  rw [Bool.or_eq_true, Bool.and_eq_true] at htouches
  rcases htouches with hcancels | ⟨hsame, -⟩
  · have hne := DocumentRecord.not_composition_of_cancels hcancels
    unfold DocumentRecord.cancelsComposition at hcancels
    rw [Bool.and_eq_true, Bool.and_eq_true, h.view, Option.isSome_map] at hcancels
    obtain ⟨c, hc⟩ := Option.isSome_iff_exists.mp hcancels.1.2
    exact ⟨c, h.own c hc hlive, hc, fun horigin => absurd horigin hne⟩
  · unfold DocumentRecord.isSameCompositionSession at hsame
    rw [Bool.and_eq_true, Bool.and_eq_true, decide_eq_true_eq, decide_eq_true_eq, h.view,
      Option.map_eq_some_iff] at hsame
    obtain ⟨⟨-, c, hc, hview⟩, hsession⟩ := hsame
    refine ⟨c, h.own c hc hlive, hc, fun _ => ⟨hview, fun hgiven => ?_⟩⟩
    rw [if_pos hgiven, Bool.and_eq_true, decide_eq_true_eq, h.session c hc] at hsession
    exact hsession.1

theorem Trace.Tracks.keepsForeign {g : Trace} {r : DocumentRecord} (h : g.Tracks r)
    (applied : AppliedChanges) (sourceViewId : String) (origin : DocumentTransactionOrigin)
    (compositionSessionId : Option String) (completionSelection : Option CompletionSelectionSnapshot)
    (hcond : g.cancelled = true →
      r.touchesNewest applied.text sourceViewId origin compositionSessionId = false) : g.KeepsForeign r
      (r.commit applied sourceViewId origin compositionSessionId completionSelection) sourceViewId
      origin compositionSessionId := by
  have howns (htouches : r.touchesNewest applied.text sourceViewId origin compositionSessionId = true) :
      g.OwnsNewest sourceViewId origin compositionSessionId := by
    refine h.ownsNewest (Bool.eq_false_iff.mpr fun hcancelled => ?_) htouches
    rw [hcond hcancelled] at htouches
    exact Bool.false_ne_true htouches
  by_cases horigin : origin = .composition
  · subst horigin
    by_cases hopen : r.isSameCompositionSession .composition sourceViewId compositionSessionId =
        true → r.undo = []
    · obtain ⟨-, -, htext, entry, hundo⟩ :=
        DocumentRecord.commit_open applied completionSelection hopen
      exact ⟨[entry], r.undo, Nat.le_refl _, .inr (by rw [hundo, htext]; rfl), .inl rfl⟩
    · obtain ⟨hsame, hne⟩ := Classical.not_imp.mp hopen
      obtain ⟨last, older, hundo⟩ := exists_cons_of_ne_nil hne
      obtain ⟨-, -, htext, hnext⟩ :=
        DocumentRecord.commit_extend applied completionSelection hsame hundo
      have hkept : older = r.undo.tail ∧
          g.OwnsNewest sourceViewId .composition compositionSessionId := by
        refine ⟨by rw [hundo, tail_cons], howns ?_⟩
        unfold DocumentRecord.touchesNewest
        rw [hsame, hundo]
        exact Bool.or_true _
      rw [← htext] at hnext
      split at hnext
      · exact ⟨[], older, Nat.zero_le _, .inr hnext, .inr hkept⟩
      · exact ⟨[_], older, Nat.le_refl _, .inr hnext, .inr hkept⟩
  · obtain ⟨-, -, htext, hundo⟩ := DocumentRecord.commit_other r applied sourceViewId
      compositionSessionId completionSelection horigin
    split at hundo
    · rename_i hcancels
      refine ⟨[], r.undo.tail, Nat.zero_le _, .inl hundo, .inr ⟨rfl, howns ?_⟩⟩
      unfold DocumentRecord.touchesNewest
      rw [hcancels, Bool.true_or]
    · split at hundo
      · obtain ⟨entry, hundo⟩ := hundo
        exact ⟨[entry], r.undo, Nat.le_refl _, .inr (by rw [hundo, htext]; rfl), .inl rfl⟩
      · exact ⟨[], r.undo, Nat.zero_le _, .inl hundo, .inl rfl⟩

theorem Trace.tracks_new (fileKey : String) (actions : List Action) {r : DocumentRecord}
    (hr : (Owner.new.run changeSetOf actions).documentsByFile.get? fileKey = some r) :
    (Trace.run changeSetOf fileKey Owner.new Trace.new actions).Tracks r :=
  tracks_run actions (fun r h => by cases h) hr

/-- After every run a transaction keeps the entries of others, when it does not touch the newest entry
after the open composition has cancelled its own. -/
theorem dispatchTransaction_keeps_foreign (actions : List Action) (fileKey : String) (r : DocumentRecord)
    (hr : (Owner.new.run changeSetOf actions).documentsByFile.get? fileKey = some r)
    (sourceViewId : String) (changes : List DocumentChangeDelta) (origin : DocumentTransactionOrigin)
    (compositionSessionId : Option String) (completionSelection : Option CompletionSelectionSnapshot) :
    let g := Trace.run changeSetOf fileKey Owner.new Trace.new actions
    (g.cancelled = true → ∀ applied, applyChanges changeSetOf r.text changes = some applied →
      r.touchesNewest applied.text sourceViewId origin compositionSessionId = false) →
    g.KeepsForeign r
      (r.dispatchTransaction changeSetOf sourceViewId changes origin compositionSessionId
        completionSelection).1 sourceViewId origin compositionSessionId := by
  intro g hcond
  have htracks : g.Tracks r := Trace.tracks_new fileKey actions hr
  unfold DocumentRecord.dispatchTransaction
  cases happlied : applyChanges changeSetOf r.text changes with
  | none => exact ⟨[], r.undo, Nat.zero_le _, .inl rfl, .inl rfl⟩
  | some applied =>
    dsimp only
    split
    · exact htracks.keepsForeign applied sourceViewId origin compositionSessionId
        completionSelection fun hcancelled => hcond hcancelled applied happlied
    · exact ⟨[], r.undo, Nat.zero_le _, .inl rfl, .inl rfl⟩

/-- A typed letter, and a composition that is taken back. -/
def cancelledRun : List Action :=
  [.acquireView "f" "v" [] 0,
    .dispatchTransaction "f" "v" [⟨0, 0, .ascii "x", none⟩] .userInput none none,
    .dispatchTransaction "f" "v" [⟨1, 1, .ascii "a", none⟩] .composition none none,
    .dispatchTransaction "f" "v" [⟨1, 2, [], none⟩] .composition none none]

/-- A typed letter, and a composition. -/
def composedRun : List Action :=
  [.acquireView "f" "v" [] 0,
    .dispatchTransaction "f" "v" [⟨0, 0, .ascii "x", none⟩] .userInput none none,
    .dispatchTransaction "f" "v" [⟨1, 1, .ascii "a", none⟩] .composition none none]

theorem dispatchTransaction_keeps_foreign_composedRun :
    ∃ r, (Owner.new.run sortedChangeSet composedRun).documentsByFile.get? "f" = some r ∧
      (Trace.run sortedChangeSet "f" Owner.new Trace.new composedRun).KeepsForeign r
        (r.dispatchTransaction sortedChangeSet "v" [⟨2, 2, .ascii "b", none⟩] .composition none none).1
        "v" .composition none := by
  have hsome : ((Owner.new.run sortedChangeSet composedRun).documentsByFile.get? "f").isSome := by
    decide
  obtain ⟨r, hr⟩ := Option.isSome_iff_exists.mp hsome
  refine ⟨r, hr, dispatchTransaction_keeps_foreign composedRun "f" r hr _ _ _ _ _ fun h => ?_⟩
  have hlive : (Trace.run sortedChangeSet "f" Owner.new Trace.new composedRun).cancelled = false := by
    decide
  exact absurd (h.symm.trans hlive) (by decide)

/-- The next composition transaction writes over the typed letter's entry. -/
theorem cancelled_composition_rewrites_foreign :
    ∃ r, (Owner.new.run sortedChangeSet cancelledRun).documentsByFile.get? "f" = some r ∧
      ¬(Trace.run sortedChangeSet "f" Owner.new Trace.new cancelledRun).KeepsForeign r
        (r.dispatchTransaction sortedChangeSet "v" [⟨1, 1, .ascii "b", none⟩] .composition none none).1
        "v" .composition none := by
  have hany : ((Owner.new.run sortedChangeSet cancelledRun).documentsByFile.get? "f").any fun r =>
      let next := (r.dispatchTransaction sortedChangeSet "v" [⟨1, 1, .ascii "b", none⟩]
        .composition none none).1
      decide (r.undo.length = 1 ∧ next.undo.length = 1 ∧ next.undo ≠ r.undo) := by
    decide
  have hpushers : (Trace.run sortedChangeSet "f" Owner.new Trace.new cancelledRun).pushers.head? =
      some none := by
    decide
  obtain ⟨r, hr, hdecide⟩ := (Option.any_eq_true _ _).mp hany
  obtain ⟨hlength, hnext, hne⟩ := of_decide_eq_true hdecide
  refine ⟨r, hr, ?_⟩
  rintro ⟨pushed, kept, hpushed, hundo, hkept⟩
  rcases hkept with rfl | ⟨-, c, hc, -⟩
  · have hshort : (pushed ++ r.undo).length ≤ largeFileUndoDepth := by
      rw [length_append, hlength]
      exact (Nat.add_le_add_right hpushed 1).trans (by decide)
    have htrim := hundo.elim id fun h => h.trans (if_neg fun hdeep => absurd hdeep.1 hshort.not_gt)
    have hnil : pushed.length = 0 := by
      have hlengths := congrArg List.length htrim
      rw [length_append, hlength, hnext] at hlengths
      omega
    rw [length_eq_zero_iff.mp hnil, nil_append] at htrim
    exact hne htrim
  · rw [hpushers] at hc
    cases hc

end Taomni.Document
