import Taomni.Common.Record
import Taomni.Document.ChangeSet

/-!
# The document transaction owner

Reference: `components/editor/workspace/workspaceDocumentTransactionOwner.ts`.

The owner keeps one record per file: the canonical text, the views that hold a lease, and the two
history stacks. Stacks are listed newest first. Listeners, observers and time stamps are left out.
-/

namespace Taomni.Document

inductive DocumentTransactionOrigin where
  | userInput | composition | remoteSync | undo | redo | format | completion | refactor
  | externalDisk
deriving DecidableEq, Repr

structure SelectionRange where
  anchor : ℕ
  head : ℕ
deriving DecidableEq, Repr

structure CompletionSelectionSnapshot where
  before : SelectionRange
  after : SelectionRange
deriving DecidableEq, Repr

/-- `DocumentTransaction`. -/
structure DocumentTransaction where
  fileKey : String
  sourceViewId : String
  revision : ℤ
  changes : List DocumentChangeDelta
  origin : DocumentTransactionOrigin
  restoreSelection : Option SelectionRange
deriving DecidableEq, Repr

/-- `HistoryEntry`; the completion selection comes with the view that made it. -/
structure HistoryEntry where
  beforeText : JsString
  afterText : JsString
  forward : List DocumentChangeDelta
  inverse : List DocumentChangeDelta
  compositionSessionId : Option String
  completionSelection : Option (CompletionSelectionSnapshot × String)
deriving DecidableEq, Repr

structure DocumentRecord where
  text : JsString
  revision : ℤ
  views : List String
  undo : List HistoryEntry
  redo : List HistoryEntry
  openCompositionViewId : Option String
  openCompositionSessionId : Option String
deriving DecidableEq, Repr

def largeFileUndoDepth : ℕ := 50

def undoRetentionCharThreshold : ℕ := 512000

def canRecordHistory (origin : DocumentTransactionOrigin) : Bool := origin ≠ .remoteSync

def isHistoryReplay (origin : DocumentTransactionOrigin) : Bool := origin = .undo || origin = .redo

/-- An absent or empty string is falsy. -/
def truthy : Option String → Bool
  | some s => s ≠ ""
  | none => false

/-- Each declared deletion is the one reported at its index. -/
def declaredDeletionsMatch (changes applied : List DocumentChangeDelta) : Bool :=
  changes.zipIdx.all fun (change, index) =>
    match change.deleted with
    | none => true
    | some deleted => deleted = ((applied[index]?.bind (·.deleted)).getD [])

namespace DocumentRecord

/-- The record made by `initializeDocument`. -/
def new (text : JsString) (revision : ℤ) : DocumentRecord where
  text
  revision := max 0 revision
  views := []
  undo := []
  redo := []
  openCompositionViewId := none
  openCompositionSessionId := none

/-- `finalizeComposition`. -/
def finalizeComposition (r : DocumentRecord) (targetSessionId : Option String) : DocumentRecord :=
  if truthy targetSessionId && truthy r.openCompositionSessionId
      && r.openCompositionSessionId ≠ targetSessionId then r
  else { r with openCompositionViewId := none, openCompositionSessionId := none }

/-- `compositionCancelConsumed`: while a composition is open, another origin brings back the text
before the newest entry. -/
def cancelsComposition (r : DocumentRecord) (origin : DocumentTransactionOrigin)
    (text : JsString) : Bool :=
  origin ≠ .composition && r.openCompositionViewId.isSome
    && r.undo.head?.any fun openEntry => text = openEntry.beforeText

/-- `isSameCompositionSession`. -/
def isSameCompositionSession (r : DocumentRecord) (origin : DocumentTransactionOrigin)
    (sourceViewId : String) (compositionSessionId : Option String) : Bool :=
  origin = .composition && r.openCompositionViewId = some sourceViewId
    && (if truthy compositionSessionId then
        r.openCompositionSessionId = compositionSessionId
          && r.undo.head?.any fun lastUndo => lastUndo.compositionSessionId = compositionSessionId
      else true)

/-- The open composition entry with the net text transition. -/
def extendEntry (entry : HistoryEntry) (text : JsString) : HistoryEntry :=
  { entry with
    afterText := text
    forward := [singleReplacement entry.beforeText text]
    inverse := [singleReplacement text entry.beforeText] }

/-- The bound on the undo depth of large files. -/
def trimUndo (text : JsString) (undo : List HistoryEntry) : List HistoryEntry :=
  if undo.length > largeFileUndoDepth ∧ text.length > undoRetentionCharThreshold then
    undo.take largeFileUndoDepth
  else undo

/-- The history part of `dispatchTransaction`: extend the open composition entry or push a new
one. -/
def recordHistory (r : DocumentRecord) (beforeText : JsString) (applied : AppliedChanges)
    (sourceViewId : String) (origin : DocumentTransactionOrigin)
    (compositionSessionId : Option String)
    (completionSelection : Option CompletionSelectionSnapshot) : DocumentRecord :=
  match r.isSameCompositionSession origin sourceViewId compositionSessionId, r.undo with
  | true, lastUndo :: older =>
      let extended := extendEntry lastUndo applied.text
      let undo := if extended.beforeText = extended.afterText then older else extended :: older
      { r with undo := trimUndo applied.text undo, redo := [] }
  | _, _ =>
      let entry : HistoryEntry :=
        { beforeText
          afterText := applied.text
          forward := applied.changes
          inverse := applied.inverse
          compositionSessionId :=
            if origin = .composition && truthy compositionSessionId then compositionSessionId
            else none
          completionSelection :=
            if origin = .completion then completionSelection.map fun s => (s, sourceViewId)
            else none }
      { r with
        undo := trimUndo applied.text (entry :: r.undo)
        redo := []
        openCompositionViewId :=
          if origin = .composition then some sourceViewId else r.openCompositionViewId
        openCompositionSessionId :=
          if origin = .composition then compositionSessionId else r.openCompositionSessionId }

/-- A transaction of another origin closes the open composition, dropping an entry that it
cancels. -/
def closeComposition (r : DocumentRecord) (origin : DocumentTransactionOrigin) (text : JsString) :
    DocumentRecord :=
  if origin = .composition then r
  else
    DocumentRecord.finalizeComposition
      { r with undo := if r.cancelsComposition origin text then r.undo.tail else r.undo } none

/-- `dispatchTransaction` once the changes are applied and their deletions checked. -/
def commit (r : DocumentRecord) (applied : AppliedChanges) (sourceViewId : String)
    (origin : DocumentTransactionOrigin) (compositionSessionId : Option String)
    (completionSelection : Option CompletionSelectionSnapshot) : DocumentRecord :=
  let next := { r.closeComposition origin applied.text with text := applied.text }
  let recorded :=
    if canRecordHistory origin && !isHistoryReplay origin
        && !r.cancelsComposition origin applied.text then
      next.recordHistory r.text applied sourceViewId origin compositionSessionId completionSelection
    else next
  { recorded with revision := recorded.revision + 1 }

/-- `dispatchTransaction` on the record of the file, with the changes to publish. -/
def dispatchTransaction (changeSetOf : ChangeSetOf) (r : DocumentRecord) (sourceViewId : String)
    (changes : List DocumentChangeDelta) (origin : DocumentTransactionOrigin)
    (compositionSessionId : Option String)
    (completionSelection : Option CompletionSelectionSnapshot) :
    DocumentRecord × Option (List DocumentChangeDelta) :=
  match applyChanges changeSetOf r.text changes with
  | none => (r, none)
  | some applied =>
      if declaredDeletionsMatch changes applied.changes then
        (r.commit applied sourceViewId origin compositionSessionId completionSelection,
          some applied.changes)
      else (r, none)

/-- `replaceDocument`. -/
def replaceDocument (changeSetOf : ChangeSetOf) (r : DocumentRecord) (sourceViewId : String)
    (text : JsString) (origin : DocumentTransactionOrigin) :
    DocumentRecord × Option (List DocumentChangeDelta) :=
  if r.text = text then (r, none)
  else r.dispatchTransaction changeSetOf sourceViewId [singleReplacement r.text text] origin none
    none

/-- `undo`: the published changes and the entry that was undone. -/
def undoNewest (changeSetOf : ChangeSetOf) (r : DocumentRecord) :
    DocumentRecord × Option (List DocumentChangeDelta × HistoryEntry) :=
  let r := { r with openCompositionViewId := none, openCompositionSessionId := none }
  match r.undo with
  | [] => (r, none)
  | entry :: older =>
      if r.text ≠ entry.afterText then (r, none)
      else
        match applyChanges changeSetOf r.text entry.inverse with
        | none => (r, none)
        | some applied =>
            if applied.text ≠ entry.beforeText then (r, none)
            else
              ({ r with
                  undo := older
                  redo := entry :: r.redo
                  text := applied.text
                  revision := r.revision + 1 }, some (applied.changes, entry))

/-- `redo`: the published changes and the entry that was redone. -/
def redoNewest (changeSetOf : ChangeSetOf) (r : DocumentRecord) :
    DocumentRecord × Option (List DocumentChangeDelta × HistoryEntry) :=
  let r := { r with openCompositionViewId := none, openCompositionSessionId := none }
  match r.redo with
  | [] => (r, none)
  | entry :: older =>
      if r.text ≠ entry.beforeText then (r, none)
      else
        match applyChanges changeSetOf r.text entry.forward with
        | none => (r, none)
        | some applied =>
            if applied.text ≠ entry.afterText then (r, none)
            else
              ({ r with
                  redo := older
                  undo := entry :: r.undo
                  text := applied.text
                  revision := r.revision + 1 }, some (applied.changes, entry))

end DocumentRecord

/-! ## The owner -/

/-- `WorkspaceDocumentTransactionOwner`. -/
structure Owner where
  documentsByFile : Record DocumentRecord
  retainedFiles : List String

namespace Owner

def new : Owner := ⟨.empty, []⟩

/-- Write back the record of a file. -/
def setDocument (owner : Owner) (fileKey : String) (record : DocumentRecord) : Owner :=
  { owner with documentsByFile := owner.documentsByFile.set fileKey record }

/-- Drop the record of a file. -/
def deleteDocument (owner : Owner) (fileKey : String) : Owner :=
  { owner with documentsByFile := owner.documentsByFile.delete fileKey }

/-- `initializeDocument`: the record, whose text is never overwritten. -/
def initializeDocument (owner : Owner) (fileKey : String) (text : JsString) (revision : ℤ) :
    Owner × DocumentRecord :=
  let record :=
    match owner.documentsByFile.get? fileKey with
    | some existing => { existing with revision := max existing.revision revision }
    | none => DocumentRecord.new text revision
  (owner.setDocument fileKey record, record)

/-- `acquireView`, with the canonical text. -/
def acquireView (owner : Owner) (fileKey viewId : String) (text : JsString) (revision : ℤ) :
    Owner × JsString :=
  let (owner, record) := owner.initializeDocument fileKey text revision
  let views := if viewId ∈ record.views then record.views else record.views ++ [viewId]
  (owner.setDocument fileKey { record with views }, record.text)

def retainDocument (owner : Owner) (fileKey : String) : Owner :=
  if fileKey ∈ owner.retainedFiles then owner
  else { owner with retainedFiles := owner.retainedFiles ++ [fileKey] }

def releaseDocument (owner : Owner) (fileKey : String) : Owner :=
  let owner := { owner with retainedFiles := owner.retainedFiles.filter (· ≠ fileKey) }
  match owner.documentsByFile.get? fileKey with
  | some record => if record.views = [] then owner.deleteDocument fileKey else owner
  | none => owner

/-- `releaseView`: whether the record was dropped. -/
def releaseView (owner : Owner) (fileKey viewId : String) : Owner × Bool :=
  match owner.documentsByFile.get? fileKey with
  | none => (owner, false)
  | some record =>
      if viewId ∉ record.views then (owner, false)
      else
        let views := record.views.filter (· ≠ viewId)
        let record :=
          if record.openCompositionViewId = some viewId then
            { record with
              views, openCompositionViewId := none, openCompositionSessionId := none }
          else { record with views }
        if views ≠ [] ∨ fileKey ∈ owner.retainedFiles then
          (owner.setDocument fileKey record, false)
        else (owner.deleteDocument fileKey, true)

def setRevision (owner : Owner) (fileKey : String) (revision : ℤ) : Owner :=
  (owner.initializeDocument fileKey [] revision).1

/-- `clear` of one file; an empty key clears everything. -/
def clear (owner : Owner) (fileKey : Option String) : Owner :=
  match fileKey with
  | some key =>
      if truthy fileKey then
        { owner.deleteDocument key with
          retainedFiles := owner.retainedFiles.filter (· ≠ key) }
      else new
  | none => new

/-- `publish` after the record was updated. -/
def publish (owner : Owner) (fileKey sourceViewId : String) (record : DocumentRecord)
    (changes : Option (List DocumentChangeDelta)) (origin : DocumentTransactionOrigin) :
    Owner × Option DocumentTransaction :=
  (owner.setDocument fileKey record, changes.map fun changes =>
    { fileKey, sourceViewId, revision := record.revision, changes, origin
      restoreSelection := none })

def dispatchTransaction (changeSetOf : ChangeSetOf) (owner : Owner) (fileKey sourceViewId : String)
    (changes : List DocumentChangeDelta) (origin : DocumentTransactionOrigin)
    (compositionSessionId : Option String)
    (completionSelection : Option CompletionSelectionSnapshot) :
    Owner × Option DocumentTransaction :=
  match owner.documentsByFile.get? fileKey with
  | none => (owner, none)
  | some record =>
      let (record, published) := record.dispatchTransaction changeSetOf sourceViewId changes origin
        compositionSessionId completionSelection
      owner.publish fileKey sourceViewId record published origin

def replaceDocument (changeSetOf : ChangeSetOf) (owner : Owner) (fileKey sourceViewId : String)
    (text : JsString) (origin : DocumentTransactionOrigin) : Owner × Option DocumentTransaction :=
  match owner.documentsByFile.get? fileKey with
  | none => (owner, none)
  | some record =>
      let (record, published) := record.replaceDocument changeSetOf sourceViewId text origin
      owner.publish fileKey sourceViewId record published origin

def finalizeComposition (owner : Owner) (fileKey : String) (targetSessionId : Option String) :
    Owner :=
  match owner.documentsByFile.get? fileKey with
  | none => owner
  | some record => owner.setDocument fileKey (record.finalizeComposition targetSessionId)

/-- A replayed transaction restores the caret of the view whose completion it replays. -/
def replayed (owner : Owner) (fileKey sourceViewId : String) (record : DocumentRecord)
    (replay : Option (List DocumentChangeDelta × HistoryEntry))
    (origin : DocumentTransactionOrigin)
    (caret : CompletionSelectionSnapshot → SelectionRange) : Owner × Option DocumentTransaction :=
  (owner.setDocument fileKey record, replay.map fun (changes, entry) =>
    { fileKey, sourceViewId, revision := record.revision, changes, origin
      restoreSelection := match entry.completionSelection with
        | some (selection, view) => if view = sourceViewId then some (caret selection) else none
        | none => none })

def undo (changeSetOf : ChangeSetOf) (owner : Owner) (fileKey sourceViewId : String) :
    Owner × Option DocumentTransaction :=
  match owner.documentsByFile.get? fileKey with
  | none => (owner, none)
  | some record =>
      let (record, replay) := record.undoNewest changeSetOf
      owner.replayed fileKey sourceViewId record replay .undo (·.before)

def redo (changeSetOf : ChangeSetOf) (owner : Owner) (fileKey sourceViewId : String) :
    Owner × Option DocumentTransaction :=
  match owner.documentsByFile.get? fileKey with
  | none => (owner, none)
  | some record =>
      let (record, replay) := record.redoNewest changeSetOf
      owner.replayed fileKey sourceViewId record replay .redo (·.after)

end Owner

end Taomni.Document
