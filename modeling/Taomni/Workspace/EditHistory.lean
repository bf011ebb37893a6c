import Mathlib.Data.List.ReduceOption
import Taomni.Common.Fallible
import Taomni.Common.Record
import Taomni.Common.Runs
import Taomni.Lsp.TextEdits

/-!
# Inverting workspace edits

Reference: `components/editor/workspace/workspaceEditHistory.ts`.

An undo or a redo is a workspace edit built from two captures of the same files. It removes first,
creates then, and writes texts last; each text is written as one edit over the whole current text.
Operations on different paths never meet, so the edit is followed at one path at a time
(`buildWorkspacePathSnapshotEdit_captures`).
-/

namespace Taomni.WorkspaceEditHistory

open List
open Lsp

/-- `WorkspaceEditTextSnapshot`. -/
structure WorkspaceEditTextSnapshot where
  path : String
  text : JsString
deriving DecidableEq, Repr

/-- `WorkspaceEditPathSnapshot`; a file has a text, other resources have none. -/
structure WorkspaceEditPathSnapshot where
  path : String
  exists' : Bool
  text : Option JsString
deriving DecidableEq, Repr

/-- `LspFileTextEdits`. -/
structure LspFileTextEdits where
  path : String
  edits : List LspTextEdit
deriving DecidableEq, Repr

/-- `LspWorkspaceEditOperation`, without renames. -/
inductive LspWorkspaceEditOperation where
  | text (document : LspFileTextEdits)
  | create (path : String) (overwrite ignoreIfExists : Bool)
  | delete (path : String) (recursive ignoreIfNotExists : Bool)
deriving DecidableEq, Repr

/-- `LspWorkspaceEdit`. -/
structure LspWorkspaceEdit where
  documentEdits : List LspFileTextEdits
  operations : List LspWorkspaceEditOperation
deriving DecidableEq, Repr

/-! ## Building the edit -/

/-- `fullDocumentEnd`. -/
def fullDocumentEnd (text : JsString) : LspPosition :=
  let lines := splitTokens (tokens text)
  { line := max 0 ((lines.length : ℤ) - 1)
    character := (lines.getLast?.map List.length).getD 0 }

/-- The edit of both builders: the whole of `currentText` becomes `newText`. -/
def replaceDocument (path : String) (currentText newText : JsString) : LspFileTextEdits where
  path := path
  edits := [{ range := { start := ⟨0, 0⟩, stop := fullDocumentEnd currentText }, newText }]

/-- The document of one text snapshot. -/
def textSnapshotDocument (currentByPath : Record JsString) (snapshot : WorkspaceEditTextSnapshot) :
    Except String LspFileTextEdits :=
  match currentByPath.get? snapshot.path with
  | none => .error ("Cannot replace missing workspace history path: " ++ snapshot.path)
  | some currentText => .ok (replaceDocument snapshot.path currentText snapshot.text)

/-- `buildWorkspaceTextSnapshotEdit`. -/
def buildWorkspaceTextSnapshotEdit
    (currentSnapshots targetSnapshots : List WorkspaceEditTextSnapshot) :
    Except String LspWorkspaceEdit := do
  let currentByPath := Record.ofEntries
    (currentSnapshots.map fun snapshot => (snapshot.path, snapshot.text))
  let documents ← targetSnapshots.mapM (textSnapshotDocument currentByPath)
  return { documentEdits := documents, operations := documents.map .text }

/-- The state of a target before the edit; the first loop refuses a target without one. -/
def currentState (currentByPath : Record WorkspaceEditPathSnapshot)
    (target : WorkspaceEditPathSnapshot) :
    Except String (WorkspaceEditPathSnapshot × WorkspaceEditPathSnapshot) :=
  match currentByPath.get? target.path with
  | none => .error ("Missing current workspace history state for " ++ target.path)
  | some current => .ok (current, target)

/-- A round of the first loop. -/
def deleteOperation (current target : WorkspaceEditPathSnapshot) :
    Option LspWorkspaceEditOperation :=
  if current.exists' && !target.exists' then some (.delete target.path false false) else none

/-- A round of the second loop. -/
def createOperation (current target : WorkspaceEditPathSnapshot) :
    Option LspWorkspaceEditOperation :=
  if !current.exists' && target.exists' then some (.create target.path false false) else none

/-- A round of the third loop. -/
def textDocument (current target : WorkspaceEditPathSnapshot) :
    Except String (Option LspFileTextEdits) :=
  if !target.exists' then .ok none
  else
    match target.text with
    | none =>
        .error ("Workspace history cannot restore a non-file resource: " ++ target.path)
    | some targetText =>
        match if current.exists' then current.text else some [] with
        | none =>
            .error ("Workspace history cannot replace a non-file resource: " ++ target.path)
        | some currentText =>
            .ok (if currentText = targetText then none
              else some (replaceDocument target.path currentText targetText))

/-- `buildWorkspacePathSnapshotEdit`. -/
def buildWorkspacePathSnapshotEdit
    (currentSnapshots targetSnapshots : List WorkspaceEditPathSnapshot) :
    Except String LspWorkspaceEdit := do
  let currentByPath := Record.ofEntries
    (currentSnapshots.map fun snapshot => (snapshot.path, snapshot))
  let states ← targetSnapshots.mapM (currentState currentByPath)
  let documents ← states.mapM fun state => textDocument state.1 state.2
  return {
    documentEdits := documents.reduceOption
    operations := states.filterMap (fun state => deleteOperation state.1 state.2)
      ++ states.filterMap (fun state => createOperation state.1 state.2)
      ++ documents.reduceOption.map .text }

/-! ## Applying it -/

/-- A map from paths to the texts of the files there. -/
abbrev Files := String → Option JsString

namespace LspWorkspaceEditOperation

def path : LspWorkspaceEditOperation → String
  | text document => document.path
  | create path _ _ => path
  | delete path _ _ => path

/-- The operation on what is at its path; without the flags a file is created where there is none and
deleted where there is one. -/
def apply : LspWorkspaceEditOperation → Option JsString → Option (Option JsString)
  | text document, some content => some (some (applyLspTextEditsToString content document.edits))
  | text _, none => none
  | create _ _ _, none => some (some [])
  | create _ overwrite ignoreIfExists, some content =>
      if overwrite then some (some []) else if ignoreIfExists then some (some content) else none
  | delete _ _ _, some _ => some none
  | delete _ _ ignoreIfNotExists, none => if ignoreIfNotExists then some none else none

end LspWorkspaceEditOperation

/-- The operations in order; `none` once one fails. -/
def applyOperations (files : Files) (operations : List LspWorkspaceEditOperation) : Option Files :=
  runKeyed LspWorkspaceEditOperation.path LspWorkspaceEditOperation.apply files operations

/-- What a snapshot says is at its path. -/
def WorkspaceEditPathSnapshot.file (snapshot : WorkspaceEditPathSnapshot) : Option JsString :=
  if snapshot.exists' then snapshot.text else none

/-- The files of a list of snapshots. -/
def snapshotFiles (snapshots : List WorkspaceEditPathSnapshot) : Files := fun path =>
  (snapshots.find? fun snapshot => snapshot.path = path).bind WorkspaceEditPathSnapshot.file

/-! ## The whole of a text -/

theorem offset_fullDocumentEnd (text : JsString) :
    offsetFromLspPositionInString text (fullDocumentEnd text) = text.length := by
  have hwhole : ¬ SplitsCrlf text text.length := by
    rintro ⟨-, -, hlf⟩
    rw [getElem?_eq_none le_rfl] at hlf
    cases hlf
  obtain ⟨line, character, hreads⟩ := exists_reads le_rfl hwhole
  rw [drop_length, tokens] at hreads
  obtain ⟨hlength, last, hlast, hcharacter⟩ := hreads.of_end rfl
  have hend : fullDocumentEnd text = ⟨line, character⟩ := by
    simp only [fullDocumentEnd, hlength, hlast, Option.map_some, Option.getD_some, hcharacter,
      LspPosition.mk.injEq, and_true]
    omega
  rw [hend, offsetFromLspPositionInString_eq hreads.isPosition]

/-- The edit of the builders turns the text it was built for into the new one. -/
theorem applyLspTextEditsToString_replaceDocument (path : String) (currentText newText : JsString) :
    applyLspTextEditsToString currentText (replaceDocument path currentText newText).edits
      = newText := by
  have hstart : offsetFromLspPositionInString currentText ⟨0, 0⟩ = 0 :=
    offsetFromLspPositionInString_eq (Reads.start (tokens currentText)).isPosition
  rw [applyLspTextEditsToString, replaceDocument, if_neg (cons_ne_nil _ _),
    insertionSort_cons, insertionSort_nil, orderedInsert_nil, foldl_cons,
    foldl_nil, applyEdit, hstart, offset_fullDocumentEnd]
  simp only [take_zero, nil_append, drop_length, append_nil]

/-! ## One path -/

/-- The snapshot is of a file or of nothing. -/
def IsFileState (snapshot : WorkspaceEditPathSnapshot) : Prop :=
  snapshot.exists' = true → snapshot.text ≠ none

instance (snapshot : WorkspaceEditPathSnapshot) : Decidable (IsFileState snapshot) :=
  inferInstanceAs (Decidable (_ → _))

variable {current target : WorkspaceEditPathSnapshot}

/-- Snapshots of files are not refused. -/
theorem exists_textDocument (hcurrent : IsFileState current) (htarget : IsFileState target) :
    ∃ document, textDocument current target = .ok document := by
  obtain ⟨path, currentExists, currentText⟩ := current
  obtain ⟨path', targetExists, targetText⟩ := target
  cases targetExists with
  | false => exact ⟨_, rfl⟩
  | true =>
    obtain ⟨targetText, rfl⟩ := Option.ne_none_iff_exists'.mp (htarget rfl)
    cases currentExists with
    | false => exact ⟨_, rfl⟩
    | true =>
      obtain ⟨currentText, rfl⟩ := Option.ne_none_iff_exists'.mp (hcurrent rfl)
      exact ⟨_, rfl⟩

variable {operation : LspWorkspaceEditOperation}

theorem path_of_deleteOperation (h : deleteOperation current target = some operation) :
    operation.path = target.path := by
  rw [deleteOperation, Option.ite_none_right_eq_some] at h
  rw [← Option.some.inj h.2]
  rfl

theorem path_of_createOperation (h : createOperation current target = some operation) :
    operation.path = target.path := by
  rw [createOperation, Option.ite_none_right_eq_some] at h
  rw [← Option.some.inj h.2]
  rfl

theorem path_of_textOperation
    (h : (textDocument current target).toOption.join.map .text = some operation) :
    operation.path = target.path := by
  obtain ⟨document, hdocument, rfl⟩ := Option.map_eq_some_iff.mp h
  rw [textDocument] at hdocument
  split at hdocument
  · cases hdocument
  split at hdocument
  · cases hdocument
  split at hdocument
  · cases hdocument
  split at hdocument
  · cases hdocument
  obtain rfl := Option.some.inj hdocument
  rfl

/-- The operations of the three loops at one path take its file from one state to the other. -/
theorem runAt_operations {document : Option LspFileTextEdits} (hcurrent : IsFileState current)
    (hdocument : textDocument current target = .ok document) :
    runAt LspWorkspaceEditOperation.apply current.file
        ((deleteOperation current target).toList ++ (createOperation current target).toList
          ++ (document.map .text).toList) = some target.file := by
  obtain ⟨path, currentExists, currentText⟩ := current
  obtain ⟨path', targetExists, targetText⟩ := target
  cases targetExists with
  | false =>
    obtain rfl := Except.ok.inj hdocument
    cases currentExists with
    | false => rfl
    | true =>
      obtain ⟨currentText, rfl⟩ := Option.ne_none_iff_exists'.mp (hcurrent rfl)
      rfl
  | true =>
    cases targetText with
    | none => cases hdocument
    | some targetText =>
      -- a created file is empty, which is what its text is compared with
      have hwrite : ∀ before : JsString,
          document = (if before = targetText then none
            else some (replaceDocument path' before targetText)) →
          runAt LspWorkspaceEditOperation.apply (some before) (document.map .text).toList
            = some (some targetText) := by
        rintro before rfl
        split
        · next heq =>
          rw [heq]
          rfl
        · show some (some (applyLspTextEditsToString before _)) = _
          rw [applyLspTextEditsToString_replaceDocument]
      cases currentExists with
      | false => exact hwrite [] (Except.ok.inj hdocument).symm
      | true =>
        cases currentText with
        | none => cases hdocument
        | some currentText => exact hwrite currentText (Except.ok.inj hdocument).symm

/-! ## All paths -/

variable {currentSnapshots targetSnapshots : List WorkspaceEditPathSnapshot}

/-- The state the builder reads for a target. -/
def currentOf (currentSnapshots : List WorkspaceEditPathSnapshot)
    (target : WorkspaceEditPathSnapshot) : WorkspaceEditPathSnapshot :=
  (currentSnapshots.find? fun snapshot => snapshot.path = target.path).getD target

theorem currentOf_spec {target : WorkspaceEditPathSnapshot}
    (h : target.path ∈ currentSnapshots.map WorkspaceEditPathSnapshot.path) :
    currentOf currentSnapshots target ∈ currentSnapshots ∧
      (currentOf currentSnapshots target).path = target.path := by
  obtain ⟨snapshot, hmem, hpath⟩ := mem_map.mp h
  rw [currentOf]
  cases hfind : currentSnapshots.find? fun snapshot => snapshot.path = target.path with
  | none => exact absurd hpath (by simpa using List.find?_eq_none.mp hfind snapshot hmem)
  | some found => exact ⟨mem_of_find?_eq_some hfind, by simpa using find?_some hfind⟩

theorem currentState_eq (hcurrentPaths : (currentSnapshots.map WorkspaceEditPathSnapshot.path).Nodup)
    {target : WorkspaceEditPathSnapshot}
    (h : target.path ∈ currentSnapshots.map WorkspaceEditPathSnapshot.path) :
    currentState (.ofEntries (currentSnapshots.map fun snapshot => (snapshot.path, snapshot))) target
      = .ok (currentOf currentSnapshots target, target) := by
  obtain ⟨hmem, hpath⟩ := currentOf_spec h
  have hget : (Record.ofEntries (currentSnapshots.map fun snapshot => (snapshot.path, snapshot))).get?
      target.path = some (currentOf currentSnapshots target) := by
    refine Record.get?_ofEntries (mem_map.mpr ⟨_, hmem, by rw [hpath]⟩) fun other hother => ?_
    obtain ⟨snapshot, hsnapshot, heq⟩ := mem_map.mp hother
    obtain ⟨hsame, rfl⟩ := Prod.mk.inj heq
    exact inj_on_of_nodup_map hcurrentPaths hsnapshot hmem (hsame.trans hpath.symm)
  rw [currentState, hget]

/-- The edit, with each round of the loops beside its target. -/
theorem buildWorkspacePathSnapshotEdit_eq
    (hcurrentPaths : (currentSnapshots.map WorkspaceEditPathSnapshot.path).Nodup)
    (hpaths : ∀ target ∈ targetSnapshots,
      target.path ∈ currentSnapshots.map WorkspaceEditPathSnapshot.path)
    {document : WorkspaceEditPathSnapshot → Option LspFileTextEdits}
    (hdocument : ∀ target ∈ targetSnapshots,
      textDocument (currentOf currentSnapshots target) target = .ok (document target)) :
    buildWorkspacePathSnapshotEdit currentSnapshots targetSnapshots = .ok {
      documentEdits := targetSnapshots.filterMap document
      operations :=
        targetSnapshots.filterMap (fun target =>
            deleteOperation (currentOf currentSnapshots target) target)
          ++ targetSnapshots.filterMap (fun target =>
            createOperation (currentOf currentSnapshots target) target)
          ++ targetSnapshots.filterMap fun target => (document target).map .text } := by
  have hstates : targetSnapshots.mapM (currentState
        (.ofEntries (currentSnapshots.map fun snapshot => (snapshot.path, snapshot))))
      = .ok (targetSnapshots.map fun target => (currentOf currentSnapshots target, target)) :=
    mapM_eq_pure fun target htarget => currentState_eq hcurrentPaths (hpaths target htarget)
  have hdocuments : (targetSnapshots.map fun target => (currentOf currentSnapshots target, target)).mapM
        (fun state => textDocument state.1 state.2)
      = .ok (targetSnapshots.map document) := by
    rw [mapM_map]
    exact mapM_eq_pure fun target htarget => hdocument target htarget
  have hreduce : (targetSnapshots.map document).reduceOption = targetSnapshots.filterMap document := by
    rw [List.reduceOption, filterMap_map]
    rfl
  rw [buildWorkspacePathSnapshotEdit]
  simp only [hstates, hdocuments, hreduce, bind, Except.bind, filterMap_map, map_filterMap]
  rfl

/-- The operations run, take every target to its state and touch no other path. -/
theorem buildWorkspacePathSnapshotEdit_captures
    (hcurrentPaths : (currentSnapshots.map WorkspaceEditPathSnapshot.path).Nodup)
    (htargetPaths : (targetSnapshots.map WorkspaceEditPathSnapshot.path).Nodup)
    (hpaths : ∀ target ∈ targetSnapshots,
      target.path ∈ currentSnapshots.map WorkspaceEditPathSnapshot.path)
    (hcurrent : ∀ snapshot ∈ currentSnapshots, IsFileState snapshot)
    (htarget : ∀ snapshot ∈ targetSnapshots, IsFileState snapshot) {files files' : Files}
    (hfiles : ∀ snapshot ∈ currentSnapshots, files snapshot.path = snapshot.file)
    (hfiles' : ∀ snapshot ∈ targetSnapshots, files' snapshot.path = snapshot.file)
    (hother : ∀ path ∉ targetSnapshots.map WorkspaceEditPathSnapshot.path, files' path = files path) :
    ∃ edit, buildWorkspacePathSnapshotEdit currentSnapshots targetSnapshots = .ok edit ∧
      applyOperations files edit.operations = some files' := by
  have hcurrentOf := fun target htarget => currentOf_spec (hpaths target htarget)
  have hdocument : ∀ target ∈ targetSnapshots,
      textDocument (currentOf currentSnapshots target) target
        = .ok (textDocument (currentOf currentSnapshots target) target).toOption.join := by
    intro target hmem
    obtain ⟨document, h⟩ := exists_textDocument (hcurrent _ (hcurrentOf target hmem).1)
      (htarget target hmem)
    rw [h]
    rfl
  refine ⟨_, buildWorkspacePathSnapshotEdit_eq hcurrentPaths hpaths hdocument,
    runKeyed_eq_some_iff.mpr fun path => ?_⟩
  have hdelete : ∀ target operation,
      deleteOperation (currentOf currentSnapshots target) target = some operation →
        operation.path = target.path :=
    fun _ _ => path_of_deleteOperation
  have hcreate : ∀ target operation,
      createOperation (currentOf currentSnapshots target) target = some operation →
        operation.path = target.path :=
    fun _ _ => path_of_createOperation
  have htext : ∀ target operation,
      (textDocument (currentOf currentSnapshots target) target).toOption.join.map
          LspWorkspaceEditOperation.text = some operation →
        operation.path = target.path :=
    fun _ _ => path_of_textOperation
  rw [filter_append, filter_append]
  by_cases hpath : path ∈ targetSnapshots.map WorkspaceEditPathSnapshot.path
  · obtain ⟨target, hmem, rfl⟩ := mem_map.mp hpath
    obtain ⟨hin, hsame⟩ := hcurrentOf target hmem
    have hrun := runAt_operations (hcurrent _ hin) (hdocument target hmem)
    rw [filter_filterMap_key_eq hdelete htargetPaths hmem,
      filter_filterMap_key_eq hcreate htargetPaths hmem,
      filter_filterMap_key_eq htext htargetPaths hmem, hfiles' target hmem, ← hsame,
      hfiles _ hin]
    exact hrun
  · rw [filter_filterMap_key_eq_nil hdelete hpath, filter_filterMap_key_eq_nil hcreate hpath,
      filter_filterMap_key_eq_nil htext hpath, hother path hpath]
    rfl

/-! ## The target -/

variable {snapshots : List WorkspaceEditPathSnapshot}

theorem snapshotFiles_eq (hnodup : (snapshots.map WorkspaceEditPathSnapshot.path).Nodup)
    {snapshot : WorkspaceEditPathSnapshot} (hmem : snapshot ∈ snapshots) :
    snapshotFiles snapshots snapshot.path = snapshot.file := by
  rw [snapshotFiles, ← head?_filter, filter_key_eq hnodup hmem]
  rfl

theorem snapshotFiles_eq_none {path : String}
    (h : path ∉ snapshots.map WorkspaceEditPathSnapshot.path) : snapshotFiles snapshots path = none := by
  rw [snapshotFiles, ← head?_filter, filter_key_eq_nil h]
  rfl

/-- From the files of the current snapshots the operations run to those of the targets. -/
theorem buildWorkspacePathSnapshotEdit_reaches
    (hcurrentPaths : (currentSnapshots.map WorkspaceEditPathSnapshot.path).Nodup)
    (htargetPaths : (targetSnapshots.map WorkspaceEditPathSnapshot.path).Nodup)
    (hpaths : ∀ path, path ∈ currentSnapshots.map WorkspaceEditPathSnapshot.path ↔
      path ∈ targetSnapshots.map WorkspaceEditPathSnapshot.path)
    (hcurrent : ∀ snapshot ∈ currentSnapshots, IsFileState snapshot)
    (htarget : ∀ snapshot ∈ targetSnapshots, IsFileState snapshot) :
    ∃ edit, buildWorkspacePathSnapshotEdit currentSnapshots targetSnapshots = .ok edit ∧
      applyOperations (snapshotFiles currentSnapshots) edit.operations
        = some (snapshotFiles targetSnapshots) :=
  buildWorkspacePathSnapshotEdit_captures hcurrentPaths htargetPaths
    (fun target hmem => (hpaths target.path).mpr (mem_map_of_mem hmem)) hcurrent htarget
    (fun _ => snapshotFiles_eq hcurrentPaths) (fun _ => snapshotFiles_eq htargetPaths)
    fun path hpath => by
      rw [snapshotFiles_eq_none hpath, snapshotFiles_eq_none (mt (hpaths path).mp hpath)]

/-- Two files with different line endings swap and a third is renamed. -/
theorem buildWorkspacePathSnapshotEdit_swaps : ∃ edit, buildWorkspacePathSnapshotEdit
          [⟨"a", true, some (.ascii "x\r\ny\r")⟩, ⟨"b", true, some (.ascii "z\n")⟩,
            ⟨"c", true, some (.ascii "w")⟩, ⟨"d", false, none⟩]
          [⟨"d", true, some (.ascii "w")⟩, ⟨"c", false, none⟩,
            ⟨"b", true, some (.ascii "x\r\ny\r")⟩, ⟨"a", true, some (.ascii "z\n")⟩] = .ok edit ∧
      applyOperations
          (snapshotFiles [⟨"a", true, some (.ascii "x\r\ny\r")⟩, ⟨"b", true, some (.ascii "z\n")⟩,
            ⟨"c", true, some (.ascii "w")⟩, ⟨"d", false, none⟩]) edit.operations
        = some (snapshotFiles [⟨"d", true, some (.ascii "w")⟩, ⟨"c", false, none⟩,
            ⟨"b", true, some (.ascii "x\r\ny\r")⟩, ⟨"a", true, some (.ascii "z\n")⟩]) := by
  refine buildWorkspacePathSnapshotEdit_reaches (by decide) (by decide) (fun path => ?_)
    (by decide) (by decide)
  simp only [map_cons, map_nil, mem_cons, not_mem_nil, or_false]
  tauto

/-! ## Texts alone -/

/-- The sibling builder: texts of existing files, each over its own current text. -/
theorem buildWorkspaceTextSnapshotEdit_captures
    {currentSnapshots targetSnapshots : List WorkspaceEditTextSnapshot} {files files' : Files}
    (hcurrentPaths : (currentSnapshots.map WorkspaceEditTextSnapshot.path).Nodup)
    (htargetPaths : (targetSnapshots.map WorkspaceEditTextSnapshot.path).Nodup)
    (hpaths : ∀ target ∈ targetSnapshots, ∃ current ∈ currentSnapshots, current.path = target.path)
    (hfiles : ∀ snapshot ∈ currentSnapshots, files snapshot.path = some snapshot.text)
    (hfiles' : ∀ snapshot ∈ targetSnapshots, files' snapshot.path = some snapshot.text)
    (hother : ∀ path ∉ targetSnapshots.map WorkspaceEditTextSnapshot.path, files' path = files path) :
    ∃ edit, buildWorkspaceTextSnapshotEdit currentSnapshots targetSnapshots = .ok edit ∧
      applyOperations files edit.operations = some files' := by
  have hget : ∀ target ∈ targetSnapshots,
      (Record.ofEntries (currentSnapshots.map fun snapshot => (snapshot.path, snapshot.text))).get?
        target.path = some ((files target.path).getD []) := by
    intro target htarget
    obtain ⟨current, hcurrent, hpath⟩ := hpaths target htarget
    rw [← hpath, hfiles current hcurrent]
    refine Record.get?_ofEntries (mem_map_of_mem hcurrent) fun text htext => ?_
    obtain ⟨other, hmem, heq⟩ := mem_map.mp htext
    obtain ⟨hsame, rfl⟩ := Prod.mk.inj heq
    rw [inj_on_of_nodup_map hcurrentPaths hmem hcurrent hsame]
    rfl
  let document := fun target : WorkspaceEditTextSnapshot =>
    replaceDocument target.path ((files target.path).getD []) target.text
  have hdocuments : targetSnapshots.mapM (textSnapshotDocument
        (.ofEntries (currentSnapshots.map fun snapshot => (snapshot.path, snapshot.text))))
      = .ok (targetSnapshots.map document) :=
    mapM_eq_pure fun target htarget => by
      rw [textSnapshotDocument, hget target htarget]
      rfl
  refine ⟨{ documentEdits := targetSnapshots.map document
            operations := (targetSnapshots.map document).map .text }, ?_, ?_⟩
  · rw [buildWorkspaceTextSnapshotEdit, hdocuments]
    rfl
  have hkey : ∀ target operation,
      (some ∘ LspWorkspaceEditOperation.text ∘ document) target = some operation →
        operation.path = target.path := by
    rintro target operation h
    obtain rfl := Option.some.inj h
    rfl
  refine runKeyed_eq_some_iff.mpr fun path => ?_
  have hoperations : (targetSnapshots.map document).map LspWorkspaceEditOperation.text
      = targetSnapshots.filterMap (some ∘ LspWorkspaceEditOperation.text ∘ document) := by
    rw [map_map, filterMap_eq_map]
  rw [hoperations]
  by_cases hpath : path ∈ targetSnapshots.map WorkspaceEditTextSnapshot.path
  · obtain ⟨target, htarget, rfl⟩ := mem_map.mp hpath
    obtain ⟨current, hcurrent, hsame⟩ := hpaths target htarget
    have hfile : files target.path = some current.text := hsame ▸ hfiles current hcurrent
    rw [filter_filterMap_key_eq hkey htargetPaths htarget, hfiles' target htarget]
    simp only [document, Function.comp_apply, hfile, Option.getD_some]
    exact congrArg (fun text => some (some text))
      (applyLspTextEditsToString_replaceDocument target.path current.text target.text)
  · rw [filter_filterMap_key_eq_nil hkey hpath, hother path hpath]
    rfl

/-- Two lines become one. -/
theorem buildWorkspaceTextSnapshotEdit_captures_line : ∃ edit,
    buildWorkspaceTextSnapshotEdit [⟨"a", .ascii "x\r\ny"⟩] [⟨"a", .ascii "z"⟩] = .ok edit ∧
      applyOperations (fun _ => some (.ascii "x\r\ny")) edit.operations =
        some (Function.update (fun _ => some (.ascii "x\r\ny")) "a" (some (.ascii "z"))) := by
  refine buildWorkspaceTextSnapshotEdit_captures (nodup_singleton _) (nodup_singleton _) (by simp) (by simp) (by simp)
    fun path hpath => Function.update_of_ne (by simpa using hpath) _ _

end Taomni.WorkspaceEditHistory
