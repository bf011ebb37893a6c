import Taomni.Document.History

/-!
# Runs of the document owner

`Owner.run` performs a list of calls. Along every run that pushes no entry for a list of no-ops, the
history of each document is a linear chain that undo and redo walk up and down
(`linearHistory_along_run`).
-/

namespace Taomni.Document

open JsString (cr)

variable {changeSetOf : ChangeSetOf}

/-! ## Calls -/

/-- A call on the owner. -/
inductive Action where
  | initializeDocument (fileKey : String) (text : JsString) (revision : ℤ)
  | acquireView (fileKey viewId : String) (text : JsString) (revision : ℤ)
  | retainDocument (fileKey : String)
  | releaseDocument (fileKey : String)
  | releaseView (fileKey viewId : String)
  | setRevision (fileKey : String) (revision : ℤ)
  | dispatchTransaction (fileKey sourceViewId : String) (changes : List DocumentChangeDelta)
      (origin : DocumentTransactionOrigin) (compositionSessionId : Option String)
      (completionSelection : Option CompletionSelectionSnapshot)
  | replaceDocument (fileKey sourceViewId : String) (text : JsString)
      (origin : DocumentTransactionOrigin)
  | finalizeComposition (fileKey : String) (targetSessionId : Option String)
  | undo (fileKey sourceViewId : String)
  | redo (fileKey sourceViewId : String)
  | clear (fileKey : Option String)

namespace Owner

def step (changeSetOf : ChangeSetOf) (owner : Owner) : Action → Owner
  | .initializeDocument fileKey text revision => (owner.initializeDocument fileKey text revision).1
  | .acquireView fileKey viewId text revision => (owner.acquireView fileKey viewId text revision).1
  | .retainDocument fileKey => owner.retainDocument fileKey
  | .releaseDocument fileKey => owner.releaseDocument fileKey
  | .releaseView fileKey viewId => (owner.releaseView fileKey viewId).1
  | .setRevision fileKey revision => owner.setRevision fileKey revision
  | .dispatchTransaction fileKey sourceViewId changes origin compositionSessionId
      completionSelection =>
      (owner.dispatchTransaction changeSetOf fileKey sourceViewId changes origin
        compositionSessionId completionSelection).1
  | .replaceDocument fileKey sourceViewId text origin =>
      (owner.replaceDocument changeSetOf fileKey sourceViewId text origin).1
  | .finalizeComposition fileKey targetSessionId => owner.finalizeComposition fileKey targetSessionId
  | .undo fileKey sourceViewId => (owner.undo changeSetOf fileKey sourceViewId).1
  | .redo fileKey sourceViewId => (owner.redo changeSetOf fileKey sourceViewId).1
  | .clear fileKey => owner.clear fileKey

/-- Perform the calls in order. -/
def run (changeSetOf : ChangeSetOf) (owner : Owner) (actions : List Action) : Owner :=
  actions.foldl (step changeSetOf) owner

end Owner

namespace Action

/-- Texts and insertions use LF only, and the transactions dispatched are edits. -/
def IsEdit : Action → Prop
  | initializeDocument _ text _ | acquireView _ _ text _ | replaceDocument _ _ text _ => cr ∉ text
  | dispatchTransaction _ _ changes origin _ _ =>
      (∀ change ∈ changes, cr ∉ change.insert) ∧ DocumentRecord.Records origin
  | _ => True

instance : DecidablePred IsEdit
  | initializeDocument .. | acquireView .. | replaceDocument .. =>
      inferInstanceAs (Decidable (_ ∉ _))
  | dispatchTransaction .. => inferInstanceAs (Decidable (_ ∧ _))
  | retainDocument _ | releaseDocument _ | releaseView .. | setRevision .. | finalizeComposition ..
  | undo .. | redo .. | clear _ => isTrue trivial

/-- The call pushes no entry for a list of no-ops, and no snapshot bypasses a history. -/
def KeepsHistory (owner : Owner) : Action → Prop
  | dispatchTransaction fileKey sourceViewId changes origin compositionSessionId _ =>
      ∀ r ∈ owner.documentsByFile.get? fileKey,
        ¬ r.PushesNoop sourceViewId changes origin compositionSessionId
  | replaceDocument fileKey _ text origin =>
      ∀ r ∈ owner.documentsByFile.get? fileKey, r.MayReplace text origin
  | _ => True

instance (owner : Owner) : DecidablePred (KeepsHistory owner)
  | dispatchTransaction .. | replaceDocument .. => inferInstanceAs (Decidable (∀ r ∈ _, _))
  | initializeDocument .. | acquireView .. | retainDocument _ | releaseDocument _ | releaseView ..
  | setRevision .. | finalizeComposition .. | undo .. | redo .. | clear _ => isTrue trivial

end Action

/-- Every call of the run keeps the history of the owner it is made on. -/
def Owner.KeepsHistory (changeSetOf : ChangeSetOf) (owner : Owner) : List Action → Prop
  | [] => True
  | action :: rest =>
      action.KeepsHistory owner ∧ Owner.KeepsHistory changeSetOf (owner.step changeSetOf action) rest

instance decidableKeepsHistory (owner : Owner) :
    (actions : List Action) → Decidable (owner.KeepsHistory changeSetOf actions)
  | [] => isTrue trivial
  | action :: rest =>
      have := decidableKeepsHistory (owner.step changeSetOf action) rest
      inferInstanceAs (Decidable (_ ∧ _))

/-! ## The step lemma -/

/-- Every record of the owner satisfies the invariant. -/
def Owner.Faithful (changeSetOf : ChangeSetOf) (owner : Owner) : Prop :=
  ∀ fileKey, ∀ r ∈ owner.documentsByFile.get? fileKey, r.Faithful changeSetOf

variable {record : DocumentRecord} {owner : Owner} {fileKey : String}

namespace Owner

theorem faithful_new : new.Faithful changeSetOf := by
  intro fileKey r hr
  cases hr

theorem Faithful.setDocument (h : owner.Faithful changeSetOf) (hr : record.Faithful changeSetOf) :
    (owner.setDocument fileKey record).Faithful changeSetOf := by
  intro key r hmem
  rw [Owner.setDocument, Record.get?_set] at hmem
  split at hmem
  · exact Option.some.inj hmem ▸ hr
  · exact h key r hmem

theorem Faithful.deleteDocument {owner : Owner} (h : owner.Faithful changeSetOf)
    (fileKey : String) : (owner.deleteDocument fileKey).Faithful changeSetOf := by
  intro key r hmem
  rw [Owner.deleteDocument, Record.get?_delete] at hmem
  split at hmem
  · cases hmem
  · exact h key r hmem

theorem Faithful.initializeDocument (h : owner.Faithful changeSetOf)
    (fileKey : String) {text : JsString} (htext : cr ∉ text) (revision : ℤ) :
    (owner.initializeDocument fileKey text revision).1.Faithful changeSetOf ∧
      (owner.initializeDocument fileKey text revision).2.Faithful changeSetOf := by
  have hrecord : (owner.initializeDocument fileKey text revision).2.Faithful changeSetOf := by
    rw [Owner.initializeDocument]
    split
    · next existing hexisting => exact (h fileKey existing hexisting).congr rfl rfl rfl id
    · exact DocumentRecord.faithful_new htext revision
  exact ⟨h.setDocument hrecord, hrecord⟩

theorem Faithful.releaseView (h : owner.Faithful changeSetOf)
    (fileKey viewId : String) : (owner.releaseView fileKey viewId).1.Faithful changeSetOf := by
  rw [Owner.releaseView]
  split
  · exact h
  next record hrecord =>
  have hr := h fileKey record hrecord
  split
  · exact h
  simp only
  split
  · refine h.setDocument ?_
    split
    · exact hr.congr rfl rfl rfl (absurd rfl)
    · exact hr.congr rfl rfl rfl id
  · exact h.deleteDocument fileKey

/-- A call that only rewrites the record of its file. -/
private theorem Faithful.update {next : Owner} (h : owner.Faithful changeSetOf)
    (f : DocumentRecord → DocumentRecord)
    (hnone : owner.documentsByFile.get? fileKey = none → next = owner)
    (hsome : ∀ r, owner.documentsByFile.get? fileKey = some r → next = owner.setDocument fileKey (f r))
    (hf : ∀ r ∈ owner.documentsByFile.get? fileKey, (f r).Faithful changeSetOf) :
    next.Faithful changeSetOf := by
  cases hget : owner.documentsByFile.get? fileKey with
  | none => exact hnone hget ▸ h
  | some r => exact hsome r hget ▸ h.setDocument (hf r hget)

/-- The step lemma. -/
theorem Faithful.step (laws : ChangeSetLaws changeSetOf)
    (h : owner.Faithful changeSetOf) {action : Action} (hedit : action.IsEdit)
    (hkeeps : action.KeepsHistory owner) : (owner.step changeSetOf action).Faithful changeSetOf := by
  cases action with
  | initializeDocument fileKey text revision => exact (h.initializeDocument fileKey hedit revision).1
  | acquireView fileKey viewId text revision =>
    obtain ⟨howner, hrecord⟩ := h.initializeDocument fileKey hedit revision
    exact howner.setDocument (hrecord.congr rfl rfl rfl id)
  | retainDocument fileKey =>
    show (owner.retainDocument fileKey).Faithful changeSetOf
    rw [retainDocument]
    split <;> exact h
  | releaseDocument fileKey =>
    show (owner.releaseDocument fileKey).Faithful changeSetOf
    rw [releaseDocument]
    split
    · split
      · exact @Faithful.deleteDocument changeSetOf ⟨_, _⟩ h fileKey
      · exact h
    · exact h
  | releaseView fileKey viewId => exact h.releaseView fileKey viewId
  | setRevision fileKey revision => exact (h.initializeDocument fileKey List.not_mem_nil revision).1
  | dispatchTransaction fileKey view changes origin session selection =>
    refine h.update (fun r => (r.dispatchTransaction changeSetOf view changes origin session
      selection).1) (fun hnone => ?_) (fun r hr => ?_) fun r hr =>
        (h fileKey r hr).dispatchTransaction laws hedit.1 hedit.2 (hkeeps r hr)
    · simp only [Owner.step, Owner.dispatchTransaction, hnone]
    · simp only [Owner.step, Owner.dispatchTransaction, hr, publish]
  | replaceDocument fileKey view text origin =>
    refine h.update (fun r => (r.replaceDocument changeSetOf view text origin).1)
      (fun hnone => ?_) (fun r hr => ?_) fun r hr =>
        (h fileKey r hr).replaceDocument laws hedit (hkeeps r hr)
    · simp only [Owner.step, Owner.replaceDocument, hnone]
    · simp only [Owner.step, Owner.replaceDocument, hr, publish]
  | finalizeComposition fileKey target =>
    refine h.update (·.finalizeComposition target) (fun hnone => ?_) (fun r hr => ?_) fun r hr =>
      (h fileKey r hr).finalizeComposition target
    · simp only [Owner.step, Owner.finalizeComposition, hnone]
    · simp only [Owner.step, Owner.finalizeComposition, hr]
  | undo fileKey view =>
    refine h.update (fun r => (r.undoNewest changeSetOf).1) (fun hnone => ?_) (fun r hr => ?_)
      fun r hr => (h fileKey r hr).undoNewest
    · simp only [Owner.step, Owner.undo, hnone]
    · simp only [Owner.step, Owner.undo, hr, replayed]
  | redo fileKey view =>
    refine h.update (fun r => (r.redoNewest changeSetOf).1) (fun hnone => ?_) (fun r hr => ?_)
      fun r hr => (h fileKey r hr).redoNewest
    · simp only [Owner.step, Owner.redo, hnone]
    · simp only [Owner.step, Owner.redo, hr, replayed]
  | clear fileKey =>
    cases fileKey with
    | none => exact faithful_new
    | some key =>
      show (if truthy (some key) then _ else new : Owner).Faithful changeSetOf
      split
      · exact h.deleteDocument key
      · exact faithful_new

/-- The run lemma. -/
theorem Faithful.run (laws : ChangeSetLaws changeSetOf) {owner : Owner}
    (h : owner.Faithful changeSetOf) {actions : List Action} (hedit : ∀ a ∈ actions, a.IsEdit)
    (hkeeps : owner.KeepsHistory changeSetOf actions) :
    (owner.run changeSetOf actions).Faithful changeSetOf := by
  induction actions generalizing owner with
  | nil => exact h
  | cons action rest ih =>
    obtain ⟨hfirst, hrest⟩ := List.forall_mem_cons.mp hedit
    exact ih (h.step laws hfirst hkeeps.1) hrest hkeeps.2

end Owner

/-! ## The linear history -/

/-- What the owner promises of the history of a document. -/
structure LinearHistory (changeSetOf : ChangeSetOf) (owner : Owner) (fileKey : String)
    (record : DocumentRecord) : Prop where
  chain : record.undo.IsChain fun newer older => older.afterText = newer.beforeText
  undo_top : ∀ entry ∈ record.undo.head?, entry.afterText = record.text
  redo_top : ∀ entry ∈ record.redo.head?, entry.beforeText = record.text
  undo_iff : ∀ view, (owner.undo changeSetOf fileKey view).2.isSome ↔ record.undo ≠ []
  redo_iff : ∀ view, (owner.redo changeSetOf fileKey view).2.isSome ↔ record.redo ≠ []
  redo_undo : record.undo ≠ [] → ∀ view view',
    ∃ back ∈ ((owner.undo changeSetOf fileKey view).1.redo changeSetOf fileKey view').1
        |>.documentsByFile.get? fileKey,
      back.text = record.text ∧ back.undo = record.undo ∧ back.redo = record.redo

private theorem isSome_undo_iff
    (h : record.Faithful changeSetOf) (hget : owner.documentsByFile.get? fileKey = some record)
    (view : String) : (owner.undo changeSetOf fileKey view).2.isSome ↔ record.undo ≠ [] := by
  rw [Owner.undo, hget]
  simp only [Owner.replayed, Option.isSome_map]
  rcases hundo : record.undo with _ | ⟨entry, older⟩
  · simp [DocumentRecord.undoNewest_nil hundo]
  · obtain ⟨changes, heq⟩ := h.undoNewest_cons hundo
    simp [heq]

private theorem isSome_redo_iff
    (h : record.Faithful changeSetOf) (hget : owner.documentsByFile.get? fileKey = some record)
    (view : String) : (owner.redo changeSetOf fileKey view).2.isSome ↔ record.redo ≠ [] := by
  rw [Owner.redo, hget]
  simp only [Owner.replayed, Option.isSome_map]
  rcases hredo : record.redo with _ | ⟨entry, later⟩
  · simp [DocumentRecord.redoNewest_nil hredo]
  · obtain ⟨changes, heq⟩ := h.redoNewest_cons hredo
    simp [heq]

/-- Redo takes back exactly what undo took back. -/
theorem DocumentRecord.Faithful.redoNewest_undoNewest
    (h : record.Faithful changeSetOf) (hne : record.undo ≠ []) :
    let back := ((record.undoNewest changeSetOf).1.redoNewest changeSetOf).1
    back.text = record.text ∧ back.undo = record.undo ∧ back.redo = record.redo := by
  obtain ⟨entry, older, hundo⟩ := List.exists_cons_of_ne_nil hne
  obtain ⟨changes, hundone⟩ := h.undoNewest_cons hundo
  have hfaithful := h.undoNewest
  have hlinked := h.undo_linked
  rw [hundo] at hlinked
  rw [hundone] at hfaithful
  obtain ⟨changes', hredone⟩ := hfaithful.redoNewest_cons rfl
  rw [hundone, hredone]
  exact ⟨hlinked.1, hundo.symm, rfl⟩

theorem DocumentRecord.Faithful.linearHistory (h : record.Faithful changeSetOf)
    (hget : owner.documentsByFile.get? fileKey = some record) :
    LinearHistory changeSetOf owner fileKey record where
  chain := h.undo_linked.isChain
  undo_top := by
    intro entry hentry
    obtain ⟨older, hundo⟩ := List.head?_eq_some_iff.mp hentry
    have hlinked := h.undo_linked
    rw [hundo] at hlinked
    exact hlinked.1
  redo_top := by
    intro entry hentry
    obtain ⟨later, hredo⟩ := List.head?_eq_some_iff.mp hentry
    have hlinked := h.redo_linked
    rw [hredo] at hlinked
    exact hlinked.1
  undo_iff := isSome_undo_iff h hget
  redo_iff := isSome_redo_iff h hget
  redo_undo := by
    intro hne view view'
    refine ⟨_, ?_, h.redoNewest_undoNewest hne⟩
    have hundone : (owner.undo changeSetOf fileKey view).1
        = owner.setDocument fileKey (record.undoNewest changeSetOf).1 := by
      simp only [Owner.undo, hget, Owner.replayed]
    have hget' : (owner.undo changeSetOf fileKey view).1.documentsByFile.get? fileKey
        = some (record.undoNewest changeSetOf).1 := by
      rw [hundone]
      exact Record.get?_set_self _ _ _
    simp only [Owner.redo, hget', Owner.replayed]
    exact Record.get?_set_self _ _ _

/-- Along every run that records no list of no-ops, every document has a linear history. -/
theorem linearHistory_along_run (laws : ChangeSetLaws changeSetOf) {actions : List Action}
    (hedit : ∀ action ∈ actions, action.IsEdit)
    (hkeeps : Owner.new.KeepsHistory changeSetOf actions) {fileKey : String} {record : DocumentRecord}
    (hrecord : (Owner.new.run changeSetOf actions).documentsByFile.get? fileKey = some record) :
    LinearHistory changeSetOf (Owner.new.run changeSetOf actions) fileKey record :=
  (Owner.faithful_new.run laws hedit hkeeps fileKey record hrecord).linearHistory hrecord

/-- A document `"x"`, a typed letter, an undo and a second letter. -/
def typingRun : List Action :=
  [.acquireView "f" "v" (.ascii "x") 0,
    .dispatchTransaction "f" "v" [⟨1, 1, .ascii "y", none⟩] .userInput none none,
    .undo "f" "v",
    .dispatchTransaction "f" "v" [⟨0, 1, .ascii "z", some (.ascii "x")⟩] .format none none]

theorem linearHistory_along_typingRun :
    ∃ record, (Owner.new.run sortedChangeSet typingRun).documentsByFile.get? "f" = some record ∧
      LinearHistory sortedChangeSet (Owner.new.run sortedChangeSet typingRun) "f" record := by
  have hsome : ((Owner.new.run sortedChangeSet typingRun).documentsByFile.get? "f").isSome := by
    decide
  obtain ⟨record, hrecord⟩ := Option.isSome_iff_exists.mp hsome
  exact ⟨record, hrecord, linearHistory_along_run sortedChangeSet_laws (by decide)
    (by decide) hrecord⟩

theorem DocumentRecord.Faithful.redo_undo {n : ℕ} (h : record.Faithful changeSetOf) (hn : n ≤ record.undo.length) :
    let back := (fun r => (r.redoNewest changeSetOf).1)^[n] ((fun r => (r.undoNewest changeSetOf).1)^[n] record)
    back.Faithful changeSetOf ∧ back.text = record.text ∧ back.undo = record.undo ∧ back.redo = record.redo := by
  induction n generalizing record with
  | zero => exact ⟨h, rfl, rfl, rfl⟩
  | succ n ih =>
    obtain ⟨entry, older, hundo⟩ := List.exists_cons_of_length_pos (Nat.zero_lt_of_lt hn)
    obtain ⟨changes, hundone⟩ := h.undoNewest_cons hundo
    have hlinked := h.undo_linked
    rw [hundo] at hlinked hn
    -- The newest entry is undone first and redone last; the induction is on what lies between.
    obtain ⟨hfaithful, -, hback⟩ := ih h.undoNewest (by rw [hundone]; exact Nat.le_of_succ_le_succ hn)
    rw [Function.iterate_succ_apply', Function.iterate_succ_apply]
    rw [hundone] at hfaithful hback ⊢
    obtain ⟨changes', hredone⟩ := hfaithful.redoNewest_cons hback.2
    refine ⟨hfaithful.redoNewest, ?_⟩
    rw [hredone, hundo]
    exact ⟨hlinked.1, congrArg (entry :: ·) hback.1, rfl⟩

/-- Along the same runs, a document comes back from any number of undos by as many redos. -/
theorem redo_undo_along_run (laws : ChangeSetLaws changeSetOf) {actions : List Action}
    (hedit : ∀ action ∈ actions, action.IsEdit) (hkeeps : Owner.new.KeepsHistory changeSetOf actions)
    (hrecord : (Owner.new.run changeSetOf actions).documentsByFile.get? fileKey = some record) {n : ℕ}
    (hn : n ≤ record.undo.length) :
    let back := (fun r => (r.redoNewest changeSetOf).1)^[n] ((fun r => (r.undoNewest changeSetOf).1)^[n] record)
    back.text = record.text ∧ back.undo = record.undo ∧ back.redo = record.redo :=
  ((Owner.faithful_new.run laws hedit hkeeps fileKey record hrecord).redo_undo hn).2

theorem redo_undo_along_typingRun : ∃ record ∈ (Owner.new.run sortedChangeSet typingRun).documentsByFile.get? "f",
    ((record.undoNewest sortedChangeSet).1.redoNewest sortedChangeSet).1.text = record.text := by
  obtain ⟨record, hrecord, hundo⟩ := (Option.any_eq_true (fun r => 1 ≤ r.undo.length) _).mp
    (by decide : ((Owner.new.run sortedChangeSet typingRun).documentsByFile.get? "f").any _ = true)
  exact ⟨record, hrecord, (redo_undo_along_run sortedChangeSet_laws (by decide) (by decide) hrecord
    (of_decide_eq_true hundo)).1⟩

/-- A document `"x"` and a transaction that inserts nothing at its start. -/
def noopRun : List Action :=
  [.acquireView "f" "v" (.ascii "x") 0,
    .dispatchTransaction "f" "v" [⟨0, 0, [], none⟩] .userInput none none]

/-- After the empty insertion there is an undo step, and undo refuses it. -/
theorem noop_blocks_undo : (∀ action ∈ noopRun, action.IsEdit) ∧
      ∃ record, (Owner.new.run sortedChangeSet noopRun).documentsByFile.get? "f" = some record ∧
        record.undo ≠ [] ∧
        ((Owner.new.run sortedChangeSet noopRun).undo sortedChangeSet "f" "v").2 = none ∧
        ¬ LinearHistory sortedChangeSet (Owner.new.run sortedChangeSet noopRun) "f" record := by
  have hrecord : ((Owner.new.run sortedChangeSet noopRun).documentsByFile.get? "f").any
      (·.undo ≠ []) := by
    decide
  obtain ⟨record, hrecord, hundo⟩ := (Option.any_eq_true _ _).mp hrecord
  have hnone : ((Owner.new.run sortedChangeSet noopRun).undo sortedChangeSet "f" "v").2 = none := by
    decide
  have hne : record.undo ≠ [] := of_decide_eq_true hundo
  refine ⟨by decide, record, hrecord, hne, hnone, fun h => ?_⟩
  have hsome := (h.undo_iff "v").mpr hne
  rw [hnone] at hsome
  cases hsome

end Taomni.Document
