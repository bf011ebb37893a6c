import Mathlib.Data.List.Chain
import Taomni.Document.Owner

/-!
# The undo history is a linear chain

`DocumentRecord.Faithful` is the invariant of a record: the entries of both stacks are linked to the
canonical text, and each can be replayed in both directions. Transactions keep it as long as none
pushes an entry for a list of no-ops (`PushesNoop`): such an entry has nothing to replay, so undo
refuses it for ever (`undo_after_noop`).
-/

namespace Taomni.Document

open List
open JsString (cr)

variable {changeSetOf : ChangeSetOf}

/-! ## The invariant -/

/-- The undo stack leads back from `text`. -/
def LinkedUndo (text : JsString) : List HistoryEntry → Prop
  | [] => True
  | entry :: older => entry.afterText = text ∧ LinkedUndo entry.beforeText older

/-- The redo stack leads on from `text`. -/
def LinkedRedo (text : JsString) : List HistoryEntry → Prop
  | [] => True
  | entry :: later => entry.beforeText = text ∧ LinkedRedo entry.afterText later

variable {text : JsString}

variable {undo : List HistoryEntry}

theorem LinkedUndo.take (h : LinkedUndo text undo) (n : ℕ) : LinkedUndo text (undo.take n) := by
  induction undo generalizing text n with
  | nil => simpa using h
  | cons entry older ih =>
    cases n with
    | zero => trivial
    | succ n => exact ⟨h.1, ih h.2 n⟩

theorem LinkedUndo.isChain (h : LinkedUndo text undo) :
    undo.IsChain fun newer older => older.afterText = newer.beforeText := by
  induction undo generalizing text with
  | nil => exact isChain_nil
  | cons entry older ih =>
    refine List.isChain_cons.mpr ⟨?_, ih h.2⟩
    rintro next hnext
    cases older with
    | nil => cases hnext
    | cons first rest =>
      obtain rfl := Option.some.inj hnext
      exact h.2.1

/-- An entry can be replayed in both directions. -/
structure HistoryEntry.Sound (changeSetOf : ChangeSetOf) (entry : HistoryEntry) : Prop where
  before_lf : cr ∉ entry.beforeText
  after_lf : cr ∉ entry.afterText
  forward : ∃ applied, applyChanges changeSetOf entry.beforeText entry.forward = some applied ∧
    applied.text = entry.afterText
  inverse : ∃ applied, applyChanges changeSetOf entry.afterText entry.inverse = some applied ∧
    applied.text = entry.beforeText

/-- The invariant of a document record. -/
structure DocumentRecord.Faithful (changeSetOf : ChangeSetOf) (r : DocumentRecord) : Prop where
  text_lf : cr ∉ r.text
  undo_linked : LinkedUndo r.text r.undo
  redo_linked : LinkedRedo r.text r.redo
  undo_sound : ∀ entry ∈ r.undo, entry.Sound changeSetOf
  redo_sound : ∀ entry ∈ r.redo, entry.Sound changeSetOf
  open_redo : r.openCompositionViewId ≠ none → r.redo = []

variable {r : DocumentRecord}

variable {origin : DocumentTransactionOrigin}

namespace DocumentRecord

theorem faithful_new (h : cr ∉ text) (revision : ℤ) :
    (DocumentRecord.new text revision).Faithful changeSetOf where
  text_lf := h
  undo_linked := trivial
  redo_linked := trivial
  undo_sound := by simp [new]
  redo_sound := by simp [new]
  open_redo := fun _ => rfl

/-- The invariant does not look at leases and revisions, and closing a composition keeps it. -/
theorem Faithful.congr {r s : DocumentRecord} (h : r.Faithful changeSetOf) (htext : s.text = r.text)
    (hundo : s.undo = r.undo) (hredo : s.redo = r.redo)
    (hopen : s.openCompositionViewId ≠ none → r.openCompositionViewId ≠ none) :
    s.Faithful changeSetOf where
  text_lf := htext ▸ h.text_lf
  undo_linked := by rw [htext, hundo]; exact h.undo_linked
  redo_linked := by rw [htext, hredo]; exact h.redo_linked
  undo_sound := hundo ▸ h.undo_sound
  redo_sound := hredo ▸ h.redo_sound
  open_redo := fun hs => hredo ▸ h.open_redo (hopen hs)

/-! ## Recording -/

variable {entry : HistoryEntry}

theorem extendEntry_sound (laws : ChangeSetLaws changeSetOf)
    (hbefore : cr ∉ entry.beforeText) (htext : cr ∉ text) :
    (extendEntry entry text).Sound changeSetOf where
  before_lf := hbefore
  after_lf := htext
  forward := applyChanges_singleReplacement laws _ htext
  inverse := applyChanges_singleReplacement laws _ hbefore

theorem mem_of_mem_trimUndo
    (h : entry ∈ trimUndo text undo) : entry ∈ undo := by
  rw [trimUndo] at h
  split at h
  · exact mem_of_mem_take h
  · exact h

theorem linkedUndo_trimUndo {text t : JsString}
    (h : LinkedUndo text undo) : LinkedUndo text (trimUndo t undo) := by
  rw [trimUndo]
  split
  · exact h.take _
  · exact h

/-- A new top of the undo stack, with redo cleared. -/
private theorem faithful_of_recorded {t : JsString}
    (undo : List HistoryEntry) (htext : cr ∉ r.text) (hlinked : LinkedUndo r.text undo)
    (hsound : ∀ entry ∈ undo, entry.Sound changeSetOf) (hundo : r.undo = trimUndo t undo)
    (hredo : r.redo = []) : r.Faithful changeSetOf where
  text_lf := htext
  undo_linked := hundo ▸ linkedUndo_trimUndo hlinked
  redo_linked := hredo ▸ trivial
  undo_sound := fun entry h => hsound entry (mem_of_mem_trimUndo (hundo ▸ h))
  redo_sound := by simp [hredo]
  open_redo := fun _ => hredo

variable {applied : AppliedChanges}

theorem recordHistory_faithful (laws : ChangeSetLaws changeSetOf)
    {beforeText : JsString} (hbefore : cr ∉ beforeText)
    (htext : r.text = applied.text) (hlinked : LinkedUndo beforeText r.undo)
    (hsound : ∀ entry ∈ r.undo, entry.Sound changeSetOf)
    (happlied : applied.Sound changeSetOf beforeText) {sourceViewId : String}
    {compositionSessionId : Option String} {completionSelection : Option CompletionSelectionSnapshot}
    (hchanges : applied.changes ≠ [] ∨
      r.isSameCompositionSession origin sourceViewId compositionSessionId = true ∧ r.undo ≠ []) :
    (r.recordHistory beforeText applied sourceViewId origin compositionSessionId
      completionSelection).Faithful changeSetOf := by
  have hlf : cr ∉ r.text := htext ▸ happlied.text_lf
  rw [recordHistory]
  split
  · next lastUndo older hsame hundo =>
    rw [hundo] at hlinked hsound
    obtain ⟨hlast, holder⟩ := forall_mem_cons.mp hsound
    -- an entry that cancelled out is dropped, any other one is rewritten in place
    refine faithful_of_recorded (t := applied.text) _ hlf ?_ ?_ rfl rfl
    · split
      · next hcancel => exact htext.trans hcancel.symm ▸ hlinked.2
      · exact ⟨htext.symm, hlinked.2⟩
    · split
      · exact holder
      · exact forall_mem_cons.mpr
          ⟨extendEntry_sound laws hlast.before_lf happlied.text_lf, holder⟩
  · next hnot =>
    have hne : applied.changes ≠ [] := by
      rcases hchanges with hne | ⟨hsame, hundo⟩
      · exact hne
      · obtain ⟨lastUndo, older, heq⟩ := exists_cons_of_ne_nil hundo
        exact absurd heq (hnot lastUndo older hsame)
    refine faithful_of_recorded (t := applied.text) (_ :: r.undo) hlf
      ⟨htext.symm, hlinked⟩ ?_ rfl rfl
    exact forall_mem_cons.mpr ⟨⟨hbefore, happlied.text_lf, happlied.forward hne,
      happlied.inverse hne⟩, hsound⟩

/-! ## Transactions -/

@[simp] theorem finalizeComposition_text (r : DocumentRecord) (target : Option String) :
    (r.finalizeComposition target).text = r.text := by
  rw [finalizeComposition]; split <;> rfl

@[simp] theorem finalizeComposition_undo (r : DocumentRecord) (target : Option String) :
    (r.finalizeComposition target).undo = r.undo := by
  rw [finalizeComposition]; split <;> rfl

@[simp] theorem finalizeComposition_redo (r : DocumentRecord) (target : Option String) :
    (r.finalizeComposition target).redo = r.redo := by
  rw [finalizeComposition]; split <;> rfl

theorem open_of_finalizeComposition {target : Option String}
    (h : (r.finalizeComposition target).openCompositionViewId ≠ none) :
    r.openCompositionViewId ≠ none := by
  rw [finalizeComposition] at h
  split at h
  · exact h
  · exact absurd rfl h

theorem Faithful.finalizeComposition (h : r.Faithful changeSetOf)
    (target : Option String) : (r.finalizeComposition target).Faithful changeSetOf :=
  h.congr (by simp) (by simp) (by simp) open_of_finalizeComposition

/-- A cancelled composition: the text is the one before the newest entry. -/
theorem of_cancelsComposition (h : r.cancelsComposition origin text = true) :
    origin ≠ .composition ∧ r.openCompositionViewId ≠ none ∧
      ∃ entry older, r.undo = entry :: older ∧ text = entry.beforeText := by
  simp only [cancelsComposition, Bool.and_eq_true, Option.any_eq_true, decide_eq_true_eq,
    Option.isSome_iff_ne_none] at h
  obtain ⟨⟨horigin, hopen⟩, entry, hhead, htext⟩ := h
  obtain ⟨older, hundo⟩ := List.head?_eq_some_iff.mp hhead
  exact ⟨horigin, hopen, entry, older, hundo, htext⟩

@[simp] theorem closeComposition_redo (r : DocumentRecord) (origin : DocumentTransactionOrigin)
    (text : JsString) : (r.closeComposition origin text).redo = r.redo := by
  rw [closeComposition]
  split
  · rfl
  · rw [finalizeComposition_redo]

theorem closeComposition_undo_of_not_cancels

    (h : ¬ r.cancelsComposition origin text = true) :
    (r.closeComposition origin text).undo = r.undo := by
  by_cases horigin : origin = .composition
  · rw [closeComposition, if_pos horigin]
  · rw [closeComposition, if_neg horigin, if_neg h, finalizeComposition_undo]

variable {session : Option String} {view : String}

/-- Closing a composition of another origin does not open one, and leaves one of its own alone. -/
theorem isSameCompositionSession_closeComposition
    (h : r.isSameCompositionSession origin view session = true) :
    r.closeComposition origin text = r := by
  simp only [isSameCompositionSession, Bool.and_eq_true, decide_eq_true_eq] at h
  rw [closeComposition, if_pos h.1.1]

/-- The origin leaves a history entry. -/
def Records (origin : DocumentTransactionOrigin) : Prop :=
  (canRecordHistory origin && !isHistoryReplay origin) = true

instance : DecidablePred Records := fun _ => inferInstanceAs (Decidable (_ = true))

variable {selection : Option CompletionSelectionSnapshot}

/-- A transaction cancels the open composition, or leaves an entry that can be replayed, or leaves
none where there is no history. -/
theorem Faithful.commit (laws : ChangeSetLaws changeSetOf)
    (h : r.Faithful changeSetOf) (happlied : applied.Sound changeSetOf r.text)
    (hok : r.cancelsComposition origin applied.text = true ∨ (Records origin ∧ (applied.changes ≠ [] ∨
        r.isSameCompositionSession origin view session = true ∧ r.undo ≠ [])) ∨
      (¬ Records origin ∧ r.undo = [] ∧ r.redo = [])) :
    (r.commit applied view origin session selection).Faithful changeSetOf := by
  rw [DocumentRecord.commit]
  refine Faithful.congr (r := ite _ _ _) ?_ rfl rfl rfl id
  by_cases hcancel : r.cancelsComposition origin applied.text = true
  · obtain ⟨horigin, hopen, entry, older, hundo, htext⟩ := of_cancelsComposition hcancel
    have hlinked := h.undo_linked
    have hsound := h.undo_sound
    rw [hundo] at hlinked hsound
    have hclosed : (r.closeComposition origin applied.text).undo = older := by
      rw [closeComposition, if_neg horigin, if_pos hcancel, finalizeComposition_undo, hundo,
        tail_cons]
    have hredo := (closeComposition_redo r origin applied.text).trans (h.open_redo hopen)
    rw [hcancel, Bool.not_true, Bool.and_false, if_neg Bool.false_ne_true]
    refine ⟨happlied.text_lf, ?_, ?_, ?_, ?_, fun _ => hredo⟩
    · exact hclosed.symm ▸ htext ▸ hlinked.2
    · exact hredo.symm ▸ trivial
    · exact hclosed.symm ▸ (forall_mem_cons.mp hsound).2
    · exact hredo.symm ▸ forall_mem_nil _
  have hundo := closeComposition_undo_of_not_cancels hcancel
  rw [Bool.eq_false_iff.mpr hcancel, Bool.not_false, Bool.and_true]
  rcases hok with hok | ⟨hrecords, hchanges⟩ | ⟨hrecords, hundoNil, hredoNil⟩
  · exact absurd hok hcancel
  · rw [if_pos (Records.eq_def origin ▸ hrecords)]
    refine recordHistory_faithful laws h.text_lf rfl (hundo.symm ▸ h.undo_linked)
      (hundo.symm ▸ h.undo_sound) happlied ?_
    refine hchanges.imp_right fun hsame => ?_
    rw [isSameCompositionSession_closeComposition hsame.1]
    exact hsame
  · have hredo := (closeComposition_redo r origin applied.text).trans hredoNil
    rw [hundoNil] at hundo
    rw [if_neg (Records.eq_def origin ▸ hrecords)]
    refine ⟨happlied.text_lf, ?_, ?_, ?_, ?_, fun _ => hredo⟩
    · exact hundo.symm ▸ trivial
    · exact hredo.symm ▸ trivial
    · exact hundo.symm ▸ forall_mem_nil _
    · exact hredo.symm ▸ forall_mem_nil _

/-- The transaction pushes an entry for changes that neither delete nor insert anything: it is not
refused, does not extend the open composition and does not cancel it. -/
def PushesNoop (r : DocumentRecord) (view : String) (changes : List DocumentChangeDelta)
    (origin : DocumentTransactionOrigin) (session : Option String) : Prop :=
  changes ≠ [] ∧ (∀ change ∈ changes, change.toSplice.IsNoop ∧ change.toPos ≤ r.text.length ∧
      change.deleted.getD [] = []) ∧
    ¬ r.cancelsComposition origin r.text = true ∧
    ¬ (r.isSameCompositionSession origin view session = true ∧ r.undo ≠ [])

instance (r : DocumentRecord) (view : String) (changes : List DocumentChangeDelta)
    (origin : DocumentTransactionOrigin) (session : Option String) :
    Decidable (r.PushesNoop view changes origin session) :=
  inferInstanceAs (Decidable (_ ∧ _ ∧ _ ∧ _))

variable {changes : List DocumentChangeDelta}

/-- Against an empty report every declared deletion must be empty. -/
theorem declaredDeletionsMatch_nil_iff :
    declaredDeletionsMatch changes [] = true ↔ ∀ change ∈ changes, change.deleted.getD [] = [] := by
  rw [declaredDeletionsMatch, all_eq_true]
  constructor
  · intro h change hchange
    obtain ⟨index, hindex, rfl⟩ := getElem_of_mem hchange
    have hentry := h (changes[index], index)
      (List.mk_mem_zipIdx_iff_getElem?.mpr (getElem?_eq_getElem hindex))
    cases hdeleted : changes[index].deleted with
    | none => rfl
    | some deleted => simpa [hdeleted] using hentry
  · intro h entry hmem
    have hentry := h entry.1 (fst_mem_of_mem_zipIdx hmem)
    cases hdeleted : entry.1.deleted with
    | none => simp [hdeleted]
    | some deleted =>
      rw [hdeleted] at hentry
      simpa [hdeleted] using hentry

theorem Faithful.dispatchTransaction (laws : ChangeSetLaws changeSetOf) (h : r.Faithful changeSetOf)
    (hlf : ∀ change ∈ changes, cr ∉ change.insert) (horigin : Records origin)
    (hnoop : ¬ r.PushesNoop view changes origin session) :
    (r.dispatchTransaction changeSetOf view changes origin session selection).1.Faithful
      changeSetOf := by
  rw [DocumentRecord.dispatchTransaction]
  split
  · exact h
  next applied happlied =>
  split
  · next hdeclared =>
    refine h.commit laws (applyChanges_sound laws h.text_lf hlf happlied) ?_
    by_cases hall : ∀ change ∈ changes, change.toSplice.IsNoop
    · obtain ⟨hne, hrange, rfl⟩ := (applyChanges_eq_some_nil_iff laws hall).mp happlied
      by_contra hbad
      refine hnoop ⟨hne, fun change hchange => ⟨hall change hchange, hrange change hchange,
        declaredDeletionsMatch_nil_iff.mp hdeclared change hchange⟩, fun hcancel => hbad (.inl hcancel),
        fun hsame => hbad (.inr (.inl ⟨horigin, .inr hsame⟩))⟩
    · push Not at hall
      exact .inr (.inl ⟨horigin, .inl (applyChanges_changes_ne_nil laws happlied hall)⟩)
  · exact h

/-- A snapshot may only bypass the history where there is none or where it cancels a
composition. -/
def MayReplace (r : DocumentRecord) (text : JsString) (origin : DocumentTransactionOrigin) : Prop :=
  Records origin ∨ r.text = text ∨ r.cancelsComposition origin text = true ∨
    (r.undo = [] ∧ r.redo = [])

instance (r : DocumentRecord) (text : JsString) (origin : DocumentTransactionOrigin) :
    Decidable (r.MayReplace text origin) :=
  inferInstanceAs (Decidable (_ ∨ _ ∨ _ ∨ _))

theorem Faithful.replaceDocument (laws : ChangeSetLaws changeSetOf)
    (h : r.Faithful changeSetOf) (hlf : cr ∉ text) (hok : r.MayReplace text origin) :
    (r.replaceDocument changeSetOf view text origin).1.Faithful changeSetOf := by
  rw [DocumentRecord.replaceDocument]
  split
  · exact h
  next hne =>
  obtain ⟨applied, happlied, htext⟩ := applyChanges_singleReplacement laws r.text hlf
  rw [DocumentRecord.dispatchTransaction, happlied]
  simp only
  split
  · have hsound := applyChanges_sound laws h.text_lf
      (forall_mem_singleton.mpr (not_mem_slice hlf _ _)) happlied
    have hchanges := applyChanges_changes_ne_nil laws happlied
      ⟨_, mem_singleton_self _, not_isNoop_singleReplacement hne⟩
    refine h.commit laws hsound ?_
    rcases hok with hrecords | heq | hcancel | hempty
    · exact .inr (.inl ⟨hrecords, .inl hchanges⟩)
    · exact absurd heq hne
    · exact .inl (htext.symm ▸ hcancel)
    · by_cases hrecords : Records origin
      · exact .inr (.inl ⟨hrecords, .inl hchanges⟩)
      · exact .inr (.inr ⟨hrecords, hempty⟩)
  · exact h

/-! ## Undo and redo -/

theorem Faithful.undoNewest_cons (h : r.Faithful changeSetOf)
    {older : List HistoryEntry} (hundo : r.undo = entry :: older) :
    ∃ changes, r.undoNewest changeSetOf = ({ r with
      undo := older
      redo := entry :: r.redo
      text := entry.beforeText
      revision := r.revision + 1
      openCompositionViewId := none
      openCompositionSessionId := none }, some (changes, entry)) := by
  have hlinked := h.undo_linked
  rw [hundo] at hlinked
  obtain ⟨applied, happlied, htext⟩ := (h.undo_sound entry (by simp [hundo])).inverse
  rw [hlinked.1] at happlied
  refine ⟨applied.changes, ?_⟩
  rw [undoNewest]
  simp [hundo, hlinked.1, happlied, htext]

theorem Faithful.redoNewest_cons (h : r.Faithful changeSetOf)
    {later : List HistoryEntry} (hredo : r.redo = entry :: later) :
    ∃ changes, r.redoNewest changeSetOf = ({ r with
      redo := later
      undo := entry :: r.undo
      text := entry.afterText
      revision := r.revision + 1
      openCompositionViewId := none
      openCompositionSessionId := none }, some (changes, entry)) := by
  have hlinked := h.redo_linked
  rw [hredo] at hlinked
  obtain ⟨applied, happlied, htext⟩ := (h.redo_sound entry (by simp [hredo])).forward
  rw [hlinked.1] at happlied
  refine ⟨applied.changes, ?_⟩
  rw [redoNewest]
  simp [hredo, hlinked.1, happlied, htext]

theorem undoNewest_nil (hundo : r.undo = []) : r.undoNewest changeSetOf
      = ({ r with openCompositionViewId := none, openCompositionSessionId := none }, none) := by
  rw [undoNewest]
  simp [hundo]

theorem redoNewest_nil (hredo : r.redo = []) : r.redoNewest changeSetOf
      = ({ r with openCompositionViewId := none, openCompositionSessionId := none }, none) := by
  rw [redoNewest]
  simp [hredo]

theorem Faithful.undoNewest (h : r.Faithful changeSetOf) :
    (r.undoNewest changeSetOf).1.Faithful changeSetOf := by
  rcases hundo : r.undo with _ | ⟨entry, older⟩
  · rw [undoNewest_nil hundo]
    exact h.congr rfl rfl rfl (absurd rfl)
  · obtain ⟨changes, heq⟩ := h.undoNewest_cons hundo
    have hlinked := h.undo_linked
    have hsound := h.undo_sound
    rw [hundo] at hlinked hsound
    obtain ⟨hentry, holder⟩ := forall_mem_cons.mp hsound
    rw [heq]
    exact ⟨hentry.before_lf, hlinked.2, ⟨rfl, hlinked.1.symm ▸ h.redo_linked⟩, holder,
      forall_mem_cons.mpr ⟨hentry, h.redo_sound⟩, absurd rfl⟩

theorem Faithful.redoNewest (h : r.Faithful changeSetOf) :
    (r.redoNewest changeSetOf).1.Faithful changeSetOf := by
  rcases hredo : r.redo with _ | ⟨entry, later⟩
  · rw [redoNewest_nil hredo]
    exact h.congr rfl rfl rfl (absurd rfl)
  · obtain ⟨changes, heq⟩ := h.redoNewest_cons hredo
    have hlinked := h.redo_linked
    have hsound := h.redo_sound
    rw [hredo] at hlinked hsound
    obtain ⟨hentry, hlater⟩ := forall_mem_cons.mp hsound
    rw [heq]
    exact ⟨hentry.after_lf, ⟨rfl, hlinked.1.symm ▸ h.undo_linked⟩, hlinked.2,
      forall_mem_cons.mpr ⟨hentry, h.undo_sound⟩, hlater, absurd rfl⟩

end DocumentRecord

end Taomni.Document
