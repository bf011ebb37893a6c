import Taomni.TabPolicy.Planning

/-!
# The tab policy transaction

Reference: `components/editor/workspace/tabPolicy/transaction.ts`, as
`controller/applyTabPolicy.ts` calls it.

The transaction runs without interruption except while it awaits `confirmDirtyClose`. A `Prompt` is
what that await amounts to: what happens in the editor meanwhile, and the answer.
`applyWorkspaceTabPolicyTransaction` returns the receipt beside what was committed, what was
confirmed and the editor at that moment.
-/

namespace Taomni.TabPolicy

/-! ## The editor meanwhile -/

/-- What a prompt can interleave with. -/
inductive EditorEvent where
  | edit (key : String)
  | save (key : String)
  | changeLayout
deriving DecidableEq, Repr

/-- The part of the editor the transaction depends on. -/
structure Editor where
  openFiles : OpenFiles
  layoutRevision : ℕ

/-- An edit leaves an open buffer dirty and a save leaves it clean; neither touches the layout. -/
def Editor.step (editor : Editor) : EditorEvent → Editor
  | .edit key => { editor with
      openFiles := editor.openFiles.mapValues fun k file => if k = key then ⟨true⟩ else file }
  | .save key => { editor with
      openFiles := editor.openFiles.mapValues fun k file => if k = key then ⟨false⟩ else file }
  | .changeLayout => { editor with layoutRevision := editor.layoutRevision + 1 }

def Editor.run (editor : Editor) (events : List EditorEvent) : Editor :=
  events.foldl Editor.step editor

structure Prompt where
  confirmed : Bool
  meanwhile : List EditorEvent

/-! ## The transaction -/

structure ApplyWorkspaceTabPolicyTransactionParams where
  workspaceInstanceId : String
  nextPolicyRaw : Json
  currentPolicy : Option WorkspaceTabPolicyV3
  baseLayoutRevision : Option ℕ
  currentLayoutRevision : Option ℕ
  /-- Whether `getLiveLayoutRevision` is given; it reads the editor. -/
  getLiveLayoutRevision : Bool
  currentGroups : Record TabPolicyGroup
  mruFileKeys : List String
  allowDirtyCandidates : Option Bool
  confirmDirtyClose : Option Prompt
  /-- Whether `onEvictClosedFile` is given. -/
  onEvictClosedFile : Bool

/-- The payload of `commitAtomicUpdate`. -/
structure TabPolicyCommit where
  nextGroups : Record TabPolicyGroup
  evictedKeys : List String
  policy : WorkspaceTabPolicyV3
  plan : TabPolicyPlan

inductive TabPolicyStatus where
  | applied
  | noOp
  | aborted
  | stale (liveLayoutRevision : ℕ)
deriving DecidableEq, Repr

structure TabPolicyCommitReceipt where
  status : TabPolicyStatus
  plan : TabPolicyPlan
  committedLayoutRevision : Option ℕ
  allEvictedKeys : List String
  evictedKeysByGroup : Record (List String)
  policy : WorkspaceTabPolicyV3
  message : String

/-- A finished transaction: the receipt, the commit if there was one, the keys the user confirmed,
the editor at that moment and the files purged after the commit. -/
structure TabPolicyRun where
  receipt : TabPolicyCommitReceipt
  commit : Option TabPolicyCommit
  confirmedKeys : List String
  editor : Editor
  purgedKeys : List String

/-- `editor` at the end of a transaction that commits nothing, with the receipt it returns. -/
def TabPolicyRun.uncommitted (receipt : TabPolicyCommitReceipt) (confirmedKeys : List String)
    (editor : Editor) : TabPolicyRun :=
  { receipt, commit := none, confirmedKeys, editor, purgedKeys := [] }

/-- A receipt that reports no eviction. -/
def emptyReceipt (plan : TabPolicyPlan) (status : TabPolicyStatus) (message : String) :
    TabPolicyCommitReceipt :=
  { status
    plan
    committedLayoutRevision := none
    allEvictedKeys := []
    evictedKeysByGroup := .empty
    policy := plan.postPolicy
    message }

/-- The parameters `createTabPolicyPlan` is called with. -/
def ApplyWorkspaceTabPolicyTransactionParams.planParams
    (params : ApplyWorkspaceTabPolicyTransactionParams) (openFiles : OpenFiles) :
    CreateTabPolicyPlanParams :=
  { workspaceInstanceId := params.workspaceInstanceId
    nextPolicyRaw := params.nextPolicyRaw
    currentPolicy := params.currentPolicy
    baseLayoutRevision := params.baseLayoutRevision.getD 0
    currentGroups := params.currentGroups
    openFiles
    mruFileKeys := params.mruFileKeys
    allowDirtyCandidates := params.allowDirtyCandidates.getD params.confirmDirtyClose.isSome }

/-- Commit the evictions of a plan in one update. -/
def commitEvictions (params : ApplyWorkspaceTabPolicyTransactionParams) (base : ℕ)
    (plan : TabPolicyPlan) (confirmedKeys : List String) (editor : Editor) : TabPolicyRun :=
  { receipt :=
      { status := .applied
        plan
        committedLayoutRevision := some (base + 1)
        allEvictedKeys := plan.allEvictedKeys
        evictedKeysByGroup := plan.evictionsByGroup
        policy := plan.postPolicy
        message := plan.message }
    commit := some
      { nextGroups := plan.postGroups.mapValues fun _ group => group.toTabPolicyGroup
        evictedKeys := plan.allEvictedKeys
        policy := plan.postPolicy
        plan }
    confirmedKeys
    editor
    purgedKeys := if params.onEvictClosedFile then plan.unreferencedEvictedKeys else [] }

/-- What follows the await on `confirmDirtyClose`. -/
def resumeAfterPrompt (params : ApplyWorkspaceTabPolicyTransactionParams) (base : ℕ)
    (plan : TabPolicyPlan) (confirmed : Bool) (editor : Editor) : TabPolicyRun :=
  if !confirmed then
    .uncommitted (emptyReceipt plan .aborted
      "Tab policy application cancelled: dirty tabs preserved") [] editor
  else
    let liveRevision := if params.getLiveLayoutRevision then editor.layoutRevision else base
    if liveRevision ≠ base then
      .uncommitted (emptyReceipt plan (.stale liveRevision)
        "Layout changed concurrently during confirmation; tab policy application aborted")
        plan.dirtyEvictedKeys editor
    else commitEvictions params base plan plan.dirtyEvictedKeys editor

/-- Plan, confirm and commit a tab policy change. -/
def applyWorkspaceTabPolicyTransaction (now : ℕ)
    (params : ApplyWorkspaceTabPolicyTransactionParams) (editor : Editor) : TabPolicyRun :=
  let base := params.baseLayoutRevision.getD 0
  let current := params.currentLayoutRevision.getD base
  let plan := createTabPolicyPlan now (params.planParams editor.openFiles)
  if base ≠ current then
    .uncommitted (emptyReceipt plan (.stale current)
      "Layout changed concurrently; tab policy application aborted") [] editor
  else if plan.isNoOp then .uncommitted (emptyReceipt plan .noOp plan.message) [] editor
  else if plan.allEvictedKeys = [] then
    -- the policy changes without eviction
    { receipt := { emptyReceipt plan .applied
          "Tab policy updated successfully with 0 evictions" with
        committedLayoutRevision := some (base + 1) }
      commit := some
        { nextGroups := params.currentGroups, evictedKeys := [], policy := plan.postPolicy, plan }
      confirmedKeys := []
      editor
      purgedKeys := [] }
  else
    match params.confirmDirtyClose with
    | some prompt =>
        if plan.dirtyEvictedKeys = [] then commitEvictions params base plan [] editor
        else resumeAfterPrompt params base plan prompt.confirmed (editor.run prompt.meanwhile)
    | none => commitEvictions params base plan [] editor

/-! ## When no unsaved work is lost -/

/-- Every evicted file is clean at the commit or was confirmed, and only an applied transaction
commits. -/
def TabPolicyRun.Safe (run : TabPolicyRun) : Prop :=
  (∀ commit ∈ run.commit, ∀ k ∈ commit.evictedKeys,
    run.editor.openFiles.dirty k = false ∨ k ∈ run.confirmedKeys) ∧
    (run.receipt.status ≠ .applied → run.commit.isNone = true)

instance (run : TabPolicyRun) : Decidable run.Safe := inferInstanceAs (Decidable (_ ∧ _))

/-- One event, seen from one buffer. -/
def EditorEvent.dirtyAfter (key : String) (dirty : Bool) : EditorEvent → Bool
  | edit k => dirty || k = key
  | save k => dirty && k ≠ key
  | changeLayout => dirty

/-- Whether the last of the events on this buffer is an edit. -/
def endsEdited (events : List EditorEvent) (key : String) : Bool :=
  events.foldl (EditorEvent.dirtyAfter key) false

theorem get?_step (editor : Editor) (event : EditorEvent) (key : String) :
    (editor.step event).openFiles.get? key =
      (editor.openFiles.get? key).map fun file => ⟨event.dirtyAfter key file.dirty⟩ := by
  cases event with
  | edit k =>
    rw [Editor.step, Record.get?_mapValues]
    refine Option.map_congr fun file _ => ?_
    by_cases h : key = k <;> simp [EditorEvent.dirtyAfter, h, eq_comm]
  | save k =>
    rw [Editor.step, Record.get?_mapValues]
    refine Option.map_congr fun file _ => ?_
    by_cases h : key = k <;> simp [EditorEvent.dirtyAfter, h, eq_comm]
  | changeLayout =>
    show editor.openFiles.get? key = _
    cases editor.openFiles.get? key <;> rfl

/-- The open buffers after a run of events. -/
theorem get?_run (editor : Editor) (events : List EditorEvent) (key : String) :
    (editor.run events).openFiles.get? key = (editor.openFiles.get? key).map fun file =>
      ⟨events.foldl (EditorEvent.dirtyAfter key) file.dirty⟩ := by
  induction events generalizing editor with
  | nil =>
    show editor.openFiles.get? key = _
    cases editor.openFiles.get? key <;> rfl
  | cons event rest ih =>
    show ((editor.step event).run rest).openFiles.get? key = _
    rw [ih, get?_step, Option.map_map]
    rfl

/-- A buffer that was clean is dirty after the events exactly when it is open and they end in an
edit of it. -/
theorem dirty_run_of_clean {editor : Editor} {key : String}
    (hclean : editor.openFiles.dirty key = false) (events : List EditorEvent) :
    (editor.run events).openFiles.dirty key =
      ((editor.openFiles.get? key).isSome && endsEdited events key) := by
  rw [OpenFiles.dirty] at hclean ⊢
  rw [get?_run]
  cases hfile : editor.openFiles.get? key with
  | none => rfl
  | some file =>
    rw [hfile] at hclean
    have hfalse : file.dirty = false := hclean
    simp [hfalse, endsEdited]

/-- The inputs on which no unsaved work is lost. With a prompt: it evicts nothing dirty, so it is not
shown; or it is declined; or the layout moves; or no open file evicted as clean is left edited. -/
def SparesUnconfirmed (now : ℕ) (params : ApplyWorkspaceTabPolicyTransactionParams)
    (editor : Editor) : Prop :=
  let base := params.baseLayoutRevision.getD 0
  let plan := createTabPolicyPlan now (params.planParams editor.openFiles)
  base ≠ params.currentLayoutRevision.getD base ∨ plan.dirtyEvictedKeys = [] ∨
    ∃ prompt ∈ params.confirmDirtyClose, prompt.confirmed = false ∨
      (params.getLiveLayoutRevision = true ∧
        (editor.run prompt.meanwhile).layoutRevision ≠ base) ∨
      ∀ k ∈ plan.allEvictedKeys, editor.openFiles.dirty k = false →
        (editor.openFiles.get? k).isSome = true → endsEdited prompt.meanwhile k = false

theorem safe_uncommitted (receipt : TabPolicyCommitReceipt) (confirmedKeys : List String)
    (editor : Editor) : (TabPolicyRun.uncommitted receipt confirmedKeys editor).Safe :=
  ⟨by simp [TabPolicyRun.uncommitted], fun _ => rfl⟩

/-- A commit of evictions is safe exactly when every evicted file is clean or confirmed. -/
theorem safe_commitEvictions_iff {params : ApplyWorkspaceTabPolicyTransactionParams} {base : ℕ}
    {plan : TabPolicyPlan} {confirmedKeys : List String} {editor : Editor} :
    (commitEvictions params base plan confirmedKeys editor).Safe ↔
      ∀ k ∈ plan.allEvictedKeys, editor.openFiles.dirty k = false ∨ k ∈ confirmedKeys := by
  simp [TabPolicyRun.Safe, commitEvictions]

section Commit

variable (now : ℕ) (params : ApplyWorkspaceTabPolicyTransactionParams) (editor : Editor)

/-- Evicting nothing dirty is safe without asking. -/
theorem safe_commit_clean (base : ℕ)
    (h : (createTabPolicyPlan now (params.planParams editor.openFiles)).dirtyEvictedKeys = []) :
    (commitEvictions params base (createTabPolicyPlan now (params.planParams editor.openFiles)) []
      editor).Safe := by
  refine safe_commitEvictions_iff.mpr fun k hk => .inl ?_
  by_contra hdirty
  have hmem := mem_dirtyEvictedKeys.mpr ⟨hk, Bool.eq_true_of_not_eq_false hdirty⟩
  rw [h] at hmem
  cases hmem

/-- Evicting something dirty without asking is not. -/
theorem not_safe_commit_dirty (base : ℕ)
    (h : (createTabPolicyPlan now (params.planParams editor.openFiles)).dirtyEvictedKeys ≠ []) :
    ¬ (commitEvictions params base (createTabPolicyPlan now (params.planParams editor.openFiles)) []
      editor).Safe := by
  intro hsafe
  obtain ⟨k, hk⟩ := List.exists_mem_of_ne_nil _ h
  obtain ⟨hmem, hdirty⟩ := mem_dirtyEvictedKeys.mp hk
  rcases safe_commitEvictions_iff.mp hsafe k hmem with hclean | hnil
  · exact absurd (hdirty.symm.trans hclean) (by decide)
  · cases hnil

/-- After a prompt, safety is about the files that were not asked for. -/
theorem safe_commit_prompted_iff (base : ℕ) (events : List EditorEvent) :
    (commitEvictions params base (createTabPolicyPlan now (params.planParams editor.openFiles))
        (createTabPolicyPlan now (params.planParams editor.openFiles)).dirtyEvictedKeys
        (editor.run events)).Safe ↔
      ∀ k ∈ (createTabPolicyPlan now (params.planParams editor.openFiles)).allEvictedKeys,
        editor.openFiles.dirty k = false → (editor.openFiles.get? k).isSome = true →
          endsEdited events k = false := by
  rw [safe_commitEvictions_iff]
  refine forall₂_congr fun k hk => ?_
  cases hdirty : editor.openFiles.dirty k with
  | true =>
    refine iff_of_true (.inr (mem_dirtyEvictedKeys.mpr ⟨hk, hdirty⟩)) ?_
    intro h
    cases h
  | false =>
    rw [dirty_run_of_clean hdirty, mem_dirtyEvictedKeys]
    simp [ApplyWorkspaceTabPolicyTransactionParams.planParams, hdirty, imp_iff_not_or]

end Commit

/-- A transaction loses no unconfirmed work exactly on these inputs. -/
theorem applyWorkspaceTabPolicyTransaction_safe_iff (now : ℕ)
    (params : ApplyWorkspaceTabPolicyTransactionParams) (editor : Editor) :
    (applyWorkspaceTabPolicyTransaction now params editor).Safe ↔
      SparesUnconfirmed now params editor := by
  rw [applyWorkspaceTabPolicyTransaction, SparesUnconfirmed]
  by_cases hbase : params.baseLayoutRevision.getD 0
      = params.currentLayoutRevision.getD (params.baseLayoutRevision.getD 0)
  swap
  · rw [if_pos hbase]
    exact iff_of_true (safe_uncommitted _ _ _) (.inl hbase)
  rw [if_neg (not_not.mpr hbase)]
  by_cases hdirty : (createTabPolicyPlan now (params.planParams editor.openFiles)).dirtyEvictedKeys
      = []
  · -- nothing dirty is evicted, so no branch asks or loses anything
    refine iff_of_true ?_ (.inr (.inl hdirty))
    have hcommit := safe_commit_clean now params editor (params.baseLayoutRevision.getD 0) hdirty
    split
    · exact safe_uncommitted _ _ _
    split
    · exact ⟨by simp, fun h => absurd rfl h⟩
    split <;> exact hcommit
  have hevicted : (createTabPolicyPlan now (params.planParams editor.openFiles)).allEvictedKeys
      ≠ [] := by
    intro hnil
    obtain ⟨k, hk⟩ := List.exists_mem_of_ne_nil _ hdirty
    have := (mem_dirtyEvictedKeys.mp hk).1
    rw [hnil] at this
    cases this
  have hnoOp : (createTabPolicyPlan now (params.planParams editor.openFiles)).isNoOp = false :=
    decide_eq_false fun h => hevicted h.1
  rw [or_iff_right (not_not.mpr hbase), or_iff_right hdirty]
  simp only [hnoOp, Bool.false_eq_true, if_false, if_neg hevicted, if_neg hdirty]
  cases hprompt : params.confirmDirtyClose with
  | none => exact iff_of_false (not_safe_commit_dirty now params editor _ hdirty) (by simp)
  | some prompt =>
    simp only [Option.mem_def, Option.some.injEq, exists_eq_left', resumeAfterPrompt]
    cases prompt.confirmed with
    | false => exact iff_of_true (safe_uncommitted _ _ _) (.inl rfl)
    | true =>
      have hcommit := safe_commit_prompted_iff now params editor
        (params.baseLayoutRevision.getD 0) prompt.meanwhile
      simp only [Bool.not_true, Bool.false_eq_true, if_false, false_or, Bool.true_eq_false]
      by_cases hmoved : params.getLiveLayoutRevision = true ∧
          (editor.run prompt.meanwhile).layoutRevision ≠ params.baseLayoutRevision.getD 0
      · rw [if_pos hmoved.1, if_pos hmoved.2]
        exact iff_of_true (safe_uncommitted _ _ _) (.inl hmoved)
      · rw [or_iff_right hmoved, if_neg, hcommit]
        split
        · next hlive => exact fun hne => hmoved ⟨hlive, hne⟩
        · exact fun hne => hne rfl

/-- One group with a dirty tab, a clean tab and a pinned one, and a limit of one tab. -/
def onePinnedParams (prompt : Prompt) : ApplyWorkspaceTabPolicyTransactionParams where
  workspaceInstanceId := "ws"
  nextPolicyRaw := { defaultWorkspaceTabPolicyV3 with limitPerLeaf := 1 }.toJson
  currentPolicy := none
  baseLayoutRevision := some 0
  currentLayoutRevision := some 0
  getLiveLayoutRevision := true
  currentGroups := .ofEntries [("g",
    { openOrder := ["a", "b", "c"], pinnedKeys := ["c"], previewKey := none, activeKey := some "c" })]
  mruFileKeys := ["c", "b", "a"]
  allowDirtyCandidates := none
  confirmDirtyClose := some prompt
  onEvictClosedFile := true

def onePinnedEditor : Editor where
  openFiles := .ofEntries [("a", ⟨true⟩), ("b", ⟨false⟩), ("c", ⟨false⟩)]
  layoutRevision := 0

/-- The user is asked about `a`, edits `b` while the prompt is open and confirms: `b` is evicted
and purged with the edit. -/
theorem edit_during_prompt_is_lost :
    let run := applyWorkspaceTabPolicyTransaction 0 (onePinnedParams ⟨true, [.edit "b"]⟩)
      onePinnedEditor
    ¬ run.Safe ∧ run.commit.map (·.evictedKeys) = some ["b", "a"] ∧ run.confirmedKeys = ["a"] ∧
      run.editor.openFiles.dirty "b" = true ∧ run.purgedKeys = ["b", "a"] := by
  decide +kernel

end Taomni.TabPolicy
