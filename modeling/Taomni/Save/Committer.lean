import Taomni.Save.SaveBytes

/-!
# The single-writer save committer

Reference: `src/components/editor/workspace/saveCommit.ts`.

The committer checks the boundary, encodes, writes once and classifies what came back. It runs in a
state that lists the calls of the writer. A rejection whose effect the parser lost, or that states
none, is reported as if nothing had been written (`commit_truthful_iff`).
-/

namespace Taomni.Save

open JsString (ascii)

/-! ## Results -/

structure WorkspaceFile where
  path : String
  text : JsString
  encoding : Option String
  bom : Option Bool
  size : ℕ
  mtime : ℕ
  hash : String
deriving DecidableEq

structure FinalBytesReceipt where
  receiptId : String
  transactionId : String
  workspaceId : String
  filePath : String
  writeCount : ℕ
  finalTextSha256 : String
  encodedBytesSha256 : String
  encodedByteLength : ℕ
  policy : SaveCommitPolicy
  diskPreSha256 : Option String
  diskPostSha256 : String
  historyId : Option String
  recoveryId : Option String
  committedAt : ℕ
deriving DecidableEq

inductive DiskEffect where
  | none | committed | unknown
deriving DecidableEq

inductive MemoryEffect where
  | unchanged | savedCurrent | keptDirty | writebackDiscarded
deriving DecidableEq

inductive ProviderEffect where
  | notSent | didSave | didChangeCurrent | discarded | failed | unknown
deriving DecidableEq

/-- The kinds of a result with what they carry. `failed` comes with and without a proof that the disk
is untouched. -/
inductive SaveCommitResult where
  | savedCurrent (transactionId : String) (providerEffect : ProviderEffect) (file : WorkspaceFile)
      (receipt : FinalBytesReceipt) (historyId : Option String)
  | savedStaleSnapshot (transactionId : String) (providerEffect : ProviderEffect)
      (file : WorkspaceFile) (savedRevision currentRevision : ℕ) (receipt : FinalBytesReceipt)
      (historyId : Option String)
  | committedWritebackDiscarded (transactionId : String) (file : WorkspaceFile) (reason : String)
      (receipt : FinalBytesReceipt) (historyId : Option String) (recoveryId : String)
  | cancelled (transactionId phase reason : String)
  | conflict (transactionId : String) (error : WorkspaceWriteError)
  | failed (transactionId : String) (error : WorkspaceWriteError)
  | failedUnknown (transactionId : String) (error : WorkspaceWriteError) (recoveryId : String)
deriving DecidableEq

namespace SaveCommitResult

def diskEffect : SaveCommitResult → DiskEffect
  | savedCurrent .. | savedStaleSnapshot .. | committedWritebackDiscarded .. => .committed
  | cancelled .. | conflict .. | failed .. => .none
  | failedUnknown .. => .unknown

def memoryEffect : SaveCommitResult → MemoryEffect
  | savedCurrent .. => .savedCurrent
  | savedStaleSnapshot .. => .keptDirty
  | committedWritebackDiscarded .. => .writebackDiscarded
  | cancelled .. | conflict .. | failed .. | failedUnknown .. => .unchanged

def providerEffect : SaveCommitResult → ProviderEffect
  | savedCurrent _ effect .. => effect
  | savedStaleSnapshot _ effect .. => effect
  | committedWritebackDiscarded .. => .discarded
  | cancelled .. | conflict .. | failed .. => .notSent
  | failedUnknown .. => .unknown

/-- The recovery id of a result that has one. -/
def recoveryId? : SaveCommitResult → Option String
  | committedWritebackDiscarded _ _ _ _ _ recoveryId => some recoveryId
  | failedUnknown _ _ recoveryId => some recoveryId
  | _ => none

end SaveCommitResult

/-! ## The committer -/

/-- The options of a committer during one save: what the boundary is before the write and what the
live revision is after it, what the writer does, and the clock. -/
structure SingleWriterCommitterOptions where
  sha256 : Sha256
  liveBoundary : Option PreparedSaveBoundary
  /-- The boundary at its second reading. -/
  liveBoundaryAfter : Option PreparedSaveBoundary
  /-- What `getLiveAfterWrite` returns, where the option is given. -/
  liveAfterWrite : Option (Option ℕ)
  writeToDisk : PreparedSave → EncodedSaveBytes → Except Rejection WorkspaceFile
  generateHistoryId : Option (PreparedSave → String)
  generateRecoveryId : Option (PreparedSave → String)
  now : ℕ

inductive SaveWritebackClassification where
  | savedCurrent
  | savedStaleSnapshot (currentRevision : ℕ)
  | discarded (reason : String)

/-- `live` is the revision of the document, `none` for a closed buffer. -/
def classifySaveWriteback (prepared : PreparedSave) (live : Option ℕ) :
    SaveWritebackClassification :=
  match live with
  | none => .discarded "Open buffer closed while writer was in flight"
  | some revision =>
      if revision = prepared.bufferRevision then .savedCurrent else .savedStaleSnapshot revision

/-- `a || b` on strings. -/
def orString (a b : String) : String := if a = "" then b else a

/-- `buildFinalBytesReceipt` with the acknowledgement that the committer builds. -/
def buildFinalBytesReceipt (options : SingleWriterCommitterOptions) (prepared : PreparedSave)
    (encoded : EncodedSaveBytes) (file : WorkspaceFile) : FinalBytesReceipt :=
  let writtenHash := orString file.hash encoded.bytesSha256
  let historyId :=
    match options.generateHistoryId with
    | some generate => generate prepared
    | none => "hist-" ++ prepared.transactionId
  { receiptId := "receipt-" ++ prepared.transactionId
    transactionId := prepared.transactionId
    workspaceId := prepared.workspaceId
    filePath := prepared.filePath
    writeCount := 1
    finalTextSha256 :=
      options.sha256.hexOfText (prepareSaveTextForWriter prepared.text prepared.policy)
    encodedBytesSha256 := orString encoded.bytesSha256 writtenHash
    encodedByteLength := encoded.byteLength
    policy := prepared.policy
    diskPreSha256 := prepared.expectedDiskHash
    diskPostSha256 := writtenHash
    historyId := if historyId = "" then none else some historyId
    recoveryId := none
    committedAt := options.now }

def recoveryIdOf (options : SingleWriterCommitterOptions) (prepared : PreparedSave) : String :=
  match options.generateRecoveryId with
  | some generate => generate prepared
  | none => prepared.transactionId

/-- The result after the writer rejected. -/
def resultOfRejection (options : SingleWriterCommitterOptions) (prepared : PreparedSave)
    (err : Rejection) : SaveCommitResult :=
  let parsed := parseWorkspaceWriteError err
  if parsed.kind = .hashMismatch then .conflict prepared.transactionId parsed
  else if parsed.effect = some .unknown then
    .failedUnknown prepared.transactionId parsed (recoveryIdOf options prepared)
  else .failed prepared.transactionId parsed

/-- The result after the writer resolved. -/
def resultOfWritten (options : SingleWriterCommitterOptions) (prepared : PreparedSave)
    (encoded : EncodedSaveBytes) (file : WorkspaceFile) : SaveCommitResult :=
  let liveAfter :=
    match options.liveAfterWrite with
    | some live => live
    | none => options.liveBoundaryAfter.map PreparedSaveBoundary.documentRevision
  let receipt := buildFinalBytesReceipt options prepared encoded file
  match classifySaveWriteback prepared liveAfter with
  | .savedCurrent =>
      .savedCurrent prepared.transactionId .didSave file receipt receipt.historyId
  | .savedStaleSnapshot currentRevision =>
      .savedStaleSnapshot prepared.transactionId .didChangeCurrent file prepared.bufferRevision
        currentRevision receipt receipt.historyId
  | .discarded reason =>
      let recoveryId := recoveryIdOf options prepared
      .committedWritebackDiscarded prepared.transactionId file reason
        { receipt with recoveryId := some recoveryId } receipt.historyId recoveryId

/-- One call of the writer. -/
abbrev WriteCall := PreparedSave × EncodedSaveBytes

/-- `await options.writeToDisk(prepared, encoded)`. -/
def callWriter (options : SingleWriterCommitterOptions) (prepared : PreparedSave)
    (encoded : EncodedSaveBytes) : StateM (List WriteCall) (Except Rejection WorkspaceFile) := do
  modify (· ++ [(prepared, encoded)])
  return options.writeToDisk prepared encoded

/-- `createSingleWriterSaveCommitter`: the committer on one prepared save. -/
def singleWriterSaveCommitter (options : SingleWriterCommitterOptions) (prepared : PreparedSave) :
    StateM (List WriteCall) SaveCommitResult := do
  match validatePreparedSaveBoundary prepared options.liveBoundary with
  | some boundaryError => return .cancelled prepared.transactionId "pre-write" boundaryError
  | none =>
      match encodeSaveBytes options.sha256 prepared.text prepared.policy with
      | .error err =>
          return .failed prepared.transactionId (parseWorkspaceWriteError (.typed err))
      | .ok encoded =>
          match ← callWriter options prepared encoded with
          | .error err => return resultOfRejection options prepared err
          | .ok file => return resultOfWritten options prepared encoded file

/-- The result and the calls of the writer for one save. -/
def commit (options : SingleWriterCommitterOptions) (prepared : PreparedSave) :
    SaveCommitResult × List WriteCall :=
  (singleWriterSaveCommitter options prepared).run []

/-! ## What the committer does -/

/-- The save reaches the writer with these bytes. -/
def Reaches (options : SingleWriterCommitterOptions) (prepared : PreparedSave)
    (encoded : EncodedSaveBytes) : Prop :=
  validatePreparedSaveBoundary prepared options.liveBoundary = none ∧
    encodeSaveBytes options.sha256 prepared.text prepared.policy = .ok encoded

variable (options : SingleWriterCommitterOptions)

private theorem run_callWriter_bind {α : Type} (prepared : PreparedSave) (encoded : EncodedSaveBytes)
    (k : Except Rejection WorkspaceFile → StateM (List WriteCall) α) (calls : List WriteCall) :
    (callWriter options prepared encoded >>= k).run calls
      = (k (options.writeToDisk prepared encoded)).run (calls ++ [(prepared, encoded)]) := rfl

/-- The committer ends before the writer with an untouched disk, or calls it once and reports what
it did. -/
theorem commit_cases (prepared : PreparedSave) :
    ((commit options prepared).2 = [] ∧ (commit options prepared).1.diskEffect = .none ∧
      ∀ encoded, ¬ Reaches options prepared encoded) ∨ ∃ encoded, Reaches options prepared encoded ∧
      (commit options prepared).2 = [(prepared, encoded)] ∧ (commit options prepared).1
        = match options.writeToDisk prepared encoded with
          | .error err => resultOfRejection options prepared err
          | .ok file => resultOfWritten options prepared encoded file := by
  rw [commit, singleWriterSaveCommitter]
  cases hboundary : validatePreparedSaveBoundary prepared options.liveBoundary with
  | some reason =>
    refine .inl ⟨rfl, rfl, fun encoded h => ?_⟩
    rw [h.1] at hboundary
    cases hboundary
  | none =>
    cases hencode : encodeSaveBytes options.sha256 prepared.text prepared.policy with
    | error err =>
      refine .inl ⟨rfl, rfl, fun encoded h => ?_⟩
      rw [h.2] at hencode
      cases hencode
    | ok encoded =>
      refine .inr ⟨encoded, ⟨hboundary, hencode⟩, ?_⟩
      dsimp only
      rw [run_callWriter_bind]
      cases options.writeToDisk prepared encoded <;> exact ⟨rfl, rfl⟩

theorem resultOfWritten_diskEffect
    (prepared : PreparedSave) (encoded : EncodedSaveBytes) (file : WorkspaceFile) :
    (resultOfWritten options prepared encoded file).diskEffect = .committed := by
  rw [resultOfWritten]
  split <;> rfl

theorem resultOfRejection_not_committed (prepared : PreparedSave) (err : Rejection) :
    (resultOfRejection options prepared err).diskEffect ≠ .committed := by
  rw [resultOfRejection]
  split
  · exact DiskEffect.noConfusion
  split <;> exact DiskEffect.noConfusion

/-- A rejection is reported as unknown exactly when it is no hash mismatch and states so where the
parser keeps it, and then with a recovery id. -/
theorem resultOfRejection_unknown (prepared : PreparedSave) (err : Rejection) :
    ((resultOfRejection options prepared err).diskEffect = .unknown ↔
      ¬ IsHashMismatch err ∧ StatesUnknownEffect err) ∧
    ((resultOfRejection options prepared err).diskEffect = .unknown →
      (resultOfRejection options prepared err).recoveryId? = some (recoveryIdOf options prepared)) := by
  rw [resultOfRejection]
  split
  · next hkind =>
    rw [parseWorkspaceWriteError_kind] at hkind
    exact ⟨iff_of_false DiskEffect.noConfusion fun h => h.1 hkind, DiskEffect.noConfusion⟩
  next hkind =>
  rw [parseWorkspaceWriteError_kind] at hkind
  split
  · next heffect =>
    rw [parseWorkspaceWriteError_effect hkind] at heffect
    exact ⟨iff_of_true rfl ⟨hkind, heffect⟩, fun _ => rfl⟩
  · next heffect =>
    rw [parseWorkspaceWriteError_effect hkind] at heffect
    exact ⟨iff_of_false DiskEffect.noConfusion fun h => heffect h.2, DiskEffect.noConfusion⟩

/-! ## What the committer says of the disk -/

/-- The writer is called at most once and only behind the boundary check and the encoder; `committed`
is reported exactly when it resolved, `none` only when it was not called or its rejection proves that
nothing was written, and every other rejection as `unknown` with a recovery id. -/
structure Truthful (options : SingleWriterCommitterOptions) (prepared : PreparedSave) : Prop where
  calls : (commit options prepared).2 = [] ∨
    ∃ encoded, Reaches options prepared encoded ∧
      (commit options prepared).2 = [(prepared, encoded)]
  committed : (commit options prepared).1.diskEffect = .committed ↔
    ∃ encoded file, (commit options prepared).2 = [(prepared, encoded)] ∧
      options.writeToDisk prepared encoded = .ok file
  none : (commit options prepared).1.diskEffect = .none →
    (commit options prepared).2 = [] ∨
      ∃ encoded err, (commit options prepared).2 = [(prepared, encoded)] ∧
        options.writeToDisk prepared encoded = .error err ∧ ProvesZeroEffect err
  unknown : ∀ encoded err, (commit options prepared).2 = [(prepared, encoded)] →
    options.writeToDisk prepared encoded = .error err → ¬ ProvesZeroEffect err →
      (commit options prepared).1.diskEffect = .unknown ∧
        (commit options prepared).1.recoveryId? = some (recoveryIdOf options prepared)

variable {prepared : PreparedSave}

private theorem call_eq {encoded encoded' : EncodedSaveBytes}
    (h : [(prepared, encoded)] = [(prepared, encoded')]) : encoded = encoded' :=
  congrArg Prod.snd (List.cons.inj h).1

/-- A save that does not reach the writer, or whose write resolves, is reported truthfully. -/
theorem truthful_of_not_rejected {options : SingleWriterCommitterOptions}
    (h : ∀ encoded err, Reaches options prepared encoded →
      options.writeToDisk prepared encoded ≠ .error err) : Truthful options prepared := by
  rcases commit_cases options prepared with ⟨hcalls, heffect, -⟩ | ⟨encoded, hreach, hcalls, hresult⟩
  · refine ⟨.inl hcalls, ?_, fun _ => .inl hcalls, ?_⟩
    · rw [heffect, hcalls]
      refine iff_of_false DiskEffect.noConfusion ?_
      rintro ⟨encoded, file, hcalls', -⟩
      cases hcalls'
    · intro encoded err hcalls'
      rw [hcalls] at hcalls'
      cases hcalls'
  · cases hwrite : options.writeToDisk prepared encoded with
    | error err => exact absurd hwrite (h encoded err hreach)
    | ok file =>
      rw [hwrite] at hresult
      have heffect : (commit options prepared).1.diskEffect = .committed := by
        rw [hresult]
        exact resultOfWritten_diskEffect options prepared encoded file
      refine ⟨.inr ⟨encoded, hreach, hcalls⟩, ?_, ?_, ?_⟩
      · exact iff_of_true heffect ⟨encoded, file, hcalls, hwrite⟩
      · rw [heffect]
        exact DiskEffect.noConfusion
      · intro encoded' err hcalls' hwrite'
        rw [hcalls] at hcalls'
        obtain rfl := call_eq hcalls'
        rw [hwrite] at hwrite'
        cases hwrite'

/-- A rejected save is reported truthfully exactly when the rejection proves that nothing was written
or states an unknown effect where the parser keeps it. -/
theorem truthful_rejected_iff {options : SingleWriterCommitterOptions}
    {encoded : EncodedSaveBytes} {err : Rejection} (hreach : Reaches options prepared encoded)
    (hwrite : options.writeToDisk prepared encoded = .error err) :
    Truthful options prepared ↔ ProvesZeroEffect err ∨ StatesUnknownEffect err := by
  rcases commit_cases options prepared with ⟨-, -, hnot⟩ | ⟨encoded', hreach', hcalls, hresult⟩
  · exact absurd hreach (hnot encoded)
  obtain rfl : encoded' = encoded := Except.ok.inj (hreach'.2.symm.trans hreach.2)
  rw [hwrite] at hresult
  dsimp only at hresult
  obtain ⟨hunknown, hrecovery⟩ := resultOfRejection_unknown options prepared err
  rw [← hresult] at hunknown hrecovery
  constructor
  · intro htruth
    by_cases hzero : ProvesZeroEffect err
    · exact .inl hzero
    · exact .inr (hunknown.mp (htruth.unknown _ _ hcalls hwrite hzero).1).2
  · intro hcond
    have huncommitted : (commit options prepared).1.diskEffect ≠ .committed := by
      rw [hresult]
      exact resultOfRejection_not_committed options prepared err
    have hzero_or : ProvesZeroEffect err ∨ (commit options prepared).1.diskEffect = .unknown := by
      rcases hcond with hzero | hstates
      · exact .inl hzero
      · by_cases hzero : ProvesZeroEffect err
        · exact .inl hzero
        · exact .inr (hunknown.mpr ⟨fun hmismatch => hzero (.inl hmismatch), hstates⟩)
    refine ⟨.inr ⟨_, hreach', hcalls⟩, iff_of_false huncommitted ?_, ?_, ?_⟩
    · rintro ⟨encoded'', file, hcalls', hwrite'⟩
      rw [hcalls] at hcalls'
      obtain rfl := call_eq hcalls'
      rw [hwrite] at hwrite'
      cases hwrite'
    · intro hnone
      rcases hzero_or with hzero | hunknown'
      · exact .inr ⟨_, err, hcalls, hwrite, hzero⟩
      · rw [hunknown'] at hnone
        cases hnone
    · intro encoded'' err' hcalls' hwrite' hzero
      rw [hcalls] at hcalls'
      obtain rfl := call_eq hcalls'
      obtain rfl := Except.error.inj (hwrite.symm.trans hwrite')
      have hunknown' := hzero_or.resolve_left hzero
      exact ⟨hunknown', hrecovery hunknown'⟩

/-- The committer is truthful exactly when every rejection that reaches it proves that nothing was
written, or states an unknown effect on a typed error or beside a known kind. -/
theorem commit_truthful_iff (options : SingleWriterCommitterOptions) (prepared : PreparedSave) :
    Truthful options prepared ↔ ∀ encoded err, Reaches options prepared encoded →
        options.writeToDisk prepared encoded = .error err →
          ProvesZeroEffect err ∨ StatesUnknownEffect err := by
  constructor
  · intro htruth encoded err hreach hwrite
    exact (truthful_rejected_iff hreach hwrite).mp htruth
  · intro h
    by_cases hrejected : ∃ encoded err, Reaches options prepared encoded ∧
        options.writeToDisk prepared encoded = .error err
    · obtain ⟨encoded, err, hreach, hwrite⟩ := hrejected
      exact (truthful_rejected_iff hreach hwrite).mpr (h encoded err hreach hwrite)
    · exact truthful_of_not_rejected fun encoded err hreach hwrite =>
        hrejected ⟨encoded, err, hreach, hwrite⟩

/-- The writer loses its connection and rejects with a plain `Error`. -/
def lostConnection : SingleWriterCommitterOptions where
  sha256 := ⟨fun _ => "t", fun _ => "b"⟩
  liveBoundary := some ⟨"a.txt", 1, 0⟩
  liveBoundaryAfter := some ⟨"a.txt", 1, 0⟩
  liveAfterWrite := none
  writeToDisk _ _ := .error (.error (ascii "connection reset") .empty)
  generateHistoryId := none
  generateRecoveryId := none
  now := 0

def smallSave : PreparedSave where
  transactionId := "tx"
  workspaceId := "w"
  fileKey := "k"
  filePath := "a.txt"
  text := ascii "a"
  bufferRevision := 1
  styleGeneration := 0
  expectedDiskHash := none
  policy := ⟨.lf, "UTF-8", false⟩

/-- A plain `Error` after the writer was called is reported as an untouched disk. -/
theorem lostConnection_not_truthful : ¬ Truthful lostConnection smallSave := by
  intro htruth
  have hunknown := (htruth.unknown ⟨[97], "t", "b", 1⟩ (.error (ascii "connection reset") .empty)
    (by decide +kernel) rfl (by decide +kernel)).1
  exact absurd hunknown (by decide +kernel)

end Taomni.Save
