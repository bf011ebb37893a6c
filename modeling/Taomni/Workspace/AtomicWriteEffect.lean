import Taomni.Workspace.AtomicWrite

/-!
# The effect that the atomic writer reports

Only the replacement touches the target, so whatever fails, the target holds what it held before or, when
the writer returns `Ok`, exactly the given bytes (`write_reports_effect`).

Reference: `src-tauri/src/workspace/atomic_write.rs`, `write_workspace_bytes_with_fault`.
-/

namespace Taomni.Workspace.AtomicWrite

open Function (update_idem update_of_ne update_self)

variable {sha256 : Digest} {uuid : Text} {target tmp : Path} {bytes : Bytes} {files : FileBytes}

open Calls (Ensures Runs)

/-! ## The temporary file -/

theorem append_other (hne : tmp ≠ target) (more : Bytes) : append files tmp more target = files target :=
  update_of_ne hne.symm ..

theorem append_self {written : Bytes} (h : files tmp = some written) (more : Bytes) :
    append files tmp more tmp = some (written ++ more) := by
  unfold append
  rw [update_self, h, Option.map_some]

/-- Cleaning up after a failure changes its message at most. -/
theorem tempFailureWithCleanup_ensures (hne : tmp ≠ target) (error : WorkspaceWriteError) :
    Ensures fileSystem (tempFailureWithCleanup tmp error) files fun failed after =>
      after target = files target ∧ failed = { error with message := failed.message } := by
  refine .call fun result after hstep => ?_
  rcases result with cleanupError | ⟨⟩
  · obtain ⟨-, rfl⟩ := hstep
    dsimp only
    split <;> exact .done ⟨rfl, rfl⟩
  · obtain ⟨-, rfl⟩ := hstep
    exact .done ⟨update_of_ne hne.symm .., rfl⟩

theorem tempWriteStage_ensures (hne : tmp ≠ target) (bytes : Bytes) (fault : WriteBytesFault) :
    Ensures fileSystem (tempWriteStage tmp bytes fault) files fun result after =>
      after target = files target ∧ (result = .ok () → after tmp = some bytes) := by
  refine .call fun result opened hstep => ?_
  rcases result with error | ⟨⟩
  · obtain rfl := hstep
    exact .done ⟨rfl, nofun⟩
  obtain ⟨-, rfl⟩ := hstep
  have hopened : Function.update files tmp (some []) target = files target :=
    update_of_ne hne.symm ..
  dsimp only
  by_cases hfault : fault = .tempWrite
  · rw [if_pos hfault]
    refine .call fun result after hstep => ?_
    rcases result with error | ⟨⟩
    · obtain ⟨n, rfl⟩ := hstep
      exact .done ⟨(append_other hne _).trans hopened, nofun⟩
    · obtain rfl := hstep
      exact .done ⟨(append_other hne _).trans hopened, nofun⟩
  rw [if_neg hfault]
  refine .call fun result after hstep => ?_
  rcases result with error | ⟨⟩
  · obtain ⟨n, rfl⟩ := hstep
    exact .done ⟨(append_other hne _).trans hopened, nofun⟩
  obtain rfl := hstep
  have hwritten : append (Function.update files tmp (some [])) tmp bytes target = files target :=
    (append_other hne bytes).trans hopened
  dsimp only
  by_cases hsync : fault = .tempSync
  · rw [if_pos hsync]
    exact .done ⟨hwritten, nofun⟩
  rw [if_neg hsync]
  refine .call fun result after hstep => ?_
  obtain rfl : after = _ := hstep
  rcases result with error | ⟨⟩
  · exact .done ⟨hwritten, nofun⟩
  · exact .done ⟨hwritten, fun _ => append_self (update_self ..) bytes⟩

/-! ## The replacement -/

/-- What the writer leaves when the hash of the target was `oldHash`. -/
inductive Settled (sha256 : Digest) (target : Path) (bytes : Bytes) (oldHash : Option Text)
    (files : FileBytes) : Except WorkspaceWriteError WrittenBytesAck → FileBytes → Prop where
  | written {after : FileBytes} (written : after target = some bytes) :
      Settled sha256 target bytes oldHash files
        (.ok ⟨oldHash, sha256Hex sha256 bytes, bytes.length⟩) after
  | failed {error : WorkspaceWriteError} {after : FileBytes} (kept : after target = files target)
      (hash : error.intentHash = some (sha256Hex sha256 bytes))
      (length : error.intentByteLength = some bytes.length) :
      Settled sha256 target bytes oldHash files (.error error) after

/-- A failure whose temporary file has been cleaned up. -/
theorem Settled.cleaned {oldHash : Option Text} {error failed : WorkspaceWriteError}
    {after : FileBytes} (hkept : after target = files target)
    (h : failed = { error with message := failed.message })
    (hhash : error.intentHash = some (sha256Hex sha256 bytes))
    (hlength : error.intentByteLength = some bytes.length) :
    Settled sha256 target bytes oldHash files (.error failed) after := by
  refine .failed hkept ?_ ?_ <;> rw [h]
  · exact hhash
  · exact hlength

theorem replaceTarget_ensures (hne : tmp ≠ target) (oldHash : Option Text)
    (htmp : files tmp = some bytes) :
    Ensures fileSystem (replaceTarget sha256 target bytes tmp oldHash) files
      (Settled sha256 target bytes oldHash files) := by
  refine .call fun result after hstep => ?_
  rcases result with error | ⟨⟩
  · -- nothing has been replaced, and the temporary file is all that is removed
    obtain rfl : after = files := hstep
    refine .call fun removeResult removed hremove => .call fun there observed hobserve => ?_
    obtain rfl : observed = removed := hobserve.2
    have hkept : observed target = after target := by
      rcases removeResult with cleanupError | ⟨⟩
      · rw [show observed = after from hremove.2]
      · rw [show observed = _ from hremove.2, update_of_ne hne.symm]
    rcases removeResult with cleanupError | ⟨⟩ <;> exact .done (.failed hkept rfl rfl)
  · obtain ⟨written, hwritten, rfl⟩ := hstep
    cases htmp.symm.trans hwritten
    exact .done (.written (update_self ..))

/-! ## The writer -/

theorem tempPath_ne (hfresh : target.getLast? ≠ some (".taomni-write-".toList ++ uuid)) :
    tempPath uuid target.dropLast ≠ target := by
  intro heq
  apply hfresh
  rw [← heq]
  exact List.getLast?_concat ..

theorem checkExpectedHash_error {expectedHash oldHash : Option Text} {error : WorkspaceWriteError}
    (h : checkExpectedHash sha256 bytes expectedHash oldHash = .error error) :
    error.intentHash = some (sha256Hex sha256 bytes) ∧ error.intentByteLength = some bytes.length := by
  unfold checkExpectedHash at h
  split at h
  · cases h
  · cases h
    exact ⟨rfl, rfl⟩
  · split at h <;> cases h
    exact ⟨rfl, rfl⟩

theorem writeOver_ensures (hfresh : target.getLast? ≠ some (".taomni-write-".toList ++ uuid))
    (expectedHash oldHash : Option Text) (fault : WriteBytesFault) :
    Ensures fileSystem (writeOver sha256 uuid target bytes expectedHash fault oldHash) files
      (Settled sha256 target bytes oldHash files) := by
  have hne := tempPath_ne hfresh
  unfold writeOver
  cases hexpected : checkExpectedHash sha256 bytes expectedHash oldHash with
  | error error =>
    obtain ⟨hhash, hlength⟩ := checkExpectedHash_error hexpected
    exact .done (.failed rfl hhash hlength)
  | ok =>
    dsimp only
    by_cases htarget : target = []
    · rw [if_pos htarget]
      exact .done (.failed rfl rfl rfl)
    rw [if_neg htarget]
    refine .call fun result after hstep => ?_
    obtain rfl : after = files := hstep
    rcases result with error | ⟨⟩
    · exact .done (.failed rfl rfl rfl)
    dsimp only
    by_cases hopen : fault = .tempOpen
    · rw [if_pos hopen]
      exact .done (.failed rfl rfl rfl)
    rw [if_neg hopen]
    apply Ensures.bind
    refine Ensures.mono (tempWriteStage_ensures hne bytes fault) ?_
    rintro (error | ⟨⟩) staged ⟨hstaged, hwritten⟩
    · apply Ensures.bind
      refine Ensures.mono (tempFailureWithCleanup_ensures hne _) ?_
      exact fun failed cleaned ⟨hcleaned, hfailed⟩ =>
        .done (.cleaned (hcleaned.trans hstaged) hfailed rfl rfl)
    dsimp only
    by_cases hreplace : fault = .replace
    · rw [if_pos hreplace]
      refine .call fun there observed hobserve => ?_
      obtain rfl : observed = staged := hobserve.2
      apply Ensures.bind
      refine Ensures.mono (tempFailureWithCleanup_ensures hne _) ?_
      exact fun failed cleaned ⟨hcleaned, hfailed⟩ =>
        .done (.cleaned (hcleaned.trans hstaged) hfailed rfl rfl)
    · rw [if_neg hreplace]
      refine Ensures.mono (replaceTarget_ensures hne oldHash (hwritten rfl)) ?_
      intro result replaced hsettled
      cases hsettled with
      | written written => exact .written written
      | failed kept hash length => exact .failed (kept.trans hstaged) hash length

/-- The writer settles with the hash of what it has found at the target. -/
theorem writeWorkspaceBytesWithFault_ensures
    (hfresh : target.getLast? ≠ some (".taomni-write-".toList ++ uuid))
    (expectedHash : Option Text) (fault : WriteBytesFault) : Ensures fileSystem
      (writeWorkspaceBytesWithFault sha256 uuid target bytes expectedHash fault) files
      (Settled sha256 target bytes ((files target).map (sha256Hex sha256)) files) := by
  refine .call fun result after hstep => ?_
  rcases result with error | current
  · obtain ⟨hmissing, rfl⟩ := hstep
    dsimp only
    by_cases hkind : error.kind = .notFound
    · rw [if_pos hkind, hmissing hkind]
      exact writeOver_ensures hfresh expectedHash none fault
    · rw [if_neg hkind]
      exact .done (.failed rfl rfl rfl)
  · obtain ⟨hcurrent, rfl⟩ := hstep
    rw [hcurrent]
    exact writeOver_ensures hfresh expectedHash _ fault

/-- Where no call is refused, the writer replaces the target. -/
theorem writeOver_runs {expectedHash oldHash : Option Text} (htarget : target ≠ [])
    (hfresh : target.getLast? ≠ some (".taomni-write-".toList ++ uuid))
    (habsent : files (tempPath uuid target.dropLast) = none)
    (hchecked : checkExpectedHash sha256 bytes expectedHash oldHash = .ok ()) :
    Runs fileSystem (writeOver sha256 uuid target bytes expectedHash .none oldHash) files
      (.ok ⟨oldHash, sha256Hex sha256 bytes, bytes.length⟩)
      (Function.update files target (some bytes)) := by
  have hne := tempPath_ne hfresh
  unfold writeOver
  rw [hchecked]
  dsimp only
  rw [if_neg htarget]
  refine .call (show fileSystem (.createDirAll target.dropLast) files (.ok ()) files from rfl) ?_
  dsimp only
  rw [if_neg nofun]
  generalize tempPath uuid target.dropLast = tmp at hne habsent
  have hopen : fileSystem (.openNew tmp) files (.ok ()) (Function.update files tmp (some [])) :=
    ⟨habsent, rfl⟩
  have hstage : Runs fileSystem (tempWriteStage tmp bytes .none) files (.ok ())
      (append (Function.update files tmp (some [])) tmp bytes) :=
    .call hopen (.call (show fileSystem (.writeAll tmp bytes) _ (.ok ()) _ from rfl)
      (.call (show fileSystem (.syncAll tmp) _ (.ok ()) _ from rfl) .done))
  refine hstage.bind ?_
  dsimp only
  rw [if_neg nofun]
  refine .call (show fileSystem (.replaceFile tmp target) _ (.ok ()) _ from ⟨bytes, ?_, ?_⟩) .done
  · exact append_self (update_self ..) bytes
  · unfold append
    rw [update_idem, update_idem, ← habsent, Function.update_eq_self]

/-- What is at the target has the hash that is requested. -/
def Meets (sha256 : Digest) (expectedHash : Option Text) (current : Option Bytes) : Prop :=
  ∀ expected, requested expectedHash = some expected →
    ∃ bytes, current = some bytes ∧ eqIgnoreAsciiCase (sha256Hex sha256 bytes) expected = true

theorem checkExpectedHash_ok {expectedHash : Option Text} {current : Option Bytes}
    (h : checkExpectedHash sha256 bytes expectedHash (current.map (sha256Hex sha256)) = .ok ()) :
    Meets sha256 expectedHash current := by
  intro expected hexpected
  unfold checkExpectedHash at h
  rw [hexpected] at h
  cases current with
  | none => cases h
  | some old =>
    refine ⟨old, rfl, ?_⟩
    by_contra hmismatch
    simp only [Option.map_some] at h
    rw [if_neg hmismatch] at h
    cases h

/-- Where the precondition is not met, nothing but the target's being read happens. -/
theorem writeWorkspaceBytesWithFault_stale (expectedHash : Option Text) (fault : WriteBytesFault)
    (h : ¬Meets sha256 expectedHash (files target)) : Ensures fileSystem
      (writeWorkspaceBytesWithFault sha256 uuid target bytes expectedHash fault) files
      fun result after => (∃ error, result = .error error) ∧ after = files := by
  have hover {old : Option Text} (hold : old = (files target).map (sha256Hex sha256)) :
      Ensures fileSystem (writeOver sha256 uuid target bytes expectedHash fault old) files
        fun result after => (∃ error, result = .error error) ∧ after = files := by
    unfold writeOver
    cases hexpected : checkExpectedHash sha256 bytes expectedHash old with
    | error error => exact .done ⟨⟨error, rfl⟩, rfl⟩
    | ok =>
      rw [hold] at hexpected
      exact absurd (checkExpectedHash_ok hexpected) h
  refine .call fun result after hstep => ?_
  rcases result with error | current
  · obtain ⟨hmissing, rfl⟩ := hstep
    dsimp only
    by_cases hkind : error.kind = .notFound
    · rw [if_pos hkind]
      apply hover
      rw [hmissing hkind]
      rfl
    · rw [if_neg hkind]
      exact .done ⟨⟨_, rfl⟩, rfl⟩
  · obtain ⟨hcurrent, rfl⟩ := hstep
    apply hover
    rw [hcurrent]
    rfl

/-- `Ok` means that the target holds the bytes, an error without effect that it holds what it held, a
precondition that is not met that nothing has changed; and every error names what was to be written. -/
theorem write_reports_effect (sha256 : Digest) (uuid : Text) (target : Path) (bytes : Bytes)
    (expectedHash : Option Text) (before after : FileBytes)
    (result : Except WorkspaceWriteError WrittenBytesAck)
    (hfresh : target.getLast? ≠ some (".taomni-write-".toList ++ uuid))
    (hrun : Runs fileSystem (writeWorkspaceBytes sha256 uuid target bytes expectedHash) before result
      after) : (∀ ack, result = .ok ack → after target = some bytes ∧
      ack.oldHash = (before target).map (sha256Hex sha256) ∧
      ack.writtenHash = sha256Hex sha256 bytes ∧ ack.writtenByteLength = bytes.length) ∧
    (∀ error, result = .error error → error.effect = some .none → after target = before target) ∧
    (¬Meets sha256 expectedHash (before target) →
      (∃ error, result = .error error) ∧ after target = before target) ∧
    ∀ error, result = .error error → error.intentHash = some (sha256Hex sha256 bytes) ∧
      error.intentByteLength = some bytes.length := by
  have hsettled := writeWorkspaceBytesWithFault_ensures hfresh expectedHash .none result after hrun
  refine ⟨?_, ?_, fun hstale => ?_, ?_⟩
  · rintro ack rfl
    cases hsettled with
    | written written => exact ⟨written, rfl, rfl, rfl⟩
  · rintro error rfl -
    cases hsettled with
    | failed kept _ _ => exact kept
  · obtain ⟨herror, rfl⟩ :=
      writeWorkspaceBytesWithFault_stale expectedHash .none hstale result after hrun
    exact ⟨herror, rfl⟩
  · rintro error rfl
    cases hsettled with
    | failed _ hash length => exact ⟨hash, length⟩

/-- The digests of no bytes and of the letters `a` and `b`. -/
def letterDigest : Digest := fun bytes =>
  if bytes = [] then
    #v[0xe3, 0xb0, 0xc4, 0x42, 0x98, 0xfc, 0x1c, 0x14, 0x9a, 0xfb, 0xf4, 0xc8, 0x99, 0x6f, 0xb9,
      0x24, 0x27, 0xae, 0x41, 0xe4, 0x64, 0x9b, 0x93, 0x4c, 0xa4, 0x95, 0x99, 0x1b, 0x78, 0x52,
      0xb8, 0x55]
  else if bytes = [97] then
    #v[0xca, 0x97, 0x81, 0x12, 0xca, 0x1b, 0xbd, 0xca, 0xfa, 0xc2, 0x31, 0xb3, 0x9a, 0x23, 0xdc,
      0x4d, 0xa7, 0x86, 0xef, 0xf8, 0x14, 0x7c, 0x4e, 0x72, 0xb9, 0x80, 0x77, 0x85, 0xaf, 0xee,
      0x48, 0xbb]
  else
    #v[0x3e, 0x23, 0xe8, 0x16, 0x00, 0x39, 0x59, 0x4a, 0x33, 0x89, 0x4f, 0x65, 0x64, 0xe1, 0xb1,
      0x34, 0x8b, 0xbd, 0x7a, 0x00, 0x88, 0xd4, 0x2c, 0x4a, 0xcb, 0x73, 0xee, 0xae, 0xd5, 0x9c,
      0x00, 0x9d]

/-- The file `n` is empty, and there is no other one. -/
def emptyNote : FileBytes := Function.update (fun _ => none) [['n']] (some [])

theorem write_reports_effect_letter : ∃ ack : WrittenBytesAck,
    ack.oldHash = some (sha256Hex letterDigest []) ∧ ack.writtenByteLength = 1 := by
  have hread : fileSystem (.read [['n']]) emptyNote (.ok []) emptyNote :=
    ⟨update_self .., rfl⟩
  have hrun : Runs fileSystem (writeWorkspaceBytes letterDigest ['0'] [['n']] [97] none) emptyNote
      _ _ := .call hread (writeOver_runs (by decide) (by decide) (by decide) rfl)
  have hreported := (write_reports_effect letterDigest ['0'] [['n']] [97] none emptyNote _ _
    (by decide) hrun).1 _ rfl
  exact ⟨_, hreported.2.1, hreported.2.2.2⟩

end Taomni.Workspace.AtomicWrite

/-!
# Writers that save at the same time

A writer checks the hash of the target some calls before it replaces the target, so two writers that
have both read it overwrite each other (`both_saves_succeed`). The commands run the writer behind
`WRITE_QUEUE`, and then at most one save of a group that starts from the same content succeeds
(`at_most_one_save`).

Reference: `src-tauri/src/workspace/atomic_write.rs` and `src-tauri/src/commands/workspace_writes.rs`.
-/

namespace Taomni.Workspace.AtomicWrite

open List
open Agent (trim isWhitespace)
open Calls (Exclusive Interleaves Phase Runs Serial)
open Function (update_of_ne update_self)

/-! ## Hashes in hexadecimal -/

theorem digitChar_spec : ∀ n < 16, isWhitespace (Nat.digitChar n) = false ∧
    (Nat.digitChar n).toLower = Nat.digitChar n ∧
    ∀ m < 16, Nat.digitChar n = Nat.digitChar m → n = m := by decide

theorem toNat_div_lt (byte : UInt8) : byte.toNat / 16 < 16 :=
  Nat.div_lt_of_lt_mul byte.toNat_lt

theorem mem_hexEncode {bytes : Bytes} {c : Char} (h : c ∈ hexEncode bytes) :
    ∃ n < 16, c = Nat.digitChar n := by
  unfold hexEncode at h
  obtain ⟨byte, -, hc⟩ := mem_flatMap.mp h
  rcases mem_cons.mp hc with rfl | hc
  · exact ⟨_, toNat_div_lt byte, rfl⟩
  · exact ⟨_, Nat.mod_lt _ (by decide), mem_singleton.mp hc⟩

theorem hexEncode_injective {a b : Bytes} (h : hexEncode a = hexEncode b) : a = b := by
  induction a generalizing b with
  | nil =>
    cases b with
    | nil => rfl
    | cons byte b => cases h
  | cons x a ih =>
    cases b with
    | nil => cases h
    | cons y b =>
      unfold hexEncode at h
      rw [flatMap_cons, flatMap_cons] at h
      obtain ⟨hhigh, h⟩ := List.cons.inj h
      obtain ⟨hlow, hrest⟩ := List.cons.inj h
      have hdiv := (digitChar_spec _ (toNat_div_lt x)).2.2 _ (toNat_div_lt y) hhigh
      have hmod := (digitChar_spec _ (Nat.mod_lt x.toNat (by decide))).2.2 _
        (Nat.mod_lt y.toNat (by decide)) hlow
      have hxy : x.toNat = y.toNat := by
        rw [← Nat.div_add_mod x.toNat 16, ← Nat.div_add_mod y.toNat 16, hdiv, hmod]
      rw [UInt8.toNat_inj.mp hxy, ih hrest]

theorem map_toLower_hexEncode (bytes : Bytes) :
    (hexEncode bytes).map Char.toLower = hexEncode bytes := by
  refine (map_congr_left fun c hc => ?_).trans (map_id _)
  obtain ⟨n, hn, rfl⟩ := mem_hexEncode hc
  exact (digitChar_spec n hn).2.1

theorem eqIgnoreAsciiCase_hexEncode {a b : Bytes}
    (h : eqIgnoreAsciiCase (hexEncode a) (hexEncode b) = true) : a = b := by
  unfold eqIgnoreAsciiCase at h
  rw [beq_iff_eq, map_toLower_hexEncode, map_toLower_hexEncode] at h
  exact hexEncode_injective h

/-- A hash that is requested is compared as it is. -/
theorem requested_sha256Hex (sha256 : Digest) (bytes : Bytes) :
    requested (some (sha256Hex sha256 bytes)) = some (sha256Hex sha256 bytes) := by
  unfold requested
  rw [Option.map_some, Agent.trim_of_forall fun c hc => ?_]
  · refine if_pos ?_
    unfold sha256Hex
    have hsize : (sha256 bytes).toList.length = 32 := Vector.length_toList
    cases hlist : (sha256 bytes).toList with
    | nil =>
      rw [hlist] at hsize
      cases hsize
    | cons byte rest => rfl
  · obtain ⟨n, hn, rfl⟩ := mem_hexEncode hc
    exact (digitChar_spec n hn).1

/-! ## One writer after the other -/

section

variable {ι : Type} (sha256 : Digest) (target : Path) (current : Bytes) (uuid : ι → Text)
  (bytes : ι → Bytes)

/-- A writer for the content that has been read, as each of the two saves passes it. -/
def save (i : ι) : FsProgram (Except WorkspaceWriteError WrittenBytesAck) :=
  writeWorkspaceBytes sha256 (uuid i) target (bytes i) (some (sha256Hex sha256 current))

/-- No save of the log has changed the target, or one has, and it is the only one that succeeded. -/
inductive Saved (log : List (ι × Except WorkspaceWriteError WrittenBytesAck)) (files : FileBytes) :
    Prop where
  | none (content : files target = some current) (failed : ∀ i ack, (i, .ok ack) ∉ log)
  | one (i : ι) (content : files target = some (bytes i)) (only : ∀ j ack, (j, .ok ack) ∈ log → j = i)

variable {sha256 target current uuid bytes}

/-- Content with another hash does not meet the precondition. -/
theorem not_meets {other : Bytes} (hcollision : sha256 other = sha256 current → other = current)
    (hne : other ≠ current) : ¬Meets sha256 (some (sha256Hex sha256 current)) (some other) := by
  intro hmeets
  obtain ⟨found, hfound, heq⟩ := hmeets _ (requested_sha256Hex sha256 current)
  cases hfound
  exact hne (hcollision (Vector.toList_inj.mp (eqIgnoreAsciiCase_hexEncode heq)))

theorem saved_of_serial (hfresh : ∀ i, target.getLast? ≠ some (".taomni-write-".toList ++ uuid i))
    (hchanges : ∀ i, bytes i ≠ current)
    (hcollision : ∀ i, sha256 (bytes i) = sha256 current → bytes i = current)
    {log : List (ι × Except WorkspaceWriteError WrittenBytesAck)} {before after : FileBytes}
    (hbefore : before target = some current)
    (h : Serial fileSystem (save sha256 target current uuid bytes) log before after) :
    Saved target current bytes log after := by
  induction h with
  | nil => exact .none hbefore fun _ _ => not_mem_nil
  | @snoc log before m after i result _ _ hrun ih =>
    have hsettled := writeWorkspaceBytesWithFault_ensures (hfresh i) _ .none result after hrun
    have hmem {j : ι} {ack : WrittenBytesAck} (hj : (j, .ok ack) ∈ log ++ [(i, result)]) :
        (j, .ok ack) ∈ log ∨ (j = i ∧ result = .ok ack) := by
      rw [mem_append, mem_singleton, Prod.mk.injEq] at hj
      exact hj.imp_right fun h => ⟨h.1, h.2.symm⟩
    cases ih hbefore with
    | none content failed =>
      cases hsettled with
      | written written =>
        refine .one i written fun j ack hj => (hmem hj).elim (fun h => ?_) And.left
        exact absurd h (failed j ack)
      | failed kept hash length =>
        refine .none (kept.trans content) fun j ack hj => (hmem hj).elim (failed j ack) ?_
        rintro ⟨-, ⟨⟩⟩
    | one k content only =>
      -- the target holds what `k` has saved, whose hash is not the one that is requested
      have hstale := not_meets (hcollision k) (hchanges k)
      rw [← content] at hstale
      obtain ⟨⟨error, rfl⟩, rfl⟩ :=
        writeWorkspaceBytesWithFault_stale _ .none hstale result after hrun
      refine .one k content fun j ack hj => (hmem hj).elim (only j ack) ?_
      rintro ⟨-, ⟨⟩⟩

/-- Behind the write queue, at most one of the saves that start from the same content succeeds. -/
theorem at_most_one_save [DecidableEq ι] (sha256 : Digest) (target : Path) (current : Bytes)
    (uuid : ι → Text) (bytes : ι → Bytes) (before after : FileBytes)
    (phases : ι → Phase FsCall FsCall.Result (Except WorkspaceWriteError WrittenBytesAck))
    (hbefore : before target = some current)
    (hfresh : ∀ i, target.getLast? ≠ some (".taomni-write-".toList ++ uuid i))
    (hchanges : ∀ i, bytes i ≠ current)
    (hcollision : ∀ i, sha256 (bytes i) = sha256 current → bytes i = current)
    (hrun : Relation.ReflTransGen (Exclusive fileSystem (save sha256 target current uuid bytes))
      (fun _ => .waiting, before) (phases, after)) :
    ∀ i j ack ack', phases i = .finished (.ok ack) → phases j = .finished (.ok ack') → i = j := by
  obtain ⟨log, files, hserial, hfinished⟩ := Exclusive.serial hrun
  intro i j ack ack' hi hj
  have hi := (hfinished i _).mp hi
  have hj := (hfinished j _).mp hj
  cases saved_of_serial hfresh hchanges hcollision hbefore hserial with
  | none _ failed => exact absurd hi (failed i ack)
  | one k _ only => rw [only i ack hi, only j ack' hj]

/-! ## Two writers at a time -/

theorem checkExpectedHash_self (bytes : Bytes) :
    checkExpectedHash sha256 bytes (some (sha256Hex sha256 current))
      (some (sha256Hex sha256 current)) = .ok () := by
  unfold checkExpectedHash
  rw [requested_sha256Hex]
  exact if_pos (beq_self_eq_true _)

/-- Without the queue, a writer that has read the target does not notice that it is replaced. -/
theorem overtaken_save_succeeds [DecidableEq ι] {before : FileBytes} {i j : ι} (hij : i ≠ j)
    (htarget : target ≠ []) (hbefore : before target = some current)
    (hfresh : ∀ i, target.getLast? ≠ some (".taomni-write-".toList ++ uuid i))
    (habsent : ∀ i, before (tempPath (uuid i) target.dropLast) = none) :
    ∃ threads after, Relation.ReflTransGen (Interleaves fileSystem)
        (save sha256 target current uuid bytes, before) (threads, after) ∧
      (∃ ack, threads i = .done (.ok ack)) ∧ (∃ ack, threads j = .done (.ok ack)) ∧
      after target = some (bytes i) := by
  have hstep : fileSystem (.read target) before (.ok current) before := ⟨hbefore, rfl⟩
  have hother : Runs fileSystem (save sha256 target current uuid bytes j) before _ _ :=
    .call hstep (writeOver_runs htarget (hfresh j) (habsent j) (checkExpectedHash_self (bytes j)))
  have habsent' : Function.update before target (some (bytes j))
      (tempPath (uuid i) target.dropLast) = none := by
    rw [update_of_ne (tempPath_ne (hfresh i)), habsent]
  have hchecked : checkExpectedHash sha256 (bytes i) (some (sha256Hex sha256 current)) _ = _ :=
    checkExpectedHash_self (bytes i)
  have hrest := writeOver_runs htarget (hfresh i) habsent' hchecked
  refine ⟨_, _, Runs.overtaken hij rfl hstep hother hrest, ⟨_, update_self ..⟩,
    ⟨_, (update_of_ne hij.symm ..).trans (update_self ..)⟩,
    update_self ..⟩

end

def letterUuid (i : Bool) : Text := if i then ['1'] else ['0']

def letterBytes (i : Bool) : Bytes := if i then [98] else [97]

/-- Saves of `a` and of `b`. -/
def letterSave : Bool → FsProgram (Except WorkspaceWriteError WrittenBytesAck) :=
  save letterDigest [['n']] [] letterUuid letterBytes

theorem letterSave_runs (i : Bool) : ∃ ack, Runs fileSystem (letterSave i) emptyNote (.ok ack)
    (Function.update emptyNote [['n']] (some (letterBytes i))) := by
  have hread : fileSystem (.read [['n']]) emptyNote (.ok []) emptyNote :=
    ⟨update_self .., rfl⟩
  exact ⟨_, .call hread (writeOver_runs (by decide) (by cases i <;> decide)
    (by cases i <;> decide) (checkExpectedHash_self _))⟩

theorem at_most_one_letter_save : ∃ phases after,
    Relation.ReflTransGen (Exclusive fileSystem letterSave) (fun _ => .waiting, emptyNote)
      (phases, after) ∧ (∃ ack, phases false = .finished (.ok ack)) ∧
    ∀ i j ack ack', phases i = .finished (.ok ack) → phases j = .finished (.ok ack') → i = j := by
  obtain ⟨ack, hrun⟩ := letterSave_runs false
  have hreached : Relation.ReflTransGen (Exclusive fileSystem letterSave)
      (fun _ => .waiting, emptyNote) _ := hrun.exclusive rfl fun _ => id
  refine ⟨_, _, hreached, ⟨ack, update_self ..⟩, ?_⟩
  exact at_most_one_save letterDigest [['n']] [] letterUuid letterBytes emptyNote _ _
    (update_self ..) (by decide) (by decide) (by decide) hreached

/-- Two saves of the empty file, one of `a` and one of `b`, that both succeed. -/
theorem both_saves_succeed : ∃ threads after, Relation.ReflTransGen (Interleaves fileSystem)
      (letterSave, emptyNote) (threads, after) ∧
    (∃ ack, threads false = .done (.ok ack)) ∧ (∃ ack, threads true = .done (.ok ack)) ∧
    after [['n']] = some [97] :=
  overtaken_save_succeeds (by decide) (by decide) (update_self ..) (by decide)
    (by decide)

end Taomni.Workspace.AtomicWrite
