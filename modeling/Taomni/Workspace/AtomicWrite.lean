import Taomni.Agent.CommandLine
import Taomni.Common.Calls
import Taomni.Workspace.ResourceMove

/-!
# The atomic writer

`write_workspace_bytes` as a program of filesystem calls. Any call may be refused; `replace_file`
either replaces the target or leaves it.

Reference: `src-tauri/src/workspace/atomic_write.rs` and `src-tauri/src/workspace.rs`.
-/

namespace Taomni.Workspace.AtomicWrite

open Agent (trim)

abbrev Bytes := List UInt8

/-! ## The filesystem -/

inductive IoErrorKind where
  | notFound | permissionDenied | other
deriving DecidableEq

structure IoError where
  kind : IoErrorKind
  text : Text
deriving DecidableEq

abbrev FileBytes := Path → Option Bytes

inductive FsCall where
  | read (path : Path)
  | createDirAll (path : Path)
  | openNew (path : Path)
  | writeAll (path : Path) (bytes : Bytes)
  | syncAll (path : Path)
  | replaceFile (tmp target : Path)
  | removeFile (path : Path)
  | isThere (path : Path)

def FsCall.Result : FsCall → Type
  | .read _ => Except IoError Bytes
  | .isThere _ => Bool
  | _ => Except IoError Unit

abbrev FsProgram := Calls FsCall FsCall.Result

/-- What has been written to a file that is open. -/
def append (files : FileBytes) (path : Path) (bytes : Bytes) : FileBytes :=
  Function.update files path ((files path).map (· ++ bytes))

/-- A call may fail where it likes, but a file is only reported missing when it is. A write that fails
has written a beginning. -/
def fileSystem : Calls.Environment FsCall FsCall.Result FileBytes
  | .read path, files, .ok bytes, after => files path = some bytes ∧ after = files
  | .read path, files, .error error, after =>
      (error.kind = .notFound → files path = none) ∧ after = files
  | .createDirAll _, files, _, after => after = files
  | .openNew path, files, .ok (), after =>
      files path = none ∧ after = Function.update files path (some [])
  | .openNew _, files, .error _, after => after = files
  | .writeAll path bytes, files, .ok (), after => after = append files path bytes
  | .writeAll path bytes, files, .error _, after => ∃ n, after = append files path (bytes.take n)
  | .syncAll _, files, _, after => after = files
  | .replaceFile tmp target, files, .ok (), after =>
      ∃ bytes, files tmp = some bytes ∧
        after = Function.update (Function.update files tmp none) target (some bytes)
  | .replaceFile _ _, files, .error _, after => after = files
  | .removeFile path, files, .ok (), after =>
      (files path).isSome = true ∧ after = Function.update files path none
  | .removeFile path, files, .error error, after =>
      (error.kind = .notFound → files path = none) ∧ after = files
  | .isThere path, files, there, after =>
      (there = true → (files path).isSome = true) ∧ after = files

/-! ## Errors -/

inductive WorkspaceWriteErrorKind where
  | hashMismatch | encoding | permission | io
deriving DecidableEq

inductive WorkspaceWriteEffect where
  | none | unknown
deriving DecidableEq

structure WorkspaceWriteError where
  kind : WorkspaceWriteErrorKind
  message : Message
  expectedHash : Option Text := none
  actualHash : Option Text := none
  effect : Option WorkspaceWriteEffect := none
  writtenHash : Option Text := none
  writtenByteLength : Option ℕ := none
  intentHash : Option Text := none
  intentByteLength : Option ℕ := none
  oldHash : Option Text := none

namespace WorkspaceWriteError

def new (kind : WorkspaceWriteErrorKind) (message : Message) : WorkspaceWriteError where
  kind := kind
  message := message

def withEffect (error : WorkspaceWriteError) (effect : WorkspaceWriteEffect)
    (written : Option (Text × ℕ)) : WorkspaceWriteError :=
  match written with
  | none => { error with effect := some effect }
  | some (hash, len) =>
      { error with effect := some effect, writtenHash := some hash, writtenByteLength := some len }

def withIntent (error : WorkspaceWriteError) (hash : Text) (byteLength : ℕ) :
    WorkspaceWriteError :=
  { error with intentHash := some hash, intentByteLength := some byteLength }

def withOldHash (error : WorkspaceWriteError) (hash : Option Text) : WorkspaceWriteError :=
  { error with oldHash := hash }

end WorkspaceWriteError

def classifyIoError (operation : String) (error : IoError) : WorkspaceWriteError :=
  .new (if error.kind = .permissionDenied then .permission else .io)
    [.text operation.toList, .text ": ".toList, .text error.text]

/-! ## Hashes -/

/-- `hex::encode`. -/
def hexEncode (bytes : Bytes) : Text :=
  bytes.flatMap fun byte => [Nat.digitChar (byte.toNat / 16), Nat.digitChar (byte.toNat % 16)]

/-- `Sha256::digest`. -/
abbrev Digest := Bytes → Vector UInt8 32

def sha256Hex (sha256 : Digest) (bytes : Bytes) : Text := hexEncode (sha256 bytes).toList

def hashMismatchError (expected found : Text) : Message :=
  [.text "hash-mismatch: File changed on disk; expected hash ".toList, .text expected,
    .text ", found ".toList, .text found]

/-- `eq_ignore_ascii_case`. -/
def eqIgnoreAsciiCase (a b : Text) : Bool := a.map Char.toLower == b.map Char.toLower

/-- The precondition, if one is requested. -/
def requested (expectedHash : Option Text) : Option Text :=
  (expectedHash.map trim).filter fun value => !value.isEmpty

/-! ## The writer -/

inductive WriteBytesFault where
  | none | tempOpen | tempWrite | tempSync | replace
deriving DecidableEq

structure WrittenBytesAck where
  oldHash : Option Text
  writtenHash : Text
  writtenByteLength : ℕ

def injectedWriteFault (operation : String) : IoError where
  kind := .other
  text := operation.toList ++ ": injected write-bytes fault".toList

def cleanupFailed (tmp : Path) (cleanupError : IoError) : Message :=
  [.text "; temp cleanup failed for ".toList, .path tmp, .text ": ".toList, .text cleanupError.text]

def tempFailureWithCleanup (tmp : Path) (error : WorkspaceWriteError) :
    FsProgram WorkspaceWriteError :=
  .call (.removeFile tmp) fun
    | .ok () => .done error
    | .error cleanupError =>
        if cleanupError.kind = .notFound then .done error
        else .done { error with message := error.message ++ cleanupFailed tmp cleanupError }

def tempWriteStage (tmp : Path) (bytes : Bytes) (fault : WriteBytesFault) :
    FsProgram (Except WorkspaceWriteError Unit) :=
  .call (.openNew tmp) fun
    | .error error => .done (.error (classifyIoError "open temp file" error))
    | .ok () =>
        if fault = .tempWrite then
          .call (.writeAll tmp (bytes.take (bytes.length / 2))) fun
            | .error error => .done (.error (classifyIoError "write temp file" error))
            | .ok () => .done (.error (classifyIoError "write temp file"
                (injectedWriteFault "write temp file")))
        else
          .call (.writeAll tmp bytes) fun
            | .error error => .done (.error (classifyIoError "write temp file" error))
            | .ok () =>
                if fault = .tempSync then
                  .done (.error (classifyIoError "sync temp file"
                    (injectedWriteFault "sync temp file")))
                else
                  .call (.syncAll tmp) fun
                    | .error error => .done (.error (classifyIoError "sync temp file" error))
                    | .ok () => .done (.ok ())

section

variable (sha256 : Digest) (uuid : Text) (target : Path) (bytes : Bytes)

def tempPath (parent : Path) : Path := parent ++ [".taomni-write-".toList ++ uuid]

/-- `with_intent` of the writer, and the two facts that every exit attaches. -/
def failure (error : WorkspaceWriteError) (effect : WorkspaceWriteEffect) (oldHash : Option Text) :
    WorkspaceWriteError :=
  ((error.withIntent (sha256Hex sha256 bytes) bytes.length).withEffect effect none).withOldHash
    oldHash

/-- Whether the target may be replaced. -/
def checkExpectedHash (expectedHash oldHash : Option Text) : Except WorkspaceWriteError Unit :=
  match requested expectedHash, oldHash with
  | none, _ => .ok ()
  | some _, none =>
      .error (failure sha256 bytes (.new .io [.text
        "read target: expected-hash precondition requires an existing target".toList]) .none none)
  | some expected, some currentHash =>
      if eqIgnoreAsciiCase currentHash expected then .ok ()
      else .error {
        kind := .hashMismatch
        message := hashMismatchError expected currentHash
        expectedHash := some expected
        actualHash := some currentHash
        effect := some .none
        intentHash := some (sha256Hex sha256 bytes)
        intentByteLength := some bytes.length
        oldHash := some currentHash }

/-- Puts the temporary file in the place of the target. -/
def replaceTarget (tmp : Path) (oldHash : Option Text) :
    FsProgram (Except WorkspaceWriteError WrittenBytesAck) :=
  .call (.replaceFile tmp target) fun
    | .ok () => .done (.ok ⟨oldHash, sha256Hex sha256 bytes, bytes.length⟩)
    | .error error =>
        .call (.removeFile tmp) fun removeResult =>
          .call (.isThere target) fun (there : Bool) =>
            match removeResult with
            | .ok () =>
                .done (.error (failure sha256 bytes (classifyIoError "rename temp file" error)
                  (if there then .none else .unknown) oldHash))
            | .error cleanupError =>
                let failed := failure sha256 bytes (classifyIoError "rename temp file" error)
                  .unknown oldHash
                .done (.error
                  { failed with message := failed.message ++ cleanupFailed tmp cleanupError })

/-- The writer, once the target has been read. -/
def writeOver (expectedHash : Option Text) (fault : WriteBytesFault) (oldHash : Option Text) :
    FsProgram (Except WorkspaceWriteError WrittenBytesAck) :=
  match checkExpectedHash sha256 bytes expectedHash oldHash with
  | .error error => .done (.error error)
  | .ok () =>
      if target = [] then
        .done (.error (failure sha256 bytes (.new .io [.text
          "Cannot resolve parent directory for target".toList]) .none oldHash))
      else
        .call (.createDirAll target.dropLast) fun
          | .error error =>
              .done (.error (failure sha256 bytes (classifyIoError "mkdir parent" error) .none
                oldHash))
          | .ok () =>
              let tmp := tempPath uuid target.dropLast
              if fault = .tempOpen then
                .done (.error (failure sha256 bytes (classifyIoError "open temp file"
                  (injectedWriteFault "open temp file")) .none oldHash))
              else
                (tempWriteStage tmp bytes fault).bind fun
                  | .error error =>
                      (tempFailureWithCleanup tmp (failure sha256 bytes error .none oldHash)).bind
                        fun error => .done (.error error)
                  | .ok () =>
                      if fault = .replace then
                        .call (.isThere target) fun (there : Bool) =>
                          (tempFailureWithCleanup tmp (failure sha256 bytes
                            (classifyIoError "rename temp file"
                              (injectedWriteFault "rename temp file"))
                            (if there then .none else .unknown) oldHash)).bind
                            fun error => .done (.error error)
                      else replaceTarget sha256 target bytes tmp oldHash

def writeWorkspaceBytesWithFault (expectedHash : Option Text) (fault : WriteBytesFault) :
    FsProgram (Except WorkspaceWriteError WrittenBytesAck) :=
  .call (.read target) fun
    | .ok current =>
        writeOver sha256 uuid target bytes expectedHash fault (some (sha256Hex sha256 current))
    | .error error =>
        if error.kind = .notFound then writeOver sha256 uuid target bytes expectedHash fault none
        else
          .done (.error (failure sha256 bytes (classifyIoError "read target" error) .none none))

def writeWorkspaceBytes (expectedHash : Option Text) :
    FsProgram (Except WorkspaceWriteError WrittenBytesAck) :=
  writeWorkspaceBytesWithFault sha256 uuid target bytes expectedHash .none

end

end Taomni.Workspace.AtomicWrite
