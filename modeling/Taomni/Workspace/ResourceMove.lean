import Taomni.Common.Paths

/-!
# Moving a resource

`move_resource_replacing`, `move_resource_across_roots` and what they call, on a tree of files that
the paths lead to. What every filesystem call does when it is refused is given by `faults`; a call
that is not refused does what POSIX says of it.

Reference: `src-tauri/src/workspace/resource_operations.rs`.
-/

namespace Taomni.Workspace

abbrev Text := List Char

abbrev Path := List Text

/-! ## Files and faults -/

inductive Entry where
  | dir
  | file (bytes : List UInt8)
  | symlink (target : Text)
deriving DecidableEq

abbrev Files := PathTree Text Entry

/-- A finite tree of files: the names that occur, in the order in which directories list them. -/
structure Disk where
  files : Files
  names : List Text
  depth : ℕ
  closed : files.Closed .dir
  nodup : names.Nodup
  named : ∀ path name, (files (path ++ [name])).isSome = true → name ∈ names
  bounded : ∀ path, (files path).isSome = true → path.length ≤ depth

/-- The removals of the two functions. -/
inductive Removal where
  | cleanup
  | source
  | rollback
  | partialTarget
  | backup
deriving DecidableEq

/-- The filesystem calls. -/
inductive Call where
  | directRename
  | backupRename
  | acrossRename
  | restoreRename
  | candidate (path : Path)
  | stat (path : Path)
  | readLink (path : Path)
  | createDir (path : Path)
  | readDir (path : Path)
  | readEntry (path : Path)
  | setPermissions (path : Path)
  | copy (path : Path)
  | probe (site : Removal)
  | removeStat (site : Removal)
  | remove (site : Removal)
deriving DecidableEq

/-- What becomes of a call. A copy that is refused may have left a beginning, the removal of a
directory may have removed some of what is below it. -/
inductive Fate where
  | done
  | refused (error : Text) (written : Option (List UInt8)) (gone : Path → Bool)

/-- The fate of every call. -/
abbrev Faults := Call → Fate

def Fate.isDone : Fate → Bool
  | done => true
  | refused .. => false

/-- What an error message is put together from. -/
inductive Part where
  | text (text : Text)
  | path (path : Path)

abbrev Message := List Part

def osError (error : Text) : Message := [.text error]

def notFound : Text := "No such file or directory (os error 2)".toList

def notPermitted : Text := "Operation not permitted (os error 1)".toList

/-! ## Filesystem calls -/

section

variable (faults : Faults)

def refusal (call : Call) : Option Text :=
  match faults call with
  | .done => none
  | .refused error _ _ => some error

/-- A path can be created: it is not there and its directory is. -/
def isFree (files : Files) (path : Path) : Bool :=
  (files path).isNone && !path.isEmpty && files path.dropLast == some .dir

def isEmptyDir (names : List Text) (files : Files) (path : Path) : Bool :=
  names.all fun name => (files (path ++ [name])).isNone

/-- What `rename` accepts. -/
def canRename (names : List Text) (files : Files) (src dst : Path) : Bool :=
  !src.isPrefixOf dst &&
    match files src, files dst with
    | none, _ => false
    | some _, none => isFree files dst
    | some .dir, some .dir => isEmptyDir names files dst
    | some .dir, some _ => false
    | some _, some .dir => false
    | some _, some _ => true

/-- `fs::rename`. -/
def rename (names : List Text) (call : Call) (src dst : Path) (files : Files) :
    Except Message Unit × Files :=
  match refusal faults call with
  | some error => (.error (osError error), files)
  | none =>
      if canRename names files src dst then (.ok (), files.move src dst)
      else (.error (osError notPermitted), files)

def resourceTargetExists (call : Call) (target : Path) (files : Files) : Except Message Bool :=
  match refusal faults call with
  | some error => .error [.text "stat ".toList, .path target, .text ": ".toList, .text error]
  | none => .ok (files target).isSome

/-- What a recursive removal takes of a tree whose root is `root`. -/
def takes (site : Removal) (root : Option Entry) (path : Path) : Bool :=
  match faults (.removeStat site), faults (.remove site), root with
  | .refused .., _, _ => false
  | .done, _, none => false
  | .done, .done, some _ => true
  | .done, .refused _ _ gone, some .dir => gone path
  | .done, .refused .., some _ => false

/-- `remove_resource_target` with `recursive`. -/
def removeResourceTarget (site : Removal) (target : Path) (files : Files) :
    Except Message Unit × Files :=
  let left := files.prune target (takes faults site (files target))
  match refusal faults (.removeStat site), files target with
  | some error, _ =>
      (.error [.text "stat ".toList, .path target, .text ": ".toList, .text error], left)
  | none, none =>
      (.error [.text "stat ".toList, .path target, .text ": ".toList, .text notFound], left)
  | none, some root =>
      match refusal faults (.remove site) with
      | some error =>
          (.error [.text (if root = .dir then "rmdir " else "remove ").toList, .path target,
            .text ": ".toList, .text error], left)
      | none => (.ok (), left)

/-! ## Copies -/

/-- `create_dir`. -/
def createDir (path : Path) (files : Files) : Except Message Unit × Files :=
  match refusal faults (.createDir path) with
  | some error => (.error [.text "mkdir ".toList, .path path, .text ": ".toList, .text error], files)
  | none =>
      if isFree files path then (.ok (), files.set path (some .dir))
      else (.error [.text "mkdir ".toList, .path path, .text ": ".toList, .text notPermitted], files)

def copyResourceSymlink (src dst : Path) (target : Text) (files : Files) :
    Except Message Unit × Files :=
  match refusal faults (.readLink src), refusal faults (.copy src) with
  | some error, _ =>
      (.error [.text "read symlink ".toList, .path src, .text ": ".toList, .text error], files)
  | none, some error =>
      (.error [.text "copy symlink ".toList, .path src, .text " -> ".toList, .path dst,
        .text ": ".toList, .text error], files)
  | none, none =>
      if isFree files dst then (.ok (), files.set dst (some (.symlink target)))
      else (.error [.text "copy symlink ".toList, .path src, .text " -> ".toList, .path dst,
        .text ": ".toList, .text notPermitted], files)

/-- `fs::copy`. -/
def copyFile (src dst : Path) (bytes : List UInt8) (files : Files) : Except Message Unit × Files :=
  let message (error : Text) : Message :=
    [.text "copy ".toList, .path src, .text " -> ".toList, .path dst, .text ": ".toList, .text error]
  if isFree files dst || (files dst).any (· != .dir) then
    match faults (.copy src) with
    | .done => (.ok (), files.set dst (some (.file bytes)))
    | .refused error (some written) _ => (.error (message error), files.set dst (some (.file written)))
    | .refused error none _ => (.error (message error), files)
  else (.error (message notPermitted), files)

/-- Goes through the names until one fails. -/
def forNames (f : Text → Files → Except Message Unit × Files) :
    List Text → Files → Except Message Unit × Files
  | [], files => (.ok (), files)
  | name :: names, files =>
      match f name files with
      | (.ok (), files) => forNames f names files
      | (.error error, files) => (.error error, files)

/-- Copies one name of a directory, with `copy` for what it names. -/
def copyName (copy : Path → Path → Files → Except Message Unit × Files) (src dst : Path)
    (name : Text) (files : Files) : Except Message Unit × Files :=
  match refusal faults (.readEntry (src ++ [name])) with
  | some error =>
      (.error [.text "read ".toList, .path src, .text ": ".toList, .text error], files)
  | none => copy (src ++ [name]) (dst ++ [name]) files

/-- The names in a directory. -/
def listing (names : List Text) (files : Files) (path : Path) : List Text :=
  names.filter fun name => (files (path ++ [name])).isSome

/-- The fuel bounds how deep directories are nested. -/
def copyResourceTarget (names : List Text) : ℕ → Path → Path → Files → Except Message Unit × Files
  | 0, src, _, files => (.error [.text "too deep: ".toList, .path src], files)
  | fuel + 1, src, dst, files =>
      match refusal faults (.stat src), files src with
      | some error, _ =>
          (.error [.text "stat ".toList, .path src, .text ": ".toList, .text error], files)
      | none, none =>
          (.error [.text "stat ".toList, .path src, .text ": ".toList, .text notFound], files)
      | none, some (.symlink target) => copyResourceSymlink faults src dst target files
      | none, some (.file bytes) => copyFile faults src dst bytes files
      | none, some .dir =>
          match createDir faults dst files with
          | (.error error, files) => (.error error, files)
          | (.ok (), files) =>
              match refusal faults (.readDir src) with
              | some error =>
                  (.error [.text "read directory ".toList, .path src, .text ": ".toList,
                    .text error], files)
              | none =>
                  match forNames (copyName faults (copyResourceTarget names fuel) src dst)
                      (listing names files src) files with
                  | (.error error, files) => (.error error, files)
                  | (.ok (), files) =>
                      match refusal faults (.setPermissions src) with
                      | some error =>
                          (.error [.text "set permissions ".toList, .path dst, .text ": ".toList,
                            .text error], files)
                      | none => (.ok (), files)

/-! ## Moves -/

/-- `Ok(true) => remove_resource_target(..).err()`, with what follows of the message. -/
def removeIfExists (site : Removal) (target : Path) (failed inspected : Text) (files : Files) :
    Message × Files :=
  match resourceTargetExists faults (.probe site) target files with
  | .ok true =>
      match removeResourceTarget faults site target files with
      | (.ok (), files) => ([], files)
      | (.error error, files) => (.text failed :: error, files)
  | .ok false => ([], files)
  | .error error => (.text inspected :: error, files)

def moveResourceAcrossRoots (names : List Text) (fuel : ℕ) (src dst : Path) (files : Files) :
    Except Message Unit × Files :=
  match rename faults names .acrossRename src dst files with
  | (.ok (), files) => (.ok (), files)
  | (.error renameError, files) =>
      let moving : Message := [.text "move ".toList, .path src, .text " -> ".toList, .path dst,
        .text ": ".toList]
      match copyResourceTarget faults names fuel src dst files with
      | (.error copyError, files) =>
          let (cleanupError, files) := removeIfExists faults .cleanup dst
            "; partial destination cleanup failed: ".toList
            "; partial destination inspection failed: ".toList files
          (.error (moving ++ renameError ++ [.text "; copy fallback failed: ".toList] ++ copyError ++
            cleanupError), files)
      | (.ok (), files) =>
          match removeResourceTarget faults .source src files with
          | (.ok (), files) => (.ok (), files)
          | (.error removeError, files) =>
              match removeResourceTarget faults .rollback dst files with
              | (.ok (), files) =>
                  (.error (moving ++ [.text "source cleanup failed: ".toList] ++ removeError), files)
              | (.error error, files) =>
                  (.error (moving ++ [.text "source cleanup failed: ".toList] ++ removeError ++
                    [.text "; destination rollback failed: ".toList] ++ error), files)

/-- `resource_backup_path`: the candidates of `fuel` numbers from `sequence` on. -/
def resourceBackupPath (pid : ℕ) (files : Files) (target : Path) : ℕ → ℕ → Except Message Path
  | 0, _ => .error [.text "Cannot allocate a backup path next to ".toList, .path target]
  | fuel + 1, sequence =>
      match target.getLast? with
      | none => .error [.text "Cannot create backup path for ".toList, .path target]
      | some name =>
          let candidate := target.dropLast ++ [['.'] ++ name ++
            ".taomni-workspace-edit-backup-".toList ++ Nat.toDigits 10 pid ++ ['-'] ++
            Nat.toDigits 10 sequence]
          match resourceTargetExists faults (.candidate candidate) candidate files with
          | .error error => .error error
          | .ok false => .ok candidate
          | .ok true => resourceBackupPath pid files target fuel (sequence + 1)

/-- The destination has been moved to `backup`, and the move has failed. -/
def restoreDestination (names : List Text) (src dst backup : Path) (moveError : Message)
    (files : Files) : Except Message Unit × Files :=
  let (cleanupError, files) := removeIfExists faults .partialTarget dst
    "; partial destination cleanup failed: ".toList "; partial destination cleanup failed: ".toList
    files
  let replacing : Message := [.text "replace ".toList, .path src, .text " -> ".toList, .path dst,
    .text " failed: ".toList] ++ moveError ++ cleanupError
  match rename faults names .restoreRename backup dst files with
  | (.ok (), files) => (.error replacing, files)
  | (.error error, files) =>
      (.error (replacing ++ [.text "; destination restore failed: ".toList] ++ error), files)

def moveResourceReplacing (names : List Text) (fuel pid sequence : ℕ) (src dst : Path)
    (files : Files) : Except Message Unit × Files :=
  match rename faults names .directRename src dst files with
  | (.ok (), files) => (.ok (), files)
  | (.error directError, files) =>
      match resourceBackupPath faults pid files dst 1000 sequence with
      | .error error => (.error error, files)
      | .ok backup =>
          match rename faults names .backupRename dst backup files with
          | (.error backupError, files) =>
              (.error ([.text "replace ".toList, .path src, .text " -> ".toList, .path dst,
                .text ": ".toList] ++ directError ++
                [.text "; cannot preserve existing destination: ".toList] ++ backupError), files)
          | (.ok (), files) =>
              match moveResourceAcrossRoots faults names fuel src dst files with
              | (.ok (), files) => (.ok (), (removeResourceTarget faults .backup backup files).2)
              | (.error moveError, files) =>
                  restoreDestination faults names src dst backup moveError files

end

end Taomni.Workspace
