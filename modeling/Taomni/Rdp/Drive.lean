import Mathlib.Algebra.Group.Nat.Defs
import Mathlib.Data.List.DropRight
import Taomni.Common.LinkedFiles

/-!
# The redirected drive

The requests of an RDP server on a mapped folder. Every request reports the objects that it touches: the
path that it uses, and the place that the system resolved it to.

Reference: `src-tauri/src/rdp/rdpdr/paths.rs`, `opening.rs`, `file_io.rs`, `queries.rs`, `metadata.rs` and
`mutations.rs`.
-/

namespace Taomni.Rdpdr

open PathPart (components)

abbrev Text := List Char

abbrev Path := List Text

def maxDriveIoChunk : ℕ := 16 * 1024 * 1024

def maxDriveFileBytes : ℕ := 1024 * 1024 * 1024

def maxDriveSessionWriteBytes : ℕ := 2 * 1024 * 1024 * 1024

def defaultDriveId : ℕ := 1

/-! ## Paths -/

/-- One component of `normalize_inside`. -/
def normalizeStep (resolved : Path) : PathPart → Option Path
  | .parentDir => if resolved.isEmpty then none else some resolved.dropLast
  | .curDir => some resolved
  | .rootDir => some []
  | .normal name => some (resolved ++ [name])

/-- `normalize_inside` of a path that starts at the root of the file system. -/
def normalizeInside (root anchor : Path) (rest : List PathPart) : Option Path :=
  (rest.foldlM normalizeStep anchor).bind fun resolved =>
    if root.isPrefixOf resolved then some resolved else none

def safeJoinFrom (root base : Path) (requested : Text) : Option Path :=
  let normalized := requested.map fun c => if c = '\\' then '/' else c
  let anchor := if normalized.head? = some '/' then root else base
  normalizeInside root anchor (components (normalized.dropWhile (· = '/')))

def safeJoin (root : Path) (requested : Text) : Option Path := safeJoinFrom root root requested

/-- The loop of `validate_confined_path` over the components below the root. -/
def validateBelow (fs : Files Text) : Path → List Text → Bool
  | _, [] => true
  | current, segment :: rest =>
    match fs.metadata false (current ++ [segment]) with
    | .ok (_, .link _ _) => false
    | .ok _ => validateBelow fs (current ++ [segment]) rest
    | .error .notFound => true
    | .error _ => false

def validateConfinedPath (fs : Files Text) (root candidate : Path) : Bool :=
  root.isPrefixOf candidate && validateBelow fs root (candidate.drop root.length)

/-! ## Requests -/

inductive CreateDisposition where
  | supersede | open | create | openIf | overwrite | overwriteIf | other
deriving DecidableEq

structure DesiredAccess where
  writeData : Bool
  appendData : Bool
  writeEa : Bool
  writeAttributes : Bool
  delete : Bool
  genericWrite : Bool
  genericAll : Bool

structure CreateRequest where
  path : Text
  desiredAccess : DesiredAccess
  createDisposition : CreateDisposition
  directoryFile : Bool
  nonDirectoryFile : Bool
  allocationSize : ℤ

inductive InfoClass where
  | basic | standard | attributeTag | other
deriving DecidableEq

inductive DirClass where
  | bothDirectory | fullDirectory | names | directory | other
deriving DecidableEq

inductive SetBuffer where
  | disposition (deletePending : Bool)
  | rename (fileName : Text)
  | endOfFile (endOfFile : ℤ)
  | allocation
  | basic
  | other

inductive Request where
  | create (req : CreateRequest)
  | read (fileId offset length : ℕ)
  | write (fileId offset : ℕ) (writeData : List UInt8)
  | close (fileId : ℕ)
  | queryInformation (fileId : ℕ) (level : InfoClass)
  | queryDirectory (fileId : ℕ) (initialQuery : Bool) (path : Text) (level : DirClass)
  | setInformation (fileId : ℕ) (setBuffer : SetBuffer)

inductive NtStatus where
  | success | accessDenied | noSuchFile | notADirectory | unsuccessful | noMoreFiles | notSupported
deriving DecidableEq

def ioStatus : Fault → NtStatus
  | .notFound => .noSuchFile
  | _ => .unsuccessful

inductive Information where
  | none | opened | overwritten | superseded
deriving DecidableEq

inductive Response where
  | create (status : NtStatus) (fileId : ℕ) (information : Information)
  | read (status : NtStatus) (readData : List UInt8)
  | write (status : NtStatus) (length : ℕ)
  | closed
  | information (status : NtStatus) (described : Option (FileNode Text))
  | entry (status : NtStatus) (described : Option (Text × FileNode Text))
  | set (status : NtStatus)

/-! ## The backend -/

/-- An object that a request touches. -/
structure DriveTouch where
  kind : TouchKind
  path : Path
  place : Path
deriving DecidableEq

/-- A file that is open. -/
structure OpenFile where
  place : Path
  node : FileNode Text
  writable : Bool

structure DirectoryCursor where
  entries : List Path
  index : ℕ

inductive OpenedHandleKind where
  | file (file : OpenFile)
  | directory (cursor : DirectoryCursor)

structure OpenedHandle where
  path : Path
  kind : OpenedHandleKind

structure Drive where
  root : Path
  label : Text
  nextFileId : ℕ
  handles : List (ℕ × OpenedHandle)
  readOnly : Bool
  writtenBytes : ℕ
  files : Files Text

structure Outcome where
  drive : Drive
  touched : List DriveTouch
  response : Response

def wantsWrite (req : CreateRequest) : Bool :=
  let access := req.desiredAccess
  access.writeData || access.appendData || access.writeEa || access.writeAttributes ||
    access.delete || access.genericWrite || access.genericAll

def applyDisposition (options : OpenOptions) : CreateDisposition → OpenOptions
  | .create => { options with createNew := true, write := true }
  | .openIf => { options with create := true, write := true }
  | .supersede => { options with create := true, truncate := true, write := true }
  | .overwrite => { options with truncate := true, write := true }
  | .overwriteIf => { options with create := true, truncate := true, write := true }
  | _ => options

def createInformation : CreateDisposition → Information
  | .open | .openIf => .opened
  | .overwrite | .overwriteIf => .overwritten
  | _ => .superseded

/-- `create_dir_all` of the path with these names, the last one first. -/
def createDirAll (fs : Files Text) : List Text → Files Text × List DriveTouch × Bool
  | [] => (fs, [], true)
  | name :: parents =>
    let path := (name :: parents).reverse
    match fs.createDir path with
    | .ok (here, fs') => (fs', [⟨.creates, path, here⟩], true)
    | .error .notFound =>
      let (fs', touched, done) := createDirAll fs parents
      if done then
        match fs'.createDir path with
        | .ok (here, fs'') => (fs'', touched ++ [⟨.creates, path, here⟩], true)
        | .error _ => (fs', touched, fs'.isDir path)
      else (fs', touched, false)
    | .error _ => (fs, [], fs.isDir path)

def displayName (path : Path) (fallback : Text) : Text := path.getLast?.getD fallback

/-- The order of `str`. -/
def leText : Text → Text → Bool
  | [], _ => true
  | _ :: _, [] => false
  | c :: text, d :: text' => c < d || c = d && leText text text'

def listDirectory (fs : Files Text) (root dir : Path) : Option (List Path × List DriveTouch) :=
  if !validateConfinedPath fs root dir then none
  else
    match fs.readDir dir with
    | .error _ => none
    | .ok (here, names) =>
      let entries := (names.map fun name => dir ++ [name]).filter (validateConfinedPath fs root)
      some (entries.mergeSort fun a b => leText (displayName a []) (displayName b []),
        [⟨.lists, dir, here⟩])

/-- The text before the last slash and the one after it. -/
def splitQueryPattern (query : Text) : Text × Text :=
  if query.contains '/' then
    ((query.reverse.dropWhile (· ≠ '/')).tail.reverse, (query.reverse.takeWhile (· ≠ '/')).reverse)
  else ([], query)

def queryEntries (fs : Files Text) (root base : Path) (query : Text) :
    Option (List Path × List DriveTouch) :=
  let query := (query.rdropWhile (· = '\x00')).map fun c => if c = '\\' then '/' else c
  if query.isEmpty || query = ['*'] then listDirectory fs root base
  else if query.contains '*' then do
    let (parent, pattern) := splitQueryPattern query
    let dir ← safeJoinFrom root base parent
    if !validateConfinedPath fs root dir then none
    else do
      let (entries, touched) ← listDirectory fs root dir
      if pattern = ['*'] then some (entries, touched)
      else
        some (entries.filter fun entry =>
          (pattern.rdropWhile (· = '*')).isPrefixOf (displayName entry []), touched)
  else do
    let path ← safeJoinFrom root base query
    if !validateConfinedPath fs root path then none
    else some (if fs.isThere path then [path] else [], [])

namespace Drive

variable (d : Drive)

def fail (response : Response) : Outcome := ⟨d, [], response⟩

/-- The new id, and the backend after. Ids are 32 bits wide. -/
def newFileId : ℕ × Drive :=
  let next := max (min (d.nextFileId + 1) (2 ^ 32 - 1)) (defaultDriveId + 1)
  (next - 1, { d with nextFileId := next })

def insert (fileId : ℕ) (handle : OpenedHandle) : Drive :=
  { d with handles := (fileId, handle) :: d.handles }

def openDirectory (req : CreateRequest) (path : Path) (fileId : ℕ) : Outcome :=
  if req.nonDirectoryFile then d.fail (.create .unsuccessful fileId .none)
  else if !d.files.isThere path &&
      (req.createDisposition = .open || req.createDisposition = .overwrite) then
    d.fail (.create .noSuchFile fileId .none)
  else
    let (files, touched, created) :=
      if d.files.isThere path then (d.files, [], true) else createDirAll d.files path.reverse
    let d' := { d with files }
    if !created then ⟨d', touched, .create .unsuccessful fileId .none⟩
    else if !d.files.isThere path && !validateConfinedPath files d.root path then
      ⟨d', touched, .create .accessDenied fileId .none⟩
    else
      match files.metadata true path with
      | .ok (here, .dir) =>
        ⟨d'.insert fileId ⟨path, .directory ⟨[], 0⟩⟩, touched ++ [⟨.reads, path, here⟩],
          .create .success fileId (createInformation req.createDisposition)⟩
      | _ => ⟨d', touched, .create .notADirectory fileId .none⟩

def openOptions (req : CreateRequest) : OpenOptions :=
  applyDisposition
    { read := true
      write := wantsWrite req || req.createDisposition ≠ .open
      append := false
      truncate := false
      create := false
      createNew := false
      noFollow := true } req.createDisposition

def fileLength (files : Files Text) : FileNode Text → ℕ
  | .file id => (files.data id).length
  | _ => 0

def openFile (req : CreateRequest) (path : Path) (fileId : ℕ) : Outcome :=
  let existed := d.files.isThere path
  let options := openOptions req
  match d.files.openFile options path with
  | .error fault => d.fail (.create (ioStatus fault) fileId .none)
  | .ok opened =>
    let kind := if opened.created then .creates else if options.truncate then .changes else .reads
    let d' := { d with files := opened.files }
    if maxDriveFileBytes < fileLength opened.files opened.node then
      ⟨d', [⟨kind, path, opened.here⟩], .create .accessDenied fileId .none⟩
    else
      ⟨d'.insert fileId ⟨path, .file ⟨opened.here, opened.node, options.write⟩⟩,
        [⟨kind, path, opened.here⟩],
        .create .success fileId
          (if existed then createInformation req.createDisposition else .superseded)⟩

def handleCreate (req : CreateRequest) : Outcome :=
  match safeJoin d.root req.path with
  | none => d.fail (.create .accessDenied 0 .none)
  | some path =>
    if !validateConfinedPath d.files d.root path then d.fail (.create .accessDenied 0 .none)
    else
      let (fileId, d') := d.newFileId
      let mutatingOpen := wantsWrite req || req.createDisposition ≠ .open
      if d'.readOnly && mutatingOpen then d'.fail (.create .accessDenied fileId .none)
      else if maxDriveFileBytes < req.allocationSize.toNat then
        d'.fail (.create .accessDenied fileId .none)
      else if req.directoryFile || d'.files.isDir path then d'.openDirectory req path fileId
      else if d'.files.isThere path && d'.files.isDir path && req.nonDirectoryFile then
        d'.fail (.create .notADirectory fileId .none)
      else d'.openFile req path fileId

def handleRead (fileId offset length : ℕ) : Outcome :=
  match d.handles.lookup fileId with
  | none => d.fail (.read .noSuchFile [])
  | some ⟨_, .directory _⟩ => d.fail (.read .unsuccessful [])
  | some ⟨_, .file file⟩ =>
    match file.node with
    | .file id =>
      ⟨d, [⟨.reads, file.place, file.place⟩],
        .read .success (((d.files.data id).drop offset).take (min length maxDriveIoChunk))⟩
    | _ => d.fail (.read .unsuccessful [])

/-- The contents after a write. A gap is filled with zeros. -/
def written (contents : List UInt8) (offset : ℕ) (bytes : List UInt8) : List UInt8 :=
  contents.take offset ++ List.replicate (offset - contents.length) 0 ++ bytes ++
    contents.drop (offset + bytes.length)

def handleWrite (fileId offset : ℕ) (bytes : List UInt8) : Outcome :=
  if d.readOnly || maxDriveIoChunk < bytes.length || maxDriveFileBytes < offset + bytes.length ||
      maxDriveSessionWriteBytes < d.writtenBytes + bytes.length then
    d.fail (.write .accessDenied 0)
  else
    match d.handles.lookup fileId with
    | none => d.fail (.write .noSuchFile 0)
    | some ⟨_, .directory _⟩ => d.fail (.write .unsuccessful 0)
    | some ⟨_, .file file⟩ =>
      match file.node, file.writable with
      | .file id, true =>
        ⟨{ d with
            files := d.files.setData id (written (d.files.data id) offset bytes)
            writtenBytes := d.writtenBytes + bytes.length },
          [⟨.changes, file.place, file.place⟩], .write .success bytes.length⟩
      | _, _ => d.fail (.write .unsuccessful 0)

def handleClose (fileId : ℕ) : Outcome :=
  ⟨{ d with handles := d.handles.filter (·.1 ≠ fileId) }, [], .closed⟩

def handleQueryInformation (fileId : ℕ) (level : InfoClass) : Outcome :=
  match d.handles.lookup fileId with
  | none => d.fail (.information .noSuchFile none)
  | some handle =>
    if !validateConfinedPath d.files d.root handle.path then d.fail (.information .accessDenied none)
    else
      match d.files.metadata true handle.path with
      | .error fault => d.fail (.information (ioStatus fault) none)
      | .ok (here, node) =>
        ⟨d, [⟨.reads, handle.path, here⟩],
          if level = .other then .information .notSupported none else .information .success (some node)⟩

/-- The next entry of a cursor is described, without another look at its path. -/
def nextEntry (fileId : ℕ) (path : Path) (cursor : DirectoryCursor) (touched : List DriveTouch)
    (initialQuery : Bool) (level : DirClass) : Outcome :=
  match cursor.entries[cursor.index]? with
  | none =>
    ⟨d.insert fileId ⟨path, .directory cursor⟩, touched,
      .entry (if initialQuery then .noSuchFile else .noMoreFiles) none⟩
  | some entry =>
    let d' := d.insert fileId ⟨path, .directory { cursor with index := cursor.index + 1 }⟩
    match d.files.metadata true entry with
    | .error fault => ⟨d', touched, .entry (ioStatus fault) none⟩
    | .ok (here, node) =>
      ⟨d', touched ++ [⟨.reads, entry, here⟩],
        if level = .other then .entry .notSupported none
        else .entry .success (some (displayName entry d.label, node))⟩

def handleQueryDirectory (fileId : ℕ) (initialQuery : Bool) (query : Text) (level : DirClass) :
    Outcome :=
  match d.handles.lookup fileId with
  | none => d.fail (.entry .noSuchFile none)
  | some ⟨_, .file _⟩ => d.fail (.entry .notADirectory none)
  | some ⟨path, .directory cursor⟩ =>
    if initialQuery then
      match queryEntries d.files d.root path query with
      | none => d.fail (.entry .noSuchFile none)
      | some (entries, touched) => d.nextEntry fileId path ⟨entries, 0⟩ touched true level
    else d.nextEntry fileId path cursor [] false level

def setLength (contents : List UInt8) (length : ℕ) : List UInt8 :=
  contents.take length ++ List.replicate (length - contents.length) 0

/-- The handle's path is used as it is. -/
def setInformation (fileId : ℕ) (handle : OpenedHandle) : SetBuffer → Outcome
  | .disposition true =>
    match (if d.files.isDir handle.path then d.files.removeDir handle.path
      else d.files.removeFile handle.path) with
    | .error fault => d.fail (.set (ioStatus fault))
    | .ok (here, files) => ⟨{ d with files }, [⟨.removes, handle.path, here⟩], .set .success⟩
  | .rename fileName =>
    match safeJoin d.root fileName with
    | none => d.fail (.set .accessDenied)
    | some target =>
      if !validateConfinedPath d.files d.root target then d.fail (.set .accessDenied)
      else
        match d.files.rename handle.path target with
        | .error fault => d.fail (.set (ioStatus fault))
        | .ok (a, b, files) =>
          ⟨{ d with files }.insert fileId { handle with path := target },
            [⟨.removes, handle.path, a⟩, ⟨.creates, target, b⟩], .set .success⟩
  | .endOfFile endOfFile =>
    match handle.kind with
    | .directory _ => d.fail (.set .unsuccessful)
    | .file file =>
      if maxDriveFileBytes < endOfFile.toNat then d.fail (.set .accessDenied)
      else
        match file.node, file.writable with
        | .file id, true =>
          ⟨{ d with files := d.files.setData id (setLength (d.files.data id) endOfFile.toNat) },
            [⟨.changes, file.place, file.place⟩], .set .success⟩
        | _, _ => d.fail (.set .unsuccessful)
  | .allocation => d.fail (.set .success)
  | .basic => d.fail (.set .success)
  | _ => d.fail (.set .notSupported)

def handleSetInformation (fileId : ℕ) (buffer : SetBuffer) : Outcome :=
  if d.readOnly then d.fail (.set .accessDenied)
  else
    match d.handles.lookup fileId with
    | none => d.fail (.set .noSuchFile)
    | some handle => d.setInformation fileId handle buffer

def handle : Request → Outcome
  | .create req => d.handleCreate req
  | .read fileId offset length => d.handleRead fileId offset length
  | .write fileId offset bytes => d.handleWrite fileId offset bytes
  | .close fileId => d.handleClose fileId
  | .queryInformation fileId level => d.handleQueryInformation fileId level
  | .queryDirectory fileId initialQuery path level => d.handleQueryDirectory fileId initialQuery path level
  | .setInformation fileId buffer => d.handleSetInformation fileId buffer

/-- The backend after a request. -/
def step (request : Request) : Drive := (d.handle request).drive

end Drive

end Taomni.Rdpdr
