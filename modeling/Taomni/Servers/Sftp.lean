import Taomni.Common.Resolution
import Taomni.Common.Runs

/-!
# The SFTP server

Requests over a tree of files with symbolic links. Every request reports the objects that it touches, by
the places that the system resolved them to.

Reference: `src-tauri/src/servers/ssh/sftp_paths.rs`, `sftp_handler.rs` and `sftp_attributes.rs`.
-/

namespace Taomni.Sftp

open List
open PathPart (components)

abbrev Text := List Char

abbrev Path := List Text

inductive StatusCode where
  | noSuchFile | permissionDenied | failure | eof
deriving DecidableEq

def ioToStatus : Fault → StatusCode
  | .notFound => .noSuchFile
  | _ => .failure

/-! ## Paths -/

/-- One component of the loop of `confine_path`: the path so far and its depth. -/
def confineStep (root : Path) : Path × ℕ → PathPart → Except StatusCode (Path × ℕ)
  | _, .rootDir => .ok (root, 0)
  | (out, depth), .curDir => .ok (out, depth)
  | (out, depth), .parentDir =>
    if depth = 0 then .error .permissionDenied else .ok (out.dropLast, depth - 1)
  | (out, depth), .normal name => .ok (out ++ [name], depth + 1)

def confinePath (root : Path) (requested : Text) : Except StatusCode Path :=
  ((components requested).foldlM (confineStep root) (root, 0)).map Prod.fst

def canonicalClientPath (root resolved : Path) : Text :=
  match root.isPrefixOf resolved, resolved.drop root.length with
  | false, _ => ['/']
  | true, [] => ['/']
  | true, rel => rel.flatMap fun name => '/' :: name.map fun c => if c = '\\' then '/' else c

/-! ## The server -/

structure FileHandle where
  place : Path
  node : FileNode Text
  options : OpenOptions

structure DirState where
  path : Path
  sent : Bool

structure Handler where
  root : Path
  files : Files Text
  fileHandles : List (Text × FileHandle)
  dirs : List (Text × DirState)
  nextHandle : ℕ

inductive Reply where
  | ok
  | name (names : List (Text × Option (FileNode Text)))
  | attrs (node : FileNode Text)
  | handle (handle : Text)
  | data (bytes : List UInt8)

structure Outcome where
  server : Handler
  touched : List (Touch Text)
  reply : Except StatusCode Reply

structure FileAttributes where
  permissions : Option ℕ
  atime : Option ℕ
  mtime : Option ℕ

inductive Request where
  | realpath (path : Text)
  | stat (path : Text)
  | lstat (path : Text)
  | fstat (handle : Text)
  | opendir (path : Text)
  | readdir (handle : Text)
  | open (filename : Text) (options : OpenOptions)
  | read (handle : Text) (offset len : ℕ)
  | write (handle : Text) (offset : ℕ) (data : List UInt8)
  | close (handle : Text)
  | remove (filename : Text)
  | mkdir (path : Text)
  | rmdir (path : Text)
  | rename (oldpath newpath : Text)
  | setstat (path : Text) (attrs : FileAttributes)
  | fsetstat (handle : Text) (attrs : FileAttributes)
  | readlink (path : Text)
  | symlink (linkpath targetpath : Text)

namespace Handler

variable (s : Handler)

def fail (touched : List (Touch Text)) (code : StatusCode) : Outcome := ⟨s, touched, .error code⟩

/-- A request on one path. -/
def atPath (requested : Text) (k : Path → Outcome) : Outcome :=
  match confinePath s.root requested with
  | .error code => s.fail [] code
  | .ok path => k path

/-- A call that reads. -/
def reading {α : Type} (result : Except Fault α) (k : α → Outcome) : Outcome :=
  match result with
  | .error fault => s.fail [] (ioToStatus fault)
  | .ok a => k a

/-- A call that changes one entry of the tree. -/
def changing (kind : TouchKind) (result : Except Fault (Path × Files Text)) : Outcome :=
  match result with
  | .error fault => s.fail [] (ioToStatus fault)
  | .ok (here, files) => ⟨{ s with files }, [⟨kind, here⟩], .ok .ok⟩

def allocHandle (kind : Text) : Text × Handler :=
  (kind ++ '-' :: Nat.toDigits 10 s.nextHandle, { s with nextHandle := s.nextHandle + 1 })

def describe (follow : Bool) (requested : Text) : Outcome :=
  s.atPath requested fun path =>
    s.reading (s.files.metadata follow path) fun (here, node) => ⟨s, [⟨.reads, here⟩], .ok (.attrs node)⟩

def onFile (handle : Text) (k : FileHandle → Outcome) : Outcome :=
  match s.fileHandles.lookup handle with
  | none => s.fail [] .failure
  | some file => k file

def opendir (requested : Text) : Outcome :=
  s.atPath requested fun path =>
    s.reading (s.files.metadata true path) fun (here, node) =>
      if node = .dir then
        let (handle, s') := s.allocHandle "dir".toList
        ⟨{ s' with dirs := (handle, ⟨path, false⟩) :: s'.dirs }, [⟨.reads, here⟩], .ok (.handle handle)⟩
      else s.fail [⟨.reads, here⟩] .noSuchFile

def readdir (handle : Text) : Outcome :=
  match s.dirs.lookup handle with
  | none => s.fail [] .failure
  | some state =>
    if state.sent then s.fail [] .eof
    else
      s.reading (s.files.readDir state.path) fun (here, entries) =>
        ⟨{ s with dirs := (handle, { state with sent := true }) :: s.dirs },
          ⟨.lists, here⟩ :: entries.map fun name => ⟨.reads, here ++ [name]⟩,
          .ok (.name (entries.map fun name => (name, s.files.node (here ++ [name]))))⟩

def openFile (requested : Text) (options : OpenOptions) : Outcome :=
  s.atPath requested fun path =>
    s.reading (s.files.openFile options path) fun opened =>
      let (handle, s') := s.allocHandle "file".toList
      let kind := if opened.created then .creates else if options.truncate then .changes else .reads
      ⟨{ s' with
          files := opened.files
          fileHandles := (handle, ⟨opened.here, opened.node, options⟩) :: s'.fileHandles },
        [⟨kind, opened.here⟩], .ok (.handle handle)⟩

def read (handle : Text) (offset len : ℕ) : Outcome :=
  s.onFile handle fun file =>
    match file.node, file.options.read with
    | .file id, true =>
      let bytes := ((s.files.data id).drop offset).take len
      if bytes.isEmpty then s.fail [⟨.reads, file.place⟩] .eof
      else ⟨s, [⟨.reads, file.place⟩], .ok (.data bytes)⟩
    | _, _ => s.fail [] .failure

/-- The contents after a write. A gap is filled with zeros. -/
def written (contents : List UInt8) (append : Bool) (offset : ℕ) (bytes : List UInt8) : List UInt8 :=
  if append then contents ++ bytes
  else
    contents.take offset ++ List.replicate (offset - contents.length) 0 ++ bytes ++
      contents.drop (offset + bytes.length)

def write (handle : Text) (offset : ℕ) (bytes : List UInt8) : Outcome :=
  s.onFile handle fun file =>
    match file.node, file.options.write || file.options.append with
    | .file id, true =>
      let contents := written (s.files.data id) file.options.append offset bytes
      ⟨{ s with files := s.files.setData id contents }, [⟨.changes, file.place⟩], .ok .ok⟩
    | _, _ => s.fail [] .failure

def close (handle : Text) : Outcome :=
  ⟨{ s with
      fileHandles := s.fileHandles.filter (·.1 ≠ handle)
      dirs := s.dirs.filter (·.1 ≠ handle) }, [], .ok .ok⟩

def rename (oldpath newpath : Text) : Outcome :=
  s.atPath oldpath fun source =>
    s.atPath newpath fun target =>
      s.reading (s.files.rename source target) fun (a, b, files) =>
        ⟨{ s with files }, [⟨.removes, a⟩, ⟨.creates, b⟩], .ok .ok⟩

/-- The mode is set, if there is one. -/
def chmod (mode : Option ℕ) (found : Except Fault (Path × FileNode Text)) : Except Fault (List (Touch Text)) :=
  match mode, found with
  | none, _ => .ok []
  | some _, .error fault => .error fault
  | some _, .ok (here, _) => .ok [⟨.changes, here⟩]

/-- The times are set through the opened file. -/
def setTimes (attrs : FileAttributes) (found : Except Fault (Path × FileNode Text)) :
    List (Touch Text) × Except StatusCode Reply :=
  if attrs.atime.isNone && attrs.mtime.isNone then ([], .ok .ok)
  else
    match found with
    | .error _ => ([], .error .failure)
    | .ok (here, .file _) => ([⟨.reads, here⟩, ⟨.changes, here⟩], .ok .ok)
    | .ok (here, _) => ([⟨.reads, here⟩], .error .failure)

/-- `apply_file_attributes`. -/
def setstat (requested : Text) (attrs : FileAttributes) : Outcome :=
  s.atPath requested fun path =>
    let found := s.files.metadata true path
    match chmod attrs.permissions found with
    | .error _ => s.fail [] .failure
    | .ok touched => ⟨s, touched ++ (setTimes attrs found).1, (setTimes attrs found).2⟩

def readlink (requested : Text) : Outcome :=
  s.atPath requested fun path =>
    s.reading (s.files.readLink path) fun (here, rooted, moves) =>
      ⟨s, [⟨.reads, here⟩], .ok (.attrs (.link rooted moves))⟩

/-- A target that starts with a slash is resolved, any other is stored as it is. -/
def symlink (linkpath targetpath : Text) : Outcome :=
  s.atPath linkpath fun link =>
    if targetpath.head? = some '/' then
      s.atPath targetpath fun target =>
        s.changing .creates (s.files.symlink true (Files.names target) link)
    else if targetpath.isEmpty then s.fail [] .noSuchFile
    else s.changing .creates (s.files.symlink false (PathPart.moves targetpath) link)

def handle : Request → Outcome
  | .realpath path => s.atPath path fun resolved =>
      ⟨s, [], .ok (.name [(canonicalClientPath s.root resolved, none)])⟩
  | .stat path => s.describe true path
  | .lstat path => s.describe false path
  | .fstat handle => s.onFile handle fun file => ⟨s, [⟨.reads, file.place⟩], .ok (.attrs file.node)⟩
  | .opendir path => s.opendir path
  | .readdir handle => s.readdir handle
  | .open filename options => s.openFile filename options
  | .read handle offset len => s.read handle offset len
  | .write handle offset data => s.write handle offset data
  | .close handle => s.close handle
  | .remove filename => s.atPath filename fun path => s.changing .removes (s.files.removeFile path)
  | .mkdir path => s.atPath path fun path => s.changing .creates (s.files.createDir path)
  | .rmdir path => s.atPath path fun path => s.changing .removes (s.files.removeDir path)
  | .rename oldpath newpath => s.rename oldpath newpath
  | .setstat path attrs => s.setstat path attrs
  | .fsetstat handle attrs => s.onFile handle fun file =>
      ⟨s, if attrs.permissions.isSome then [⟨.changes, file.place⟩] else [], .ok .ok⟩
  | .readlink path => s.readlink path
  | .symlink linkpath targetpath => s.symlink linkpath targetpath

/-- The server after a request. -/
def step (request : Request) : Handler := (s.handle request).server

end Handler

/-!
# What the SFTP server touches

A request touches only objects below the root as long as no link below the root leads out of it. Requests
make such links: `symlink` stores a relative target as it is, and a rename moves a link to where its
target leads elsewhere.

Reference: `src-tauri/src/servers/ssh/sftp_paths.rs` and `sftp_handler.rs`.
-/

open FileTree (RealDir LinksInside set_outside move_outside)

/-! ## Paths -/

/-- The path stays below the root, as deep as the depth says. -/
theorem confineStep_below {root : Path} {out : Path} {depth : ℕ} {next : Path × ℕ} {part : PathPart}
    (h : ∃ rel, out = root ++ rel ∧ rel.length = depth)
    (hstep : confineStep root (out, depth) part = .ok next) :
    ∃ rel, next.1 = root ++ rel ∧ rel.length = next.2 := by
  obtain ⟨rel, rfl, rfl⟩ := h
  cases part with
  | rootDir =>
    cases Except.ok.inj hstep
    exact ⟨[], (append_nil root).symm, rfl⟩
  | curDir =>
    cases Except.ok.inj hstep
    exact ⟨rel, rfl, rfl⟩
  | parentDir =>
    rw [confineStep] at hstep
    split at hstep
    · cases hstep
    · rename_i hdepth
      cases Except.ok.inj hstep
      have hne : rel ≠ [] := fun hnil => hdepth (length_eq_zero_iff.mpr hnil)
      exact ⟨rel.dropLast, dropLast_append_of_ne_nil hne, length_dropLast⟩
  | normal name =>
    cases Except.ok.inj hstep
    exact ⟨rel ++ [name], append_assoc _ _ _, length_append⟩

theorem confinePath_below {root path : Path} {requested : Text}
    (h : confinePath root requested = .ok path) : ∃ rel, path = root ++ rel := by
  have hall (parts : List PathPart) (out : Path) (depth : ℕ) (next : Path × ℕ)
      (hstart : ∃ rel, out = root ++ rel ∧ rel.length = depth)
      (hfold : parts.foldlM (confineStep root) (out, depth) = .ok next) :
      ∃ rel, next.1 = root ++ rel ∧ rel.length = next.2 := by
    induction parts generalizing out depth with
    | nil =>
      cases Except.ok.inj hfold
      exact hstart
    | cons part parts ih =>
      rw [foldlM_cons] at hfold
      obtain ⟨⟨out', depth'⟩, hstep, hfold⟩ := exists_of_bind_eq_ok hfold
      exact ih out' depth' (confineStep_below hstart hstep) hfold
  unfold confinePath at h
  cases hfold : (components requested).foldlM (confineStep root) (root, 0) with
  | error code =>
    rw [hfold] at h
    cases h
  | ok next =>
    rw [hfold] at h
    obtain ⟨rel, hrel, -⟩ := hall _ _ _ next ⟨[], (append_nil root).symm, rfl⟩ hfold
    exact ⟨rel, (Except.ok.inj h).symm.trans hrel⟩

/-! ## One request -/

theorem mem_of_lookup {α : Type} {handle : Text} {entries : List (Text × α)} {a : α}
    (h : entries.lookup handle = some a) : (handle, a) ∈ entries := by
  obtain ⟨before, after, rfl, -⟩ := List.lookup_eq_some_iff.mp h
  exact mem_append_right _ mem_cons_self

/-- The root is where its path says, and the handles are below it. -/
structure Confined (s : Handler) : Prop where
  real : RealDir s.files.tree s.root.dropLast
  files : ∀ p ∈ s.fileHandles, s.root <+: p.2.place
  dirs : ∀ p ∈ s.dirs, s.root <+: p.2.path

/-- No link below the root leads out of it. -/
def LinksConfined (s : Handler) : Prop := LinksInside s.files.tree (linkLimit - 1) s.root

/-- The request touches what is below the root, and what is not below it stays. -/
structure Sound (s : Handler) (out : Outcome) : Prop where
  root : out.server.root = s.root
  outside : ∀ p, ¬s.root <+: p → out.server.files.tree p = s.files.tree p
  touched : Inside s.root out.touched
  confined : Confined out.server

namespace Handler

variable {s : Handler}

theorem find_below (h : Confined s) (hlinks : LinksConfined s) {follow : Bool} {path here : Path}
    (hpath : s.root <+: path) (hfind : s.files.find follow path = .ok here) : s.root <+: here := by
  obtain ⟨rel, rfl⟩ := hpath
  exact FileTree.resolve_root hlinks h.real hfind

theorem sound_same (h : Confined s) {touched : List (Touch Text)} (ht : Inside s.root touched)
    (reply : Except StatusCode Reply) : Sound s ⟨s, touched, reply⟩ :=
  ⟨rfl, fun _ _ => rfl, ht, h⟩

theorem sound_atPath (h : Confined s) {requested : Text} {k : Path → Outcome}
    (hk : ∀ path, s.root <+: path → Sound s (k path)) : Sound s (s.atPath requested k) := by
  unfold atPath
  split
  · exact sound_same h inside_nil _
  · rename_i path hpath
    obtain ⟨rel, rfl⟩ := confinePath_below hpath
    exact hk _ (prefix_append _ _)

theorem sound_reading (h : Confined s) {α : Type} {result : Except Fault α} {k : α → Outcome}
    (hk : ∀ a, result = .ok a → Sound s (k a)) : Sound s (s.reading result k) := by
  unfold reading
  split
  · exact sound_same h inside_nil _
  · exact hk _ rfl

theorem sound_onFile (h : Confined s) {handle : Text} {k : FileHandle → Outcome}
    (hk : ∀ file, s.root <+: file.place → Sound s (k file)) : Sound s (s.onFile handle k) := by
  unfold onFile
  split
  · exact sound_same h inside_nil _
  · rename_i file hlookup
    exact hk file (h.files _ (mem_of_lookup hlookup))

/-- A change of the tree below the root. -/
theorem sound_files (h : Confined s) {files : Files Text}
    (hfiles : ∀ p, ¬s.root <+: p → files.tree p = s.files.tree p) {touched : List (Touch Text)}
    (ht : Inside s.root touched) (reply : Except StatusCode Reply) :
    Sound s ⟨{ s with files }, touched, reply⟩ :=
  ⟨rfl, hfiles, ht, RealDir.of_outside hfiles h.real, h.files, h.dirs⟩

theorem sound_changing (h : Confined s) (kind : TouchKind) {result : Except Fault (Path × Files Text)}
    (hresult : ∀ here files, result = .ok (here, files) →
      s.root <+: here ∧ ∃ entry, files = s.files.set here entry) : Sound s (s.changing kind result) := by
  unfold changing
  split
  · exact sound_same h inside_nil _
  · rename_i here files
    obtain ⟨hhere, entry, rfl⟩ := hresult here files rfl
    exact sound_files h (fun _ => set_outside _ entry hhere) (inside_singleton kind hhere) _

variable (h : Confined s) (hlinks : LinksConfined s)
include h hlinks

theorem sound_describe (follow : Bool) (requested : Text) : Sound s (s.describe follow requested) :=
  sound_atPath h fun _ hpath => sound_reading h fun _ hmeta =>
    sound_same h (inside_singleton .reads (find_below h hlinks hpath (Files.metadata_ok hmeta).1)) _

variable (requested : Text)

theorem sound_opendir : Sound s (s.opendir requested) := by
  refine sound_atPath h fun path hpath => sound_reading h fun (here, node) hmeta => ?_
  have hhere := inside_singleton .reads (find_below h hlinks hpath (Files.metadata_ok hmeta).1)
  dsimp only
  split
  · exact ⟨rfl, fun _ _ => rfl, hhere, h.real, h.files, forall_mem_cons.mpr ⟨hpath, h.dirs⟩⟩
  · exact sound_same h hhere _

theorem sound_readdir (handle : Text) : Sound s (s.readdir handle) := by
  unfold readdir
  split
  · exact sound_same h inside_nil _
  · rename_i state hlookup
    have hpath := h.dirs _ (mem_of_lookup hlookup)
    split
    · exact sound_same h inside_nil _
    · refine sound_reading h fun (here, entries) hread => ?_
      have hhere := find_below h hlinks hpath (Files.metadata_ok (Files.readDir_ok hread)).1
      refine ⟨rfl, fun _ _ => rfl, forall_mem_cons.mpr ⟨hhere, ?_⟩, h.real, h.files,
        forall_mem_cons.mpr ⟨hpath, h.dirs⟩⟩
      exact forall_mem_map.mpr fun name _ => hhere.trans (prefix_append _ _)

theorem sound_openFile (options : OpenOptions) : Sound s (s.openFile requested options) := by
  refine sound_atPath h fun path hpath => sound_reading h fun opened hopen => ?_
  obtain ⟨hfind, hopen⟩ := Files.openFile_ok hopen
  have hhere := find_below h hlinks hpath hfind
  have houtside (p : Path) (hp : ¬s.root <+: p) : opened.files.tree p = s.files.tree p := by
    rcases (Files.openAt_ok hopen).2 with ⟨htree, -⟩ | ⟨id, htree, -⟩
    · rw [htree]
    · rw [htree]
      exact set_outside _ _ hhere hp
  exact ⟨rfl, houtside, inside_singleton _ hhere, RealDir.of_outside houtside h.real,
    forall_mem_cons.mpr ⟨hhere, h.files⟩, h.dirs⟩

theorem sound_rename (oldpath newpath : Text) : Sound s (s.rename oldpath newpath) := by
  refine sound_atPath h fun source hsource => sound_atPath h fun target htarget =>
    sound_reading h fun (a, b, files) hrename => ?_
  obtain ⟨ha, hb, hfiles⟩ := Files.rename_ok hrename
  have ha := find_below h hlinks hsource ha
  have hb := find_below h hlinks htarget hb
  refine sound_files h (fun p hp => ?_) ?_ _
  · rcases hfiles with rfl | ⟨rfl, -⟩
    · rfl
    · exact move_outside _ ha hb hp
  · exact forall_mem_cons.mpr ⟨ha, inside_singleton .creates hb⟩

theorem sound_setstat (attrs : FileAttributes) : Sound s (s.setstat requested attrs) := by
  refine sound_atPath h fun path hpath => ?_
  have hplace {here : Path} {node : FileNode Text}
      (hmeta : s.files.metadata true path = .ok (here, node)) : s.root <+: here :=
    find_below h hlinks hpath (Files.metadata_ok hmeta).1
  have hmode {touched : List (Touch Text)}
      (hchmod : chmod attrs.permissions (s.files.metadata true path) = .ok touched) :
      Inside s.root touched := by
    unfold chmod at hchmod
    split at hchmod
    · cases Except.ok.inj hchmod
      exact inside_nil
    · cases hchmod
    · rename_i hfound
      cases Except.ok.inj hchmod
      exact inside_singleton .changes (hplace hfound)
  have htimes : Inside s.root (setTimes attrs (s.files.metadata true path)).1 := by
    unfold setTimes
    split
    · exact inside_nil
    · split
      · exact inside_nil
      · rename_i hfound
        exact forall_mem_cons.mpr ⟨hplace hfound, inside_singleton .changes (hplace hfound)⟩
      · rename_i hfound
        exact inside_singleton .reads (hplace hfound)
  dsimp only
  split
  · exact sound_same h inside_nil _
  · rename_i touched hchmod
    exact sound_same h (forall_mem_append.mpr ⟨hmode hchmod, htimes⟩) _

theorem sound_symlink (linkpath targetpath : Text) : Sound s (s.symlink linkpath targetpath) := by
  have hstore (rooted : Bool) (moves : List (Move Text)) {link : Path} (hlink : s.root <+: link) :
      Sound s (s.changing .creates (s.files.symlink rooted moves link)) := by
    refine sound_changing h _ fun here files hresult => ?_
    obtain ⟨hfind, hfiles⟩ := Files.symlink_ok hresult
    exact ⟨find_below h hlinks hlink hfind, _, hfiles⟩
  refine sound_atPath h fun link hlink => ?_
  split
  · exact sound_atPath h fun target _ => hstore true _ hlink
  · split
    · exact sound_same h inside_nil _
    · exact hstore false _ hlink

/-- Every request is sound where no link leads out. -/
theorem sound_handle (request : Request) : Sound s (s.handle request) := by
  cases request with
  | realpath path => exact sound_atPath h fun _ _ => sound_same h inside_nil _
  | stat path => exact sound_describe h hlinks true path
  | lstat path => exact sound_describe h hlinks false path
  | fstat handle =>
    exact sound_onFile h fun file hfile => sound_same h (inside_singleton .reads hfile) _
  | opendir path => exact sound_opendir h hlinks path
  | readdir handle => exact sound_readdir h hlinks handle
  | «open» filename options => exact sound_openFile h hlinks filename options
  | read handle offset len =>
    refine sound_onFile h fun file hfile => ?_
    have hplace := inside_singleton .reads hfile
    split
    · dsimp only
      split
      · exact sound_same h hplace _
      · exact sound_same h hplace _
    · exact sound_same h inside_nil _
  | write handle offset data =>
    refine sound_onFile h fun file hfile => ?_
    split
    · refine sound_files h ?_ (inside_singleton .changes hfile) _
      exact fun _ _ => rfl
    · exact sound_same h inside_nil _
  | close handle =>
    exact ⟨rfl, fun _ _ => rfl, inside_nil, h.real,
      fun p hp => h.files p (mem_of_mem_filter hp), fun p hp => h.dirs p (mem_of_mem_filter hp)⟩
  | remove filename =>
    refine sound_atPath h fun path hpath => sound_changing h _ fun here files hresult => ?_
    obtain ⟨hfind, hfiles, -⟩ := Files.removeFile_ok hresult
    exact ⟨find_below h hlinks hpath hfind, _, hfiles⟩
  | mkdir path =>
    refine sound_atPath h fun path hpath => sound_changing h _ fun here files hresult => ?_
    obtain ⟨hfind, -, hfiles⟩ := Files.createDir_ok hresult
    exact ⟨find_below h hlinks hpath hfind, _, hfiles⟩
  | rmdir path =>
    refine sound_atPath h fun path hpath => sound_changing h _ fun here files hresult => ?_
    obtain ⟨hfind, hfiles, -⟩ := Files.removeDir_ok hresult
    exact ⟨find_below h hlinks hpath hfind, _, hfiles⟩
  | rename oldpath newpath => exact sound_rename h hlinks oldpath newpath
  | setstat path attrs => exact sound_setstat h hlinks path attrs
  | fsetstat handle attrs =>
    refine sound_onFile h fun file hfile => sound_same h ?_ _
    split
    · exact inside_singleton .changes hfile
    · exact inside_nil
  | readlink path =>
    refine sound_atPath h fun path hpath => sound_reading h fun (here, rooted, moves) hread => ?_
    exact sound_same h (inside_singleton .reads (find_below h hlinks hpath (Files.readLink_ok hread))) _
  | symlink linkpath targetpath => exact sound_symlink h hlinks linkpath targetpath

end Handler

/-! ## Runs -/

/-- Without links nothing leads out. -/
theorem linksConfined_of_none {s : Handler}
    (h : ∀ p rooted moves, s.files.tree p ≠ some (.link rooted moves)) : LinksConfined s :=
  fun _ _ rooted moves _ _ _ hlink => absurd hlink (h _ rooted moves)

/-- A directory `srv` that is exported beside a file `etc`. -/
def exported : Handler where
  root := ["srv".toList]
  files := .ofEntries [(["srv".toList], .dir), (["etc".toList], .file 0)] 1
  fileHandles := []
  dirs := []
  nextHandle := 0

theorem exported_no_links (p : Path) (rooted : Bool) (moves : List (Move Text)) :
    exported.files.tree p ≠ some (.link rooted moves) := by
  intro h
  obtain ⟨entry, hentry, hnode⟩ := Option.map_eq_some_iff.mp h
  rcases mem_cons.mp (mem_of_find?_eq_some hentry) with rfl | hmem
  · cases hnode
  · rw [mem_singleton.mp hmem] at hnode
    cases hnode

def readOnly : OpenOptions where
  read := true
  write := false
  append := false
  truncate := false
  create := false
  createNew := false
  noFollow := false

end Taomni.Sftp
