import Taomni.Agent.CommandLine
import Taomni.Common.Resolution

/-!
# The FTP and the HTTP server

What a request lists, sends or creates, in a tree of files with symbolic links. Both servers look where a
path leads before they use it, if it exists.

Reference: `src-tauri/src/servers/ftp.rs` and `src-tauri/src/servers/http.rs`.
-/

namespace Taomni.Serving

open FileTree (RealDir)
open PathPart (components)

abbrev Text := List Char

abbrev Path := List Text

variable (fs : Files Text)

/-- Where a path leads if it exists, and nothing if that is outside of the root. -/
def checked (root real : Path) : Option Path :=
  match fs.canonicalize real with
  | .ok canon => if root.isPrefixOf canon then some canon else none
  | .error _ => some real

/-! ## FTP -/

structure Session where
  root : Path
  vpath : Text

structure FtpOutcome where
  session : Session
  files : Files Text
  touched : List (Touch Text)
  replies : List String

inductive Command where
  | cwd (arg : Text)
  | list (arg : Text) (namesOnly : Bool)
  | retr (arg : Text)
  | stor (arg : Text) (received : List UInt8)

/-- One part of the virtual path. -/
def segment (segs : List Text) (part : Text) : List Text :=
  if part.isEmpty || part = ['.'] then segs
  else if part = ['.', '.'] then segs.dropLast
  else segs ++ [part]

/-- A real path with the normal components of a text, if it has no others. -/
def pushNormal (real : Path) : List PathPart → Option Path
  | [] => some real
  | .normal name :: parts => pushNormal (real ++ [name]) parts
  | _ :: _ => none

namespace Session

variable (s : Session)

def virtualPath (arg : Text) : Text :=
  if arg.head? = some '/' then arg
  else if s.vpath = ['/'] then '/' :: arg
  else s.vpath ++ '/' :: arg

def segments (arg : Text) : List Text := ((s.virtualPath arg).splitOn '/').foldl segment []

/-- The path below the root, before it is looked up. -/
def realPath (arg : Text) : Option Path :=
  (s.segments arg).foldlM (fun real seg => pushNormal real (components seg)) s.root

def resolve (arg : Text) : Option (Path × Text) := do
  let real ← s.realPath arg
  let real ← checked fs s.root real
  some (real, '/' :: ['/'].intercalate (s.segments arg))

def handleCwd (arg : Text) : FtpOutcome :=
  match s.resolve fs arg with
  | some (real, vpath) =>
    if fs.isDir real then ⟨{ s with vpath }, fs, [], ["250 Directory changed.\r\n"]⟩
    else ⟨s, fs, [], ["550 Failed to change directory.\r\n"]⟩
  | none => ⟨s, fs, [], ["550 Failed to change directory.\r\n"]⟩

/-- The first word of a `LIST` that is no flag. -/
def pathArg (arg : Text) : Text :=
  ((arg.splitOnP Agent.isWhitespace).find? fun t => !t.isEmpty && t.head? ≠ some '-').getD []

/-- `accept_data` without a connection. -/
def noData : FtpOutcome := ⟨s, fs, [], ["425 Use PASV first.\r\n"]⟩

def handleList (connected : Bool) (arg : Text) (namesOnly : Bool) : FtpOutcome :=
  match s.resolve fs (pathArg arg) with
  | none => ⟨s, fs, [], ["550 Invalid path.\r\n"]⟩
  | some (dir, _) =>
    if !connected then s.noData fs
    else
      let touched := match fs.readDir dir with
        | .error _ => []
        | .ok (here, entries) =>
          ⟨.lists, here⟩ :: if namesOnly then [] else entries.map fun name => ⟨.reads, here ++ [name]⟩
      ⟨s, fs, touched,
        ["150 Here comes the directory listing.\r\n", "226 Directory send OK.\r\n"]⟩

def reading : OpenOptions where
  read := true
  write := false
  append := false
  truncate := false
  create := false
  createNew := false
  noFollow := false

/-- `File::create`. -/
def creating : OpenOptions where
  read := false
  write := true
  append := false
  truncate := true
  create := true
  createNew := false
  noFollow := false

def handleRetr (connected : Bool) (arg : Text) : FtpOutcome :=
  match s.resolve fs arg with
  | none => ⟨s, fs, [], ["550 File not found.\r\n"]⟩
  | some (path, _) =>
    if !fs.isFile path then ⟨s, fs, [], ["550 File not found.\r\n"]⟩
    else if !connected then s.noData fs
    else
      match fs.openFile reading path with
      | .error _ => ⟨s, fs, [], ["150 Opening data connection.\r\n", "426 Transfer aborted.\r\n"]⟩
      | .ok opened => ⟨s, fs, [⟨.reads, opened.here⟩],
          ["150 Opening data connection.\r\n", "226 Transfer complete.\r\n"]⟩

/-- The files with the contents that were received. -/
def stored (opened : Files.Opened Text) (received : List UInt8) : Files Text :=
  match opened.node with
  | .file id => opened.files.setData id received
  | _ => opened.files

def handleStor (connected : Bool) (arg : Text) (received : List UInt8) : FtpOutcome :=
  match s.resolve fs arg with
  | none => ⟨s, fs, [], ["550 Invalid path.\r\n"]⟩
  | some (path, _) =>
    if !connected then s.noData fs
    else
      match fs.openFile creating path with
      | .error _ => ⟨s, fs, [], ["150 Ok to send data.\r\n", "426 Transfer aborted.\r\n"]⟩
      | .ok opened =>
        ⟨s, stored opened received, [⟨if opened.created then .creates else .changes, opened.here⟩],
          ["150 Ok to send data.\r\n", "226 Transfer complete.\r\n"]⟩

/-- A command of a session that is logged in. `connected` tells whether the data connection comes. -/
def handle (connected : Bool) : Command → FtpOutcome
  | .cwd arg => s.handleCwd fs arg
  | .list arg namesOnly => s.handleList fs connected arg namesOnly
  | .retr arg => s.handleRetr fs connected arg
  | .stor arg received => s.handleStor fs connected arg received

end Session

/-! ## HTTP -/

structure HttpOpts where
  root : Path
  directoryListing : Bool

inductive HttpReply where
  | status (code : ℕ)
  | listing (entries : List (Text × Bool))
  | head (length : ℕ)
  | body (bytes : List UInt8)
deriving DecidableEq

structure HttpOutcome where
  touched : List (Touch Text)
  reply : HttpReply

/-- A candidate below the root: other components than names and dots are rejected. -/
def candidate (out : Path) : List PathPart → Option Path
  | [] => some out
  | .normal name :: parts => candidate (out ++ [name]) parts
  | .curDir :: parts => candidate out parts
  | _ :: _ => none

def joined (root : Path) (decoded : Text) : Option Path :=
  candidate root (components (decoded.dropWhile (· = '/')))

def safeJoin (root : Path) (decoded : Text) : Option Path :=
  (joined root decoded).bind (checked fs root)

def serveFile (path : Path) (headOnly : Bool) : HttpOutcome :=
  match fs.openFile Session.reading path with
  | .error _ => ⟨[], .status 404⟩
  | .ok opened =>
    match opened.node with
    | .file id => ⟨[⟨.reads, opened.here⟩], if headOnly then .head (fs.data id).length else .body (fs.data id)⟩
    | _ => ⟨[⟨.reads, opened.here⟩], .status 404⟩

def renderListing (dir : Path) : HttpOutcome :=
  match fs.readDir dir with
  | .error _ => ⟨[], .listing []⟩
  | .ok (here, entries) =>
    ⟨⟨.lists, here⟩ :: entries.map fun name => ⟨.reads, here ++ [name]⟩,
      .listing (entries.map fun name => (name, fs.node (here ++ [name]) = some .dir))⟩

/-- The part of `handle_conn` after the path is decoded. -/
def respond (opts : HttpOpts) (decoded : Text) (headOnly : Bool) : HttpOutcome :=
  match safeJoin fs opts.root decoded with
  | none => ⟨[], .status 403⟩
  | some resolved =>
    if fs.isDir resolved then
      let index := resolved ++ ["index.html".toList]
      if fs.isFile index then serveFile fs index headOnly
      else if opts.directoryListing then renderListing fs resolved
      else ⟨[], .status 403⟩
    else if fs.isFile resolved then serveFile fs resolved headOnly
    else ⟨[], .status 404⟩

end Taomni.Serving

/-!
# What the FTP and the HTTP server hand out

A path that exists is looked up before it is used, so what is listed or sent is inside of the root. A file
that is stored under a new path and the index file of a directory are not looked up: they are inside
exactly when the links of their paths stay inside.

Reference: `src-tauri/src/servers/ftp.rs` and `src-tauri/src/servers/http.rs`.
-/

namespace Taomni.Serving

open List
open FileTree (RealDir resolve_place resolve_self realDir_nil)

variable {fs : Files Text} {root real path here : Path}

/-! ## Paths that were looked up -/

theorem checked_cases (h : checked fs root real = some path) :
    (fs.canonicalize real = .ok path ∧ root <+: path) ∨
      (path = real ∧ ∀ found, fs.metadata true real ≠ .ok found) := by
  unfold checked at h
  split at h
  · rename_i canon hcanon
    split at h
    · rename_i hprefix
      obtain rfl := Option.some.inj h
      exact .inl ⟨hcanon, isPrefixOf_iff_prefix.mp hprefix⟩
    · cases h
  · rename_i fault herror
    refine .inr ⟨(Option.some.inj h).symm, fun found hfound => ?_⟩
    unfold Files.canonicalize at herror
    rw [hfound] at herror
    cases herror

/-- The place of a path is found again. -/
theorem find_canonical (h : fs.find true real = .ok path) (hfind : fs.find true path = .ok here) :
    here = path := by
  refine resolve_self hfind ((resolve_place realDir_nil h).imp_right ?_)
  rintro ⟨dir, name, heq, hdir, hnode, hlink⟩
  exact ⟨dir, name, heq, hdir, hnode, hlink rfl⟩

theorem metadata_inside (h : checked fs root real = some path) {node : FileNode Text}
    (hmeta : fs.metadata true path = .ok (here, node)) : root <+: here := by
  rcases checked_cases h with ⟨hcanon, hinside⟩ | ⟨rfl, hnone⟩
  · obtain ⟨_, hplace⟩ := Files.canonicalize_ok hcanon
    rw [find_canonical (Files.metadata_ok hplace).1 (Files.metadata_ok hmeta).1]
    exact hinside
  · exact absurd hmeta (hnone _)

theorem isFile_iff : fs.isFile path = true ↔ ∃ here id, fs.metadata true path = .ok (here, .file id) := by
  unfold Files.isFile
  constructor
  · intro h
    split at h
    · rename_i here id hmeta
      exact ⟨here, id, hmeta⟩
    · cases h
  · rintro ⟨here, id, hmeta⟩
    rw [hmeta]

theorem openFile_reading {id : ℕ} (hmeta : fs.metadata true path = .ok (here, .file id)) :
    fs.openFile Session.reading path = .ok ⟨here, .file id, false, fs⟩ := by
  obtain ⟨hfind, hnode⟩ := Files.metadata_ok hmeta
  have hvalid : Session.reading.valid = true := by decide
  have hfollow : (!(Session.reading.createNew || Session.reading.noFollow)) = true := by decide
  rw [Files.openFile_of_find hvalid hfollow hfind]
  unfold Files.openAt
  rw [hnode]
  rfl

/-- What is opened for reading was there. -/
theorem openFile_reading_ok {opened : Files.Opened Text} (h : fs.openFile Session.reading path = .ok opened) :
    fs.metadata true path = .ok (opened.here, opened.node) := by
  obtain ⟨hfind, hopen⟩ := Files.openFile_ok h
  rcases (Files.openAt_ok hopen).2 with ⟨-, hnode, -⟩ | ⟨_, -, -, -, hcreate⟩
  · exact Files.metadata_of_node hfind hnode
  · cases hcreate

/-! ## FTP -/

namespace Session

variable {s : Session}

theorem resolve_checked {arg vpath : Text} (h : s.resolve fs arg = some (path, vpath)) :
    ∃ real, s.realPath arg = some real ∧ checked fs s.root real = some path := by
  obtain ⟨real, hreal, h⟩ := Option.bind_eq_some_iff.mp h
  obtain ⟨path', hchecked, h⟩ := Option.bind_eq_some_iff.mp h
  obtain ⟨rfl, -⟩ := Prod.mk.inj (Option.some.inj h)
  exact ⟨real, hreal, hchecked⟩

variable (connected : Bool)

theorem inside_handleList (arg : Text) (namesOnly : Bool) :
    Inside s.root (s.handleList fs connected arg namesOnly).touched := by
  unfold handleList
  split
  · exact inside_nil
  · rename_i dir vpath hresolve
    obtain ⟨real, -, hchecked⟩ := resolve_checked hresolve
    split
    · exact inside_nil
    · dsimp only
      split
      · exact inside_nil
      · rename_i here entries hread
        have hhere := metadata_inside hchecked (Files.readDir_ok hread)
        refine forall_mem_cons.mpr ⟨hhere, ?_⟩
        split
        · exact inside_nil
        · exact forall_mem_map.mpr fun name _ => hhere.trans (prefix_append _ _)

theorem inside_handleRetr (arg : Text) : Inside s.root (s.handleRetr fs connected arg).touched := by
  unfold handleRetr
  split
  · exact inside_nil
  · rename_i path vpath hresolve
    obtain ⟨real, -, hchecked⟩ := resolve_checked hresolve
    split
    · exact inside_nil
    · split
      · exact inside_nil
      · split
        · exact inside_nil
        · rename_i opened hopen
          exact inside_singleton .reads (metadata_inside hchecked (openFile_reading_ok hopen))

/-- A new file of a `STOR` is where the links of its path lead: that is inside. -/
def StoresInside (fs : Files Text) (s : Session) (connected : Bool) (arg : Text) : Prop :=
  connected = true → ∀ real here, s.realPath arg = some real → fs.find true real = .ok here →
    fs.node here = none → s.root <+: here

theorem inside_handleStor_iff (arg : Text) (received : List UInt8) :
    Inside s.root (s.handleStor fs connected arg received).touched ↔
      StoresInside fs s connected arg := by
  constructor
  · intro hinside hconnected real here hreal hfind hnode
    have hnone (found : Path × FileNode Text) : fs.metadata true real ≠ .ok found := by
      intro hfound
      obtain ⟨hfind', hnode'⟩ := Files.metadata_ok hfound
      rw [hfind] at hfind'
      rw [← Except.ok.inj hfind', hnode] at hnode'
      cases hnode'
    have hchecked : checked fs s.root real = some real := by
      unfold checked
      cases hcanon : fs.canonicalize real with
      | error fault => rfl
      | ok canon =>
        obtain ⟨node, hmeta⟩ := Files.canonicalize_ok hcanon
        exact absurd hmeta (hnone _)
    have hresolve : s.resolve fs arg = some (real, '/' :: ['/'].intercalate (s.segments arg)) := by
      unfold resolve
      rw [hreal]
      show (checked fs s.root real).bind _ = _
      rw [hchecked]
      rfl
    have hvalid : creating.valid = true := by decide
    have hfollow : (!(creating.createNew || creating.noFollow)) = true := by decide
    have hopen : ∃ opened, fs.openFile creating real = .ok opened := by
      rw [Files.openFile_of_find hvalid hfollow hfind]
      unfold Files.openAt
      rw [hnode]
      exact ⟨_, rfl⟩
    obtain ⟨opened, hopen⟩ := hopen
    obtain ⟨hfound, -⟩ := Files.openFile_ok hopen
    rw [hfollow, hfind] at hfound
    unfold handleStor at hinside
    rw [hresolve, hconnected] at hinside
    have hthere : ¬(!true) = true := by decide
    dsimp only at hinside
    rw [if_neg hthere, hopen] at hinside
    rw [Except.ok.inj hfound]
    exact hinside _ mem_cons_self
  · intro hstores
    unfold handleStor
    split
    · exact inside_nil
    · rename_i path vpath hresolve
      obtain ⟨real, hreal, hchecked⟩ := resolve_checked hresolve
      split
      · exact inside_nil
      · rename_i hconnected
        split
        · exact inside_nil
        · rename_i opened hopen
          obtain ⟨hfind, hopen⟩ := Files.openFile_ok hopen
          refine inside_singleton _ ?_
          rcases (Files.openAt_ok hopen).2 with ⟨-, hnode, -⟩ | ⟨_, -, hnode, -⟩
          · exact metadata_inside hchecked (Files.metadata_of_node hfind hnode)
          · rcases checked_cases hchecked with ⟨hcanon, hinside⟩ | ⟨rfl, -⟩
            · obtain ⟨_, hplace⟩ := Files.canonicalize_ok hcanon
              rw [find_canonical (Files.metadata_ok hplace).1 hfind]
              exact hinside
            · refine hstores ?_ _ _ hreal hfind hnode
              rwa [Bool.not_eq_true', Bool.not_eq_false] at hconnected

/-- A new file of a `STOR` is where the links of its path lead: that is inside. -/
def KeepsInside (s : Session) (fs : Files Text) (connected : Bool) : Command → Prop
  | .stor arg _ => StoresInside fs s connected arg
  | _ => True

theorem inside_handle_iff (command : Command) :
    Inside s.root (s.handle fs connected command).touched ↔ s.KeepsInside fs connected command := by
  cases command with
  | cwd arg =>
    refine iff_of_true ?_ trivial
    show Inside s.root (s.handleCwd fs arg).touched
    unfold handleCwd
    split
    · split
      · exact inside_nil
      · exact inside_nil
    · exact inside_nil
  | list arg namesOnly => exact iff_of_true (inside_handleList connected arg namesOnly) trivial
  | retr arg => exact iff_of_true (inside_handleRetr connected arg) trivial
  | stor arg received => exact inside_handleStor_iff connected arg received

end Session

/-! ## HTTP -/

/-- The index file of the directory, if it has one, is where its links lead: that is inside. -/
def IndexInside (fs : Files Text) (opts : HttpOpts) (decoded : Text) : Prop :=
  ∀ dir here id, safeJoin fs opts.root decoded = some dir → fs.isDir dir = true →
    fs.metadata true (dir ++ ["index.html".toList]) = .ok (here, .file id) → opts.root <+: here

theorem safeJoin_checked {root path : Path} {decoded : Text} (h : safeJoin fs root decoded = some path) :
    ∃ real, checked fs root real = some path := by
  obtain ⟨real, -, h⟩ := Option.bind_eq_some_iff.mp h
  exact ⟨real, h⟩

/-- What is served of a file is what its path leads to. -/
theorem inside_serveFile_iff {id : ℕ} (hmeta : fs.metadata true path = .ok (here, .file id))
    (headOnly : Bool) : Inside root (serveFile fs path headOnly).touched ↔ root <+: here := by
  unfold serveFile
  rw [openFile_reading hmeta]
  exact ⟨fun h => h _ mem_cons_self, inside_singleton .reads⟩

theorem inside_respond_iff (opts : HttpOpts) (decoded : Text) (headOnly : Bool) :
    Inside opts.root (respond fs opts decoded headOnly).touched ↔ IndexInside fs opts decoded := by
  unfold respond IndexInside
  cases hjoin : safeJoin fs opts.root decoded with
  | none => exact iff_of_true inside_nil fun _ _ _ h => nomatch h
  | some resolved =>
    obtain ⟨real, hchecked⟩ := safeJoin_checked hjoin
    dsimp only
    by_cases hdir : fs.isDir resolved = true
    · rw [if_pos hdir]
      by_cases hindex : fs.isFile (resolved ++ ["index.html".toList]) = true
      · obtain ⟨here, id, hmeta⟩ := isFile_iff.mp hindex
        rw [if_pos hindex, inside_serveFile_iff hmeta]
        constructor
        · rintro h dir here' id' hsome - hmeta'
          rw [← Option.some.inj hsome, hmeta] at hmeta'
          rw [← (Prod.mk.inj (Except.ok.inj hmeta')).1]
          exact h
        · exact fun h => h resolved here id rfl hdir hmeta
      · rw [if_neg hindex]
        refine iff_of_true ?_ fun dir here id hsome _ hmeta => ?_
        · split
          · unfold renderListing
            split
            · exact inside_nil
            · rename_i here entries hread
              have hhere := metadata_inside hchecked (Files.readDir_ok hread)
              refine forall_mem_cons.mpr ⟨hhere, ?_⟩
              exact forall_mem_map.mpr fun name _ => hhere.trans (prefix_append _ _)
          · exact inside_nil
        · rw [← Option.some.inj hsome] at hmeta
          exact absurd (isFile_iff.mpr ⟨here, id, hmeta⟩) hindex
    · rw [if_neg hdir]
      refine iff_of_true ?_ fun dir here id hsome hdir' _ => ?_
      · split
        · rename_i hfile
          obtain ⟨here, id, hmeta⟩ := isFile_iff.mp hfile
          exact (inside_serveFile_iff hmeta headOnly).mpr (metadata_inside hchecked hmeta)
        · exact inside_nil
      · rw [← Option.some.inj hsome] at hdir'
        exact absurd hdir' hdir

/-- Both servers: when what a request lists, sends, serves or creates is inside of the root. -/
theorem serving_inside_iff (fs : Files Text) : (∀ (s : Session) (connected : Bool) (command : Command),
        Inside s.root (s.handle fs connected command).touched ↔ s.KeepsInside fs connected command) ∧
      ∀ (opts : HttpOpts) (decoded : Text) (headOnly : Bool),
        Inside opts.root (respond fs opts decoded headOnly).touched ↔ IndexInside fs opts decoded :=
  ⟨fun _ => Session.inside_handle_iff, inside_respond_iff⟩

/-- A root `srv` with a link to a directory `out` and one for its index file. -/
def linked : Files Text := .ofEntries
  [(["srv".toList], .dir), (["out".toList], .dir), (["etc".toList], .file 0),
    (["srv".toList, "l".toList], .link true [.enter "out".toList]),
    (["srv".toList, "index.html".toList], .link true [.enter "etc".toList])] 1

/-- A `STOR` below the link creates a file outside, and the index file is read outside. -/
theorem links_lead_out : let session : Session := ⟨["srv".toList], ['/']⟩
    let opts : HttpOpts := ⟨["srv".toList], true⟩
    (session.handle linked true (.stor "l/new".toList [1])).touched =
        [⟨.creates, ["out".toList, "new".toList]⟩] ∧
      ¬session.root <+: ["out".toList, "new".toList] ∧
      (respond linked opts ['/'] false).touched = [⟨.reads, ["etc".toList]⟩] ∧
      ¬opts.root <+: ["etc".toList] := by
  decide

end Taomni.Serving
