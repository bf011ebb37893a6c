import Mathlib.Data.List.Dedup
import Taomni.Common.Fallible
import Taomni.Common.Paths

/-!
# Files with symbolic links

A tree of directories, files and links, and the calls of an operating system on it. A path is followed
name by name; a link on the way is replaced by its moves, from the root or from the directory it is in,
and at most `linkLimit` links are followed for one path.
-/

namespace Taomni

open List

variable {ν : Type}

/-! ## Nodes -/

inductive FileNode (ν : Type) where
  | dir
  | file (id : ℕ)
  | link (rooted : Bool) (moves : List (Move ν))
deriving DecidableEq

inductive Fault where
  | notFound | notDirectory | isDirectory | exists | notEmpty | loop | invalid
deriving DecidableEq

abbrev FileTree (ν : Type) := PathTree ν (FileNode ν)

def linkLimit : ℕ := 40

/-! ## Touching objects -/

inductive TouchKind where
  | reads | lists | creates | changes | removes
deriving DecidableEq

/-- An object that is touched, by the place that its path was resolved to. -/
structure Touch (ν : Type) where
  kind : TouchKind
  place : List ν
deriving DecidableEq

/-- All of them are in a subtree. -/
def Inside (root : List ν) (touched : List (Touch ν)) : Prop := ∀ t ∈ touched, root <+: t.place

theorem inside_nil {root : List ν} : Inside root [] := fun _ h => absurd h not_mem_nil

theorem inside_singleton {root here : List ν} (kind : TouchKind) (h : root <+: here) :
    Inside root [⟨kind, here⟩] := fun t ht => by
  rw [mem_singleton.mp ht]
  exact h

/-! ## Following a path -/

namespace FileTree

variable (T : FileTree ν)

/-- The place that some moves lead to. Its last name need not exist; `again` goes on at a link. -/
def resolveWith (again : List (Move ν) → List ν → Except Fault (List ν)) (follow : Bool) :
    List (Move ν) → List ν → Except Fault (List ν)
  | [], here => .ok here
  | .stay :: rest, here => resolveWith again follow rest here
  | .up :: rest, here => resolveWith again follow rest here.dropLast
  | .enter name :: rest, here =>
    match T (here ++ [name]) with
    | some .dir => resolveWith again follow rest (here ++ [name])
    | some (.link rooted moves) =>
      if rest.isEmpty && !follow then .ok (here ++ [name])
      else again (moves ++ rest) (if rooted then [] else here)
    | some (.file _) => if rest.isEmpty then .ok (here ++ [name]) else .error .notDirectory
    | none => if rest.isEmpty then .ok (here ++ [name]) else .error .notFound

/-- Follows at most `links` links. A link at the end of the path is one of them if `follow` is set. -/
def resolve (follow : Bool) : ℕ → List (Move ν) → List ν → Except Fault (List ν)
  | 0 => T.resolveWith (fun _ _ => .error .loop) follow
  | links + 1 => T.resolveWith (resolve follow links) follow

end FileTree

/-! ## Files -/

/-- A tree with the contents of its files. Outside of `paths` there is nothing. -/
structure Files (ν : Type) where
  tree : FileTree ν
  paths : List (List ν)
  listed : ∀ path, (tree path).isSome → path ∈ paths
  data : ℕ → List UInt8
  nextId : ℕ

/-- The files of some entries. They are all empty. -/
def Files.ofEntries [DecidableEq ν] (entries : List (List ν × FileNode ν)) (nextId : ℕ) : Files ν where
  tree := fun path => (entries.find? fun entry => entry.1 = path).map Prod.snd
  paths := entries.map Prod.fst
  listed := fun path hpath => by
    obtain ⟨entry, hentry⟩ := Option.isSome_iff_exists.mp (Option.isSome_map ▸ hpath)
    have hpath := find?_some hentry
    rw [decide_eq_true_eq] at hpath
    exact hpath ▸ mem_map_of_mem (mem_of_find?_eq_some hentry)
  data := fun _ => []
  nextId

structure OpenOptions where
  read : Bool
  write : Bool
  append : Bool
  truncate : Bool
  create : Bool
  createNew : Bool
  noFollow : Bool
deriving DecidableEq

/-- The combinations that can be opened at all. -/
def OpenOptions.valid (o : OpenOptions) : Bool :=
  (o.read || o.write || o.append) &&
    (o.write || o.append || !(o.truncate || o.create || o.createNew)) &&
    !(o.append && o.truncate && !o.createNew)

namespace Files

variable [DecidableEq ν] (fs : Files ν)

/-- The root is always there. -/
def node (path : List ν) : Option (FileNode ν) := if path.isEmpty then some .dir else fs.tree path

def names (names : List ν) : List (Move ν) := names.map .enter

/-- The place of an absolute path. -/
def find (follow : Bool) (path : List ν) : Except Fault (List ν) :=
  fs.tree.resolve follow linkLimit (names path) []

def set (path : List ν) (entry : Option (FileNode ν)) : Files ν :=
  { fs with
    tree := fs.tree.set path entry
    paths := path :: fs.paths
    listed := fun p hp => by
      by_cases heq : p = path
      · exact heq ▸ mem_cons_self
      · rw [PathTree.set_ne entry heq] at hp
        exact mem_cons_of_mem _ (fs.listed p hp) }

def move (a b : List ν) : Files ν :=
  { fs with
    tree := fs.tree.move a b
    paths := fs.paths.map (fun p => b ++ p.drop a.length) ++ fs.paths
    listed := fun p hp => by
      unfold PathTree.move at hp
      split at hp
      · rename_i h
        obtain ⟨rest, rfl⟩ := isPrefixOf_iff_prefix.mp h
        rw [drop_left] at hp
        refine mem_append_left _ (mem_map.mpr ⟨_, fs.listed _ hp, ?_⟩)
        rw [drop_left]
      · split at hp
        · cases hp
        · exact mem_append_right _ (fs.listed p hp) }

/-- The names in a directory. -/
def entries (dir : List ν) : List ν :=
  (fs.paths.filter fun p => p.dropLast = dir && (fs.tree p).isSome).dedup.filterMap List.getLast?

def isEmptyDir (dir : List ν) : Bool :=
  fs.paths.all fun p => !(dir.isPrefixOf p && p ≠ dir && (fs.tree p).isSome)

/-! ## Calls -/

/-- `metadata`, or `symlink_metadata` without following. -/
def metadata (follow : Bool) (path : List ν) : Except Fault (List ν × FileNode ν) := do
  let here ← fs.find follow path
  match fs.node here with
  | some node => .ok (here, node)
  | none => .error .notFound

def canonicalize (path : List ν) : Except Fault (List ν) := (fs.metadata true path).map Prod.fst

def isDir (path : List ν) : Bool :=
  match fs.metadata true path with
  | .ok (_, .dir) => true
  | _ => false

def isFile (path : List ν) : Bool :=
  match fs.metadata true path with
  | .ok (_, .file _) => true
  | _ => false

/-- `exists` of a path: its links are followed. -/
def isThere (path : List ν) : Bool := (fs.metadata true path).isOk

def readDir (path : List ν) : Except Fault (List ν × List ν) := do
  match ← fs.metadata true path with
  | (here, .dir) => .ok (here, fs.entries here)
  | _ => .error .notDirectory

def readLink (path : List ν) : Except Fault (List ν × Bool × List (Move ν)) := do
  match ← fs.metadata false path with
  | (here, .link rooted moves) => .ok (here, rooted, moves)
  | _ => .error .invalid

/-- What is opened, where it is, and whether it is new. -/
structure Opened (ν : Type) where
  here : List ν
  node : FileNode ν
  created : Bool
  files : Files ν

/-- Opening what is at a place. -/
def openAt (o : OpenOptions) (here : List ν) : Except Fault (Opened ν) :=
  match fs.node here with
  | some .dir =>
    if o.createNew then .error .exists
    else if o.write || o.append || o.create then .error .isDirectory
    else .ok ⟨here, .dir, false, fs⟩
  | some (.file id) =>
    if o.createNew then .error .exists
    else if o.truncate then
      .ok ⟨here, .file id, false, { fs with data := fun i => if i = id then [] else fs.data i }⟩
    else .ok ⟨here, .file id, false, fs⟩
  | some (.link _ _) => .error (if o.createNew then .exists else .loop)
  | none =>
    if o.create || o.createNew then
      .ok ⟨here, .file fs.nextId, true,
        { fs.set here (some (.file fs.nextId)) with
          data := fun i => if i = fs.nextId then [] else fs.data i
          nextId := fs.nextId + 1 }⟩
    else .error .notFound

def openFile (o : OpenOptions) (path : List ν) : Except Fault (Opened ν) :=
  if !o.valid then .error .invalid
  else do
    let here ← fs.find (!(o.createNew || o.noFollow)) path
    fs.openAt o here

def setData (id : ℕ) (bytes : List UInt8) : Files ν :=
  { fs with data := fun i => if i = id then bytes else fs.data i }

def createDir (path : List ν) : Except Fault (List ν × Files ν) := do
  let here ← fs.find false path
  match fs.node here with
  | some _ => .error .exists
  | none => .ok (here, fs.set here (some .dir))

def removeFile (path : List ν) : Except Fault (List ν × Files ν) := do
  match ← fs.metadata false path with
  | (_, .dir) => .error .isDirectory
  | (here, _) => .ok (here, fs.set here none)

def removeDir (path : List ν) : Except Fault (List ν × Files ν) := do
  match ← fs.metadata false path with
  | (here, .dir) =>
    if here.isEmpty then .error .invalid
    else if fs.isEmptyDir here then .ok (here, fs.set here none)
    else .error .notEmpty
  | _ => .error .notDirectory

/-- What may be replaced by a rename. -/
def replaceable (a : FileNode ν) (there : List ν) : Except Fault Unit :=
  match a, fs.node there with
  | _, none => .ok ()
  | .dir, some .dir => if fs.isEmptyDir there then .ok () else .error .notEmpty
  | .dir, some _ => .error .notDirectory
  | _, some .dir => .error .isDirectory
  | _, some _ => .ok ()

/-- The places of the two paths, and the files after. -/
def rename (source target : List ν) : Except Fault (List ν × List ν × Files ν) := do
  let (a, node) ← fs.metadata false source
  let b ← fs.find false target
  if a = b then .ok (a, b, fs)
  else if a.isPrefixOf b || b.isEmpty then .error .invalid
  else do
    fs.replaceable node b
    .ok (a, b, fs.move a b)

def symlink (rooted : Bool) (moves : List (Move ν)) (path : List ν) :
    Except Fault (List ν × Files ν) := do
  let here ← fs.find false path
  match fs.node here with
  | some _ => .error .exists
  | none => .ok (here, fs.set here (some (.link rooted moves)))

/-! ## What a call does -/

variable {fs} {fs' : Files ν} {follow : Bool} {path here : List ν}

omit [DecidableEq ν] in
theorem node_of_ne_nil (h : path ≠ []) : fs.node path = fs.tree path :=
  if_neg (mt List.isEmpty_iff.mp h)

omit [DecidableEq ν] in
theorem metadata_ok {node : FileNode ν} (h : fs.metadata follow path = .ok (here, node)) :
    fs.find follow path = .ok here ∧ fs.node here = some node := by
  obtain ⟨a, hfind, h⟩ := exists_of_bind_eq_ok h
  split at h
  · rename_i hnode
    obtain ⟨rfl, rfl⟩ := Prod.mk.inj (Except.ok.inj h)
    exact ⟨hfind, hnode⟩
  · cases h

omit [DecidableEq ν] in
theorem metadata_of_node {node : FileNode ν} (hfind : fs.find follow path = .ok here)
    (hnode : fs.node here = some node) : fs.metadata follow path = .ok (here, node) := by
  unfold metadata
  rw [hfind]
  show (match fs.node here with
    | some node => Except.ok (here, node)
    | none => Except.error Fault.notFound) = _
  rw [hnode]

omit [DecidableEq ν] in
omit [DecidableEq ν] in
theorem canonicalize_ok (h : fs.canonicalize path = .ok here) :
    ∃ node, fs.metadata true path = .ok (here, node) := by
  unfold canonicalize at h
  cases hmeta : fs.metadata true path with
  | error fault =>
    rw [hmeta] at h
    cases h
  | ok found =>
    rw [hmeta] at h
    rw [← Except.ok.inj h]
    exact ⟨found.2, rfl⟩

theorem readDir_ok {entries : List ν} (h : fs.readDir path = .ok (here, entries)) :
    fs.metadata true path = .ok (here, .dir) := by
  obtain ⟨⟨a, node⟩, hmeta, h⟩ := exists_of_bind_eq_ok h
  split at h
  · rename_i heq
    obtain ⟨rfl, -⟩ := Prod.mk.inj (Except.ok.inj h)
    rw [← heq]
    exact hmeta
  · cases h

omit [DecidableEq ν] in
theorem readLink_ok {rooted : Bool} {moves : List (Move ν)}
    (h : fs.readLink path = .ok (here, rooted, moves)) : fs.find false path = .ok here := by
  obtain ⟨⟨a, node⟩, hmeta, h⟩ := exists_of_bind_eq_ok h
  split at h
  · rename_i heq
    obtain ⟨rfl, -⟩ := Prod.mk.inj (Except.ok.inj h)
    rw [← (Prod.mk.inj heq).1]
    exact (metadata_ok hmeta).1
  · cases h

variable {o : OpenOptions}

theorem openFile_of_find (hvalid : o.valid = true)
    (hfollow : (!(o.createNew || o.noFollow)) = follow) (hfind : fs.find follow path = .ok here) :
    fs.openFile o path = fs.openAt o here := by
  unfold openFile
  rw [hvalid, hfollow, hfind]
  rfl

theorem openAt_ok {opened : Opened ν} (h : fs.openAt o here = .ok opened) : opened.here = here ∧
      (opened.files.tree = fs.tree ∧ fs.node here = some opened.node ∧ opened.created = false ∨
        ∃ id, opened.files.tree = fs.tree.set here (some (.file id)) ∧ fs.node here = none ∧
          opened.created = true ∧ (o.create || o.createNew) = true) := by
  unfold openAt at h
  split at h
  · rename_i hnode
    split at h
    · cases h
    · split at h
      · cases h
      · cases Except.ok.inj h
        exact ⟨rfl, .inl ⟨rfl, hnode, rfl⟩⟩
  · rename_i hnode
    split at h
    · cases h
    · split at h
      · cases Except.ok.inj h
        exact ⟨rfl, .inl ⟨rfl, hnode, rfl⟩⟩
      · cases Except.ok.inj h
        exact ⟨rfl, .inl ⟨rfl, hnode, rfl⟩⟩
  · cases h
  · rename_i hnode
    split at h
    · rename_i hcreate
      cases Except.ok.inj h
      exact ⟨rfl, .inr ⟨_, rfl, hnode, rfl, hcreate⟩⟩
    · cases h

theorem openFile_ok {opened : Opened ν} (h : fs.openFile o path = .ok opened) :
    fs.find (!(o.createNew || o.noFollow)) path = .ok opened.here ∧
      fs.openAt o opened.here = .ok opened := by
  unfold openFile at h
  split at h
  · cases h
  · obtain ⟨here, hfind, h⟩ := exists_of_bind_eq_ok h
    rw [(openAt_ok h).1]
    exact ⟨hfind, h⟩

theorem createDir_ok (h : fs.createDir path = .ok (here, fs')) :
    fs.find false path = .ok here ∧ fs.node here = none ∧ fs' = fs.set here (some .dir) := by
  obtain ⟨a, hfind, h⟩ := exists_of_bind_eq_ok h
  split at h
  · cases h
  · rename_i hnode
    obtain ⟨rfl, rfl⟩ := Prod.mk.inj (Except.ok.inj h)
    exact ⟨hfind, hnode, rfl⟩

/-- Where a directory could be made, another fault than a missing parent is found. -/
theorem find_of_createDir (h : fs.createDir path = .error .notFound) : fs.find false path ≠ .ok here := by
  intro hfind
  unfold createDir at h
  rw [hfind] at h
  change (match fs.node here with
    | some _ => Except.error Fault.exists
    | none => .ok (here, fs.set here (some .dir))) = _ at h
  split at h
  · cases h
  · cases h

theorem removeFile_ok (h : fs.removeFile path = .ok (here, fs')) :
    fs.find false path = .ok here ∧ fs' = fs.set here none ∧
      ∃ node, fs.node here = some node ∧ node ≠ .dir := by
  obtain ⟨⟨a, node⟩, hmeta, h⟩ := exists_of_bind_eq_ok h
  obtain ⟨hfind, hnode⟩ := metadata_ok hmeta
  split at h
  · cases h
  · rename_i hne heq
    obtain ⟨rfl, rfl⟩ := Prod.mk.inj heq
    obtain ⟨rfl, rfl⟩ := Prod.mk.inj (Except.ok.inj h)
    exact ⟨hfind, rfl, _, hnode, hne⟩

theorem removeDir_ok (h : fs.removeDir path = .ok (here, fs')) :
    fs.find false path = .ok here ∧ fs' = fs.set here none ∧ fs.isEmptyDir here = true := by
  obtain ⟨⟨a, node⟩, hmeta, h⟩ := exists_of_bind_eq_ok h
  split at h
  · rename_i heq
    split at h
    · cases h
    · split at h
      · rename_i hempty
        obtain ⟨rfl, rfl⟩ := Prod.mk.inj (Except.ok.inj h)
        rw [← (Prod.mk.inj heq).1] at hempty ⊢
        exact ⟨(metadata_ok hmeta).1, rfl, hempty⟩
      · cases h
  · cases h

theorem none_of_isEmptyDir {dir : List ν} (h : fs.isEmptyDir dir = true) (name : ν) :
    fs.tree (dir ++ [name]) = none := by
  rw [← Option.not_isSome_iff_eq_none]
  intro hsome
  have hentry := all_eq_true.mp h _ (fs.listed _ hsome)
  rw [hsome, Bool.and_true, Bool.not_eq_true', Bool.and_eq_false_iff, decide_eq_false_iff_not,
    not_not] at hentry
  rcases hentry with hprefix | heq
  · rw [List.isPrefixOf_iff_prefix.mpr (prefix_append _ _)] at hprefix
    cases hprefix
  · exact cons_ne_nil _ _ (append_right_eq_self.mp heq)

theorem rename_ok {source target a b : List ν} (h : fs.rename source target = .ok (a, b, fs')) :
    fs.find false source = .ok a ∧ fs.find false target = .ok b ∧
      (fs' = fs ∨ fs' = fs.move a b ∧ ¬a <+: b ∧ b ≠ [] ∧ (fs.node a).isSome) := by
  obtain ⟨⟨a', node⟩, hmeta, h⟩ := exists_of_bind_eq_ok h
  obtain ⟨b', hfind, h⟩ := exists_of_bind_eq_ok h
  obtain ⟨hsource, hnode⟩ := metadata_ok hmeta
  split at h
  · obtain ⟨rfl, hrest⟩ := Prod.mk.inj (Except.ok.inj h)
    obtain ⟨rfl, rfl⟩ := Prod.mk.inj hrest
    exact ⟨hsource, hfind, .inl rfl⟩
  · split at h
    · cases h
    · rename_i hnot
      obtain ⟨⟨⟩, -, h⟩ := exists_of_bind_eq_ok h
      obtain ⟨rfl, hrest⟩ := Prod.mk.inj (Except.ok.inj h)
      obtain ⟨rfl, rfl⟩ := Prod.mk.inj hrest
      rw [Bool.or_eq_true, not_or, isPrefixOf_iff_prefix, List.isEmpty_iff] at hnot
      exact ⟨hsource, hfind, .inr ⟨rfl, hnot.1, hnot.2, hnode ▸ rfl⟩⟩

theorem symlink_ok {rooted : Bool} {moves : List (Move ν)}
    (h : fs.symlink rooted moves path = .ok (here, fs')) :
    fs.find false path = .ok here ∧ fs' = fs.set here (some (.link rooted moves)) := by
  obtain ⟨a, hfind, h⟩ := exists_of_bind_eq_ok h
  split at h
  · cases h
  · obtain ⟨rfl, rfl⟩ := Prod.mk.inj (Except.ok.inj h)
    exact ⟨hfind, rfl⟩

end Files

end Taomni
