import Taomni.Common.Resolution
import Taomni.Common.Runs
import Taomni.Rdp.Drive

/-!
# What the redirected drive touches

Requests that come with a path look at every part of it before they use it. A rename or a delete uses the
path that the handle was opened with, and the next entry of a directory the path that was listed: other
requests may have put a link into these since.

Reference: `src-tauri/src/rdp/rdpdr/paths.rs`, `opening.rs`, `queries.rs` and `mutations.rs`.
-/

namespace Taomni.Rdpdr

open List
open FileTree (RealDir NoLinks Closed resolve_child resolve_noLinks realDir_of_resolve)
open PathPart (components)

variable {fs : Files Text} {root path : Path}

/-! ## Paths -/

theorem find_child {dir : Path} (hdir : RealDir fs.tree dir) (name : Text) :
    fs.find false (dir ++ [name]) = .ok (dir ++ [name]) := resolve_child hdir

theorem noLinks_of_validateBelow (hclosed : Closed fs.tree) {current : Path} {rest : List Text}
    (hcurrent : NoLinks fs.tree current) (h : validateBelow fs current rest = true) :
    NoLinks fs.tree (current ++ rest) := by
  induction rest generalizing current with
  | nil => rwa [append_nil]
  | cons segment rest ih =>
    by_cases hreal : RealDir fs.tree current
    · have hne : current ++ [segment] ≠ [] :=
        append_ne_nil_of_right_ne_nil _ (cons_ne_nil _ _)
      have hassoc : current ++ segment :: rest = current ++ [segment] ++ rest := by
        rw [append_assoc, singleton_append]
      have hfind := find_child hreal segment
      have hnext (hnode : ∀ rooted moves, fs.tree (current ++ [segment]) ≠ some (.link rooted moves)) :
          NoLinks fs.tree (current ++ [segment]) := by
        intro p hp hpne rooted moves
        rcases prefix_concat_iff.mp hp with rfl | hp
        · exact hnode rooted moves
        · exact hcurrent p hp hpne rooted moves
      rw [hassoc]
      rw [validateBelow] at h
      cases hnode : fs.tree (current ++ [segment]) with
      | none =>
        refine hclosed.noLinks_append (hnext ?_) (fun hdir => ?_) rest
        · rw [hnode]
          nofun
        · exact absurd (hnode.symm.trans (hdir _ prefix_rfl hne)) nofun
      | some node =>
        rw [Files.metadata_of_node hfind ((Files.node_of_ne_nil hne).trans hnode)] at h
        cases node with
        | dir =>
          refine ih (hnext ?_) h
          rw [hnode]
          nofun
        | file id =>
          refine ih (hnext ?_) h
          rw [hnode]
          nofun
        | link rooted moves => cases h
    · exact hclosed.noLinks_append hcurrent hreal _

/-! ## The tree -/

/-- The root is where its path says. -/
structure SafeTree (root : Path) (T : FileTree Text) : Prop where
  closed : Closed T
  real : RealDir T root.dropLast
  free : NoLinks T root

theorem noLinks_of_validate (h : SafeTree root fs.tree) (hvalid : validateConfinedPath fs root path = true) :
    NoLinks fs.tree path ∧ root <+: path := by
  unfold validateConfinedPath at hvalid
  rw [Bool.and_eq_true, isPrefixOf_iff_prefix] at hvalid
  obtain ⟨⟨rest, rfl⟩, hbelow⟩ := hvalid
  rw [drop_left] at hbelow
  exact ⟨noLinks_of_validateBelow h.closed h.free hbelow, prefix_append _ _⟩

variable {follow : Bool}

/-- A path without links is its own place. -/
theorem place_eq {here : Path} (hpath : NoLinks fs.tree path)
    (hfind : fs.find follow path = .ok here) : here = path := resolve_noLinks hpath hfind

namespace SafeTree

variable {T T' : FileTree Text} {entry : Option (FileNode Text)}

/-- A change below the root that puts no link in its place. -/
theorem of_outside (h : SafeTree root T) (hclosed : Closed T') (houtside : ∀ p, ¬root <+: p → T' p = T p)
    (hroot : root ≠ [] → ∀ rooted moves, T' root ≠ some (.link rooted moves)) : SafeTree root T' := by
  have hreal := h.real.of_outside houtside
  refine ⟨hclosed, hreal, fun p hp hne rooted moves => ?_⟩
  rcases eq_nil_or_concat root with rfl | ⟨dir, name, rfl⟩
  · exact absurd (prefix_nil.mp hp) hne
  · rw [concat_eq_append] at *
    rw [dropLast_concat] at hreal
    rcases prefix_concat_iff.mp hp with rfl | hp
    · exact hroot hne rooted moves
    · rw [hreal p hp hne]
      nofun

variable {here : Path} (h : SafeTree root T) (hhere : root <+: here)
include h hhere

theorem set (hclosed : Closed (T.set here entry)) (hentry : ∀ rooted moves, entry ≠ some (.link rooted moves)) :
    SafeTree root (T.set here entry) := by
  refine h.of_outside hclosed (fun p => FileTree.set_outside T entry hhere) fun hne rooted moves => ?_
  by_cases heq : root = here
  · rw [heq, PathTree.set_eq]
    exact hentry rooted moves
  · rw [PathTree.set_ne _ heq]
    exact h.free root prefix_rfl hne rooted moves

variable {moves : List (Move Text)}

theorem add {links : ℕ} (hne : here ≠ [])
    (hfind : T.resolve follow links moves [] = .ok here) (hnode : T here = none) {node : FileNode Text}
    (hlink : ∀ rooted moves, node ≠ .link rooted moves) : SafeTree root (T.set here (some node)) := by
  refine h.set hhere ?_ fun rooted moves heq => hlink rooted moves (Option.some.inj heq)
  rcases eq_nil_or_concat here with rfl | ⟨dir, name, rfl⟩
  · exact absurd rfl hne
  · rw [concat_eq_append] at *
    exact h.closed.set_some (realDir_of_resolve hfind) hnode node

theorem remove (hempty : ∀ name, T (here ++ [name]) = none) : SafeTree root (T.set here none) :=
  h.set hhere (h.closed.set_none hempty) nofun

theorem move {b : Path} {links : ℕ} (hb : root <+: b)
    (hfind : T.resolve follow links moves [] = .ok b) (hnot : ¬here <+: b) (hbne : b ≠ [])
    (hne : here ≠ []) (hlink : ∀ rooted moves, T here ≠ some (.link rooted moves)) :
    SafeTree root (T.move here b) := by
  have hclosed : Closed (T.move here b) := by
    rcases eq_nil_or_concat b with rfl | ⟨dir, name, rfl⟩
    · exact absurd rfl hbne
    · rw [concat_eq_append] at *
      exact h.closed.move (realDir_of_resolve hfind) hnot hne
  refine h.of_outside hclosed (fun p => FileTree.move_outside T hhere hb) fun hroot rooted moves => ?_
  by_cases hsame : b <+: root
  · have hroot : root = b ++ [] := by rw [append_nil, hsame.eq_of_length_le hb.length_le]
    rw [hroot, PathTree.move_target, append_nil]
    exact hlink rooted moves
  · by_cases hgone : here <+: root
    · have hroot : root = here ++ [] := by rw [append_nil, hgone.eq_of_length_le hhere.length_le]
      rw [hroot] at hsame ⊢
      rw [PathTree.move_source _ hsame]
      nofun
    · rw [PathTree.move_other hgone hsame]
      exact h.free root prefix_rfl hroot rooted moves

end SafeTree

/-! ## Making directories -/

/-- What is touched is at its own path, at or below the root. -/
def Reached (root : Path) (touched : List DriveTouch) : Prop :=
  ∀ t ∈ touched, t.place = t.path ∧ root <+: t.path

theorem reached_nil : Reached root [] := fun _ h => absurd h not_mem_nil

theorem reached_singleton {here : Path} (kind : TouchKind) (hplace : here = path) (h : root <+: path) :
    Reached root [⟨kind, path, here⟩] := fun t ht => by
  rw [mem_singleton.mp ht]
  exact ⟨hplace, h⟩

theorem ne_nil_of_node {here : Path} (h : fs.node here = none) : here ≠ [] := fun hnil => by
  rw [hnil] at h
  cases h

/-- A directory is made at its own path. -/
theorem createDir_safe {fs' : Files Text} {here : Path} (h : SafeTree root fs.tree)
    (hfree : NoLinks fs.tree path) (hbelow : root <+: path)
    (hcreate : fs.createDir path = .ok (here, fs')) :
    SafeTree root fs'.tree ∧ (∀ p, NoLinks fs.tree p → NoLinks fs'.tree p) ∧ here = path := by
  obtain ⟨hfind, hnode, rfl⟩ := Files.createDir_ok hcreate
  obtain rfl := place_eq hfree hfind
  have hne := ne_nil_of_node hnode
  rw [Files.node_of_ne_nil hne] at hnode
  refine ⟨h.add hbelow hne hfind hnode nofun, fun p hp q hq hqne rooted moves => ?_, rfl⟩
  show fs.tree.set here (some .dir) q ≠ _
  by_cases heq : q = here
  · rw [heq, PathTree.set_eq]
    nofun
  · rw [PathTree.set_ne _ heq]
    exact hp q hq hqne rooted moves

theorem createDirAll_safe {names : List Text} (h : SafeTree root fs.tree)
    (hfree : NoLinks fs.tree names.reverse) (hbelow : root <+: names.reverse) :
    SafeTree root (createDirAll fs names).1.tree ∧
      (∀ p, NoLinks fs.tree p → NoLinks (createDirAll fs names).1.tree p) ∧
      Reached root (createDirAll fs names).2.1 := by
  induction names with
  | nil => exact ⟨h, fun _ hp => hp, reached_nil⟩
  | cons name parents ih =>
    rw [createDirAll]
    dsimp only
    split
    · rename_i here fs' hcreate
      obtain ⟨htree, hkept, hplace⟩ := createDir_safe h hfree hbelow hcreate
      exact ⟨htree, hkept, reached_singleton .creates hplace hbelow⟩
    · rename_i hcreate
      rw [reverse_cons] at *
      -- The parent of the root is there, so the path is not the root.
      have hroot : root ≠ parents.reverse ++ [name] := by
        rintro rfl
        have hreal := h.real
        rw [dropLast_concat] at hreal
        exact Files.find_of_createDir hcreate (find_child hreal name)
      have hparents : root <+: parents.reverse :=
        (prefix_concat_iff.mp hbelow).resolve_left hroot
      obtain ⟨htree, hkept, hreached⟩ := ih (hfree.of_prefix (prefix_append _ _)) hparents
      split
      · split
        · rename_i here fs'' hcreate'
          obtain ⟨htree', hkept', hplace⟩ := createDir_safe htree (hkept _ hfree) hbelow hcreate'
          refine ⟨htree', fun p hp => hkept' p (hkept p hp), ?_⟩
          exact forall_mem_append.mpr ⟨hreached, reached_singleton .creates hplace hbelow⟩
        · exact ⟨htree, hkept, hreached⟩
      · exact ⟨htree, hkept, hreached⟩
    · exact ⟨h, fun _ hp => hp, reached_nil⟩

/-! ## One request -/

structure SafeHandle (root : Path) (handle : OpenedHandle) : Prop where
  path : root <+: handle.path
  file : ∀ file, handle.kind = .file file → root <+: file.place
  entries : ∀ cursor, handle.kind = .directory cursor → ∀ entry ∈ cursor.entries, root <+: entry

structure Safe (d : Drive) : Prop where
  tree : SafeTree d.root d.files.tree
  handles : ∀ p ∈ d.handles, SafeHandle d.root p.2

structure Sound (d : Drive) (out : Outcome) : Prop where
  root : out.drive.root = d.root
  safe : Safe out.drive
  touched : Reached d.root out.touched

variable {fileId : ℕ}

theorem mem_of_lookup {α : Type} {entries : List (ℕ × α)} {a : α}
    (h : entries.lookup fileId = some a) : (fileId, a) ∈ entries := by
  obtain ⟨before, after, rfl, -⟩ := List.lookup_eq_some_iff.mp h
  exact mem_append_right _ mem_cons_self

variable {touched : List DriveTouch}

/-- A directory that is listed, and what is in it. -/
theorem listDirectory_safe (h : SafeTree root fs.tree) {dir : Path} {entries : List Path}
    (hlist : listDirectory fs root dir = some (entries, touched)) :
    Reached root touched ∧ ∀ entry ∈ entries, validateConfinedPath fs root entry = true := by
  unfold listDirectory at hlist
  split at hlist
  · cases hlist
  · rename_i hvalid
    rw [Bool.not_eq_true', Bool.not_eq_false] at hvalid
    obtain ⟨hfree, hbelow⟩ := noLinks_of_validate h hvalid
    split at hlist
    · cases hlist
    · rename_i here names hread
      obtain ⟨rfl, rfl⟩ := Prod.mk.inj (Option.some.inj hlist)
      have hplace := place_eq hfree (Files.metadata_ok (Files.readDir_ok hread)).1
      refine ⟨reached_singleton .lists hplace hbelow, fun entry hentry => ?_⟩
      · exact (mem_filter.mp (List.mem_mergeSort.mp hentry)).2

theorem queryEntries_safe (h : SafeTree root fs.tree) {base : Path} {query : Text} {entries : List Path}
    (hquery : queryEntries fs root base query = some (entries, touched)) :
    Reached root touched ∧ ∀ entry ∈ entries, validateConfinedPath fs root entry = true := by
  unfold queryEntries at hquery
  dsimp only at hquery
  split at hquery
  · exact listDirectory_safe h hquery
  · split at hquery
    · obtain ⟨dir, -, hquery⟩ := Option.bind_eq_some_iff.mp hquery
      split at hquery
      · cases hquery
      · obtain ⟨⟨listed, reads⟩, hlist, hquery⟩ := Option.bind_eq_some_iff.mp hquery
        obtain ⟨hreached, hentries⟩ := listDirectory_safe h hlist
        dsimp only at hquery
        split at hquery
        · obtain ⟨rfl, rfl⟩ := Prod.mk.inj (Option.some.inj hquery)
          exact ⟨hreached, hentries⟩
        · obtain ⟨rfl, rfl⟩ := Prod.mk.inj (Option.some.inj hquery)
          exact ⟨hreached, fun entry hentry => hentries entry (mem_filter.mp hentry).1⟩
    · obtain ⟨path, -, hquery⟩ := Option.bind_eq_some_iff.mp hquery
      split at hquery
      · cases hquery
      · rename_i hvalid
        rw [Bool.not_eq_true', Bool.not_eq_false] at hvalid
        obtain ⟨rfl, rfl⟩ := Prod.mk.inj (Option.some.inj hquery)
        refine ⟨reached_nil, fun entry hentry => ?_⟩
        split at hentry
        · rw [mem_singleton.mp hentry]
          exact hvalid
        · cases hentry

namespace Drive

variable {d : Drive}

theorem sound_same (h : Safe d) (ht : Reached d.root touched)
    (response : Response) : Sound d ⟨d, touched, response⟩ := ⟨rfl, h, ht⟩

theorem sound_fail (h : Safe d) (response : Response) : Sound d (d.fail response) :=
  sound_same h reached_nil response

variable {files : Files Text}

theorem sound_files (h : Safe d) (htree : SafeTree d.root files.tree)
    (ht : Reached d.root touched) (response : Response) :
    Sound d ⟨{ d with files }, touched, response⟩ := ⟨rfl, ⟨htree, h.handles⟩, ht⟩

theorem safe_insert (h : Safe d) {handle : OpenedHandle} (hhandle : SafeHandle d.root handle) :
    Safe (d.insert fileId handle) := ⟨h.tree, forall_mem_cons.mpr ⟨hhandle, h.handles⟩⟩

theorem safe_newFileId (h : Safe d) : Safe d.newFileId.2 := ⟨h.tree, h.handles⟩

theorem sound_openDirectory (h : Safe d) {path : Path} (hfree : NoLinks d.files.tree path)
    (hbelow : d.root <+: path) (req : CreateRequest) (fileId : ℕ) :
    Sound d (d.openDirectory req path fileId) := by
  unfold openDirectory
  split
  · exact sound_fail h _
  split
  · exact sound_fail h _
  generalize hmade : (if d.files.isThere path then (d.files, [], true)
    else createDirAll d.files path.reverse) = made
  have hmade : SafeTree d.root made.1.tree ∧ NoLinks made.1.tree path ∧ Reached d.root made.2.1 := by
    rw [← hmade]
    split
    · exact ⟨h.tree, hfree, reached_nil⟩
    · rw [← reverse_reverse path] at hfree hbelow
      obtain ⟨htree, hkept, hreached⟩ := createDirAll_safe h.tree hfree hbelow
      rw [reverse_reverse] at hfree
      exact ⟨htree, hkept path hfree, hreached⟩
  obtain ⟨files, touched, created⟩ := made
  obtain ⟨htree, hfree', hreached⟩ := hmade
  dsimp only
  split
  · exact sound_files h htree hreached _
  split
  · exact sound_files h htree hreached _
  split
  · rename_i here hmeta
    have hplace := place_eq hfree' (Files.metadata_ok hmeta).1
    refine ⟨rfl, ⟨htree, forall_mem_cons.mpr ⟨⟨hbelow, nofun, fun cursor hkind => ?_⟩, h.handles⟩⟩,
      forall_mem_append.mpr ⟨hreached, reached_singleton .reads hplace hbelow⟩⟩
    rw [← OpenedHandleKind.directory.inj hkind]
    exact fun _ hentry => absurd hentry not_mem_nil
  · exact sound_files h htree hreached _

theorem sound_openFile (h : Safe d) {path : Path} (hfree : NoLinks d.files.tree path)
    (hbelow : d.root <+: path) (req : CreateRequest) (fileId : ℕ) :
    Sound d (d.openFile req path fileId) := by
  unfold openFile
  dsimp only
  split
  · exact sound_fail h _
  · rename_i opened hopen
    obtain ⟨hfind, hopen⟩ := Files.openFile_ok hopen
    have hplace := place_eq hfree hfind
    have htree : SafeTree d.root opened.files.tree := by
      rcases (Files.openAt_ok hopen).2 with ⟨htree, -⟩ | ⟨id, htree, hnode, -⟩
      · rw [htree]
        exact h.tree
      · have hne := ne_nil_of_node hnode
        rw [Files.node_of_ne_nil hne] at hnode
        rw [htree]
        exact h.tree.add (hplace ▸ hbelow) hne hfind hnode nofun
    have hreached (kind : TouchKind) : Reached d.root [⟨kind, path, opened.here⟩] :=
      reached_singleton kind hplace hbelow
    split
    · exact sound_files h htree (hreached _) _
    · refine ⟨rfl, ⟨htree, forall_mem_cons.mpr ⟨⟨hbelow, fun file hkind => ?_, nofun⟩, h.handles⟩⟩,
        hreached _⟩
      rw [← OpenedHandleKind.file.inj hkind]
      exact hplace ▸ hbelow

theorem sound_handleCreate (h : Safe d) (req : CreateRequest) : Sound d (d.handleCreate req) := by
  unfold handleCreate
  split
  · exact sound_fail h _
  split
  · exact sound_fail h _
  rename_i path hjoin hvalid
  rw [Bool.not_eq_true', Bool.not_eq_false] at hvalid
  obtain ⟨hfree, hbelow⟩ := noLinks_of_validate h.tree hvalid
  have h' := safe_newFileId h
  have hroot (out : Outcome) (hsound : Sound d.newFileId.2 out) : Sound d out :=
    ⟨hsound.root, hsound.safe, hsound.touched⟩
  dsimp only
  split
  · exact hroot _ (sound_fail h' _)
  split
  · exact hroot _ (sound_fail h' _)
  split
  · exact hroot _ (sound_openDirectory h' hfree hbelow req _)
  split
  · exact hroot _ (sound_fail h' _)
  · exact hroot _ (sound_openFile h' hfree hbelow req _)

theorem sound_handleRead (h : Safe d) (fileId offset length : ℕ) :
    Sound d (d.handleRead fileId offset length) := by
  unfold handleRead
  split
  · exact sound_fail h _
  · exact sound_fail h _
  · rename_i path file hlookup
    have hplace := (h.handles _ (mem_of_lookup hlookup)).file file rfl
    split
    · exact sound_same h (reached_singleton .reads rfl hplace) _
    · exact sound_fail h _

theorem sound_handleWrite (h : Safe d) (fileId offset : ℕ) (bytes : List UInt8) :
    Sound d (d.handleWrite fileId offset bytes) := by
  unfold handleWrite
  split
  · exact sound_fail h _
  split
  · exact sound_fail h _
  · exact sound_fail h _
  · rename_i path file hlookup
    have hplace := (h.handles _ (mem_of_lookup hlookup)).file file rfl
    split
    · exact ⟨rfl, ⟨h.tree, h.handles⟩, reached_singleton .changes rfl hplace⟩
    · exact sound_fail h _

theorem sound_handleQueryInformation (h : Safe d) (fileId : ℕ) (level : InfoClass) :
    Sound d (d.handleQueryInformation fileId level) := by
  unfold handleQueryInformation
  split
  · exact sound_fail h _
  · rename_i handle hlookup
    split
    · exact sound_fail h _
    · rename_i hvalid
      rw [Bool.not_eq_true', Bool.not_eq_false] at hvalid
      obtain ⟨hfree, hbelow⟩ := noLinks_of_validate h.tree hvalid
      split
      · exact sound_fail h _
      · rename_i here node hmeta
        have hplace := place_eq hfree (Files.metadata_ok hmeta).1
        exact sound_same h (reached_singleton .reads hplace hbelow) _

theorem sound_nextEntry (h : Safe d) {path : Path} {cursor : DirectoryCursor}
    (hpath : d.root <+: path) (hentries : ∀ e ∈ cursor.entries, d.root <+: e)
    (ht : Reached d.root touched) (hvalid : ∀ entry, cursor.entries[cursor.index]? = some entry →
      validateConfinedPath d.files d.root entry = true) (initialQuery : Bool) (level : DirClass) :
    Sound d (d.nextEntry fileId path cursor touched initialQuery level) := by
  have hhandle (index : ℕ) : SafeHandle d.root ⟨path, .directory { cursor with index }⟩ := by
    refine ⟨hpath, nofun, fun cursor' hkind => ?_⟩
    rw [← OpenedHandleKind.directory.inj hkind]
    exact hentries
  unfold nextEntry
  split
  · exact ⟨rfl, safe_insert h (hhandle cursor.index), ht⟩
  · rename_i entry hentry
    obtain ⟨hfree, hbelow⟩ := noLinks_of_validate h.tree (hvalid entry hentry)
    dsimp only
    split
    · exact ⟨rfl, safe_insert h (hhandle _), ht⟩
    · rename_i here node hmeta
      have hplace := place_eq hfree (Files.metadata_ok hmeta).1
      exact ⟨rfl, safe_insert h (hhandle _),
        forall_mem_append.mpr ⟨ht, reached_singleton .reads hplace hbelow⟩⟩

/-- The paths that a request takes from a handle without a look at them have no links. -/
def HandlesChecked (d : Drive) : Request → Prop
  | .queryDirectory fileId false _ _ => ∀ path cursor entry,
      d.handles.lookup fileId = some ⟨path, .directory cursor⟩ →
      cursor.entries[cursor.index]? = some entry → validateConfinedPath d.files d.root entry = true
  | .setInformation fileId (.disposition true) => ∀ handle, d.readOnly = false →
      d.handles.lookup fileId = some handle → validateConfinedPath d.files d.root handle.path = true
  | .setInformation fileId (.rename _) => ∀ handle, d.readOnly = false →
      d.handles.lookup fileId = some handle → validateConfinedPath d.files d.root handle.path = true
  | _ => True

theorem sound_handleQueryDirectory (h : Safe d) (fileId : ℕ) (initialQuery : Bool) (query : Text)
    (level : DirClass) (hchecked : d.HandlesChecked (.queryDirectory fileId initialQuery query level)) :
    Sound d (d.handleQueryDirectory fileId initialQuery query level) := by
  unfold handleQueryDirectory
  split
  · exact sound_fail h _
  · exact sound_fail h _
  · rename_i path cursor hlookup
    have hhandle := h.handles _ (mem_of_lookup hlookup)
    split
    · split
      · exact sound_fail h _
      · rename_i entries touched hquery
        obtain ⟨hreached, hvalid⟩ := queryEntries_safe h.tree hquery
        refine sound_nextEntry h hhandle.path (fun e he => ?_) hreached (fun e he => ?_) _ _
        · exact (noLinks_of_validate h.tree (hvalid e he)).2
        · exact hvalid e (mem_of_getElem? he)
    · rename_i hinitial
      rw [Bool.not_eq_true] at hinitial
      subst hinitial
      exact sound_nextEntry h hhandle.path (hhandle.entries cursor rfl) reached_nil
        (fun entry hentry => hchecked path cursor entry hlookup hentry) _ _

/-- What is deleted by a path without links is at its path. -/
theorem delete_safe (h : SafeTree root fs.tree) (hfree : NoLinks fs.tree path) (hbelow : root <+: path)
    {here : Path}
    (hdelete : (if fs.isDir path then fs.removeDir path else fs.removeFile path) = .ok (here, files)) :
    SafeTree root files.tree ∧ here = path := by
  split at hdelete
  · obtain ⟨hfind, rfl, hempty⟩ := Files.removeDir_ok hdelete
    obtain rfl := place_eq hfree hfind
    exact ⟨h.remove hbelow (Files.none_of_isEmptyDir hempty), rfl⟩
  · obtain ⟨hfind, rfl, node, hnode, hdir⟩ := Files.removeFile_ok hdelete
    obtain rfl := place_eq hfree hfind
    have hne : here ≠ [] := fun hnil => by
      rw [hnil] at hnode
      exact hdir (Option.some.inj hnode).symm
    rw [Files.node_of_ne_nil hne] at hnode
    refine ⟨h.remove hbelow fun name => h.closed.none_of_not_dir hne name ?_, rfl⟩
    rw [hnode]
    exact fun heq => hdir (Option.some.inj heq)

/-- What is renamed is at its path, before and after. -/
theorem rename_safe (h : SafeTree root fs.tree) {target a b : Path} (hfree : NoLinks fs.tree path)
    (hbelow : root <+: path) (hfree' : NoLinks fs.tree target) (hbelow' : root <+: target)
    (hrename : fs.rename path target = .ok (a, b, files)) :
    SafeTree root files.tree ∧ a = path ∧ b = target := by
  obtain ⟨hsource, htarget, hfiles⟩ := Files.rename_ok hrename
  obtain rfl := place_eq hfree hsource
  obtain rfl := place_eq hfree' htarget
  refine ⟨?_, rfl, rfl⟩
  rcases hfiles with rfl | ⟨rfl, hnot, hbne, -⟩
  · exact h
  · have hne : a ≠ [] := fun hnil => hnot (hnil ▸ nil_prefix)
    exact h.move hbelow hbelow' htarget hnot hbne hne (hfree a prefix_rfl hne)

theorem sound_setInformation (h : Safe d) {handle : OpenedHandle} {buffer : SetBuffer}
    (hwritable : d.readOnly = false) (hlookup : d.handles.lookup fileId = some handle)
    (hchecked : d.HandlesChecked (.setInformation fileId buffer)) :
    Sound d (d.setInformation fileId handle buffer) := by
  have hhandle := h.handles _ (mem_of_lookup hlookup)
  cases buffer with
  | disposition deletePending =>
    cases deletePending with
    | false => exact sound_fail h _
    | true =>
      obtain ⟨hfree, hbelow⟩ := noLinks_of_validate h.tree (hchecked handle hwritable hlookup)
      rw [setInformation]
      split
      · exact sound_fail h _
      · rename_i here files hdelete
        obtain ⟨htree, hplace⟩ := delete_safe h.tree hfree hbelow hdelete
        exact sound_files h htree (reached_singleton .removes hplace hbelow) _
  | rename fileName =>
    obtain ⟨hfree, hbelow⟩ := noLinks_of_validate h.tree (hchecked handle hwritable hlookup)
    rw [setInformation]
    split
    · exact sound_fail h _
    · rename_i target hjoin
      split
      · exact sound_fail h _
      · rename_i hvalid
        rw [Bool.not_eq_true', Bool.not_eq_false] at hvalid
        obtain ⟨hfree', hbelow'⟩ := noLinks_of_validate h.tree hvalid
        split
        · exact sound_fail h _
        · rename_i a b files hrename
          obtain ⟨htree, ha, hb⟩ := rename_safe h.tree hfree hbelow hfree' hbelow' hrename
          have hmoved : SafeHandle d.root { handle with path := target } :=
            ⟨hbelow', hhandle.file, hhandle.entries⟩
          exact ⟨rfl, ⟨htree, forall_mem_cons.mpr ⟨hmoved, h.handles⟩⟩,
            forall_mem_cons.mpr ⟨⟨ha, hbelow⟩, reached_singleton .creates hb hbelow'⟩⟩
  | endOfFile endOfFile =>
    rw [setInformation]
    split
    · exact sound_fail h _
    · rename_i file hkind
      split
      · exact sound_fail h _
      · split
        · refine sound_files h ?_ (reached_singleton .changes rfl (hhandle.file file hkind)) _
          exact h.tree
        · exact sound_fail h _
  | allocation => exact sound_fail h _
  | basic => exact sound_fail h _
  | other => exact sound_fail h _

theorem sound_handle (h : Safe d) {request : Request} (hchecked : d.HandlesChecked request) :
    Sound d (d.handle request) := by
  cases request with
  | create req => exact sound_handleCreate h req
  | read fileId offset length => exact sound_handleRead h fileId offset length
  | write fileId offset bytes => exact sound_handleWrite h fileId offset bytes
  | close fileId =>
    exact ⟨rfl, ⟨h.tree, fun p hp => h.handles p (mem_of_mem_filter hp)⟩, reached_nil⟩
  | queryInformation fileId level => exact sound_handleQueryInformation h fileId level
  | queryDirectory fileId initialQuery path level =>
    exact sound_handleQueryDirectory h fileId initialQuery path level hchecked
  | setInformation fileId buffer =>
    show Sound d (d.handleSetInformation fileId buffer)
    unfold handleSetInformation
    split
    · exact sound_fail h _
    · rename_i hwritable
      split
      · exact sound_fail h _
      · rename_i handle hlookup
        exact sound_setInformation h (Bool.eq_false_iff.mpr hwritable) hlookup hchecked

/-! ## Reading only -/

theorem openAt_reading {fs : Files Text} {o : OpenOptions} {here : Path} {opened : Files.Opened Text}
    (htruncate : o.truncate = false) (hcreate : (o.create || o.createNew) = false)
    (h : fs.openAt o here = .ok opened) : opened.files = fs := by
  unfold Files.openAt at h
  rw [htruncate, hcreate] at h
  split at h
  · split at h
    · cases h
    · split at h
      · cases h
      · rw [← Except.ok.inj h]
  · split at h
    · cases h
    · rw [if_neg Bool.false_ne_true] at h
      rw [← Except.ok.inj h]
  · cases h
  · rw [if_neg Bool.false_ne_true] at h
    cases h

/-- A request leaves the files and the mode as they are. -/
def Kept (d : Drive) (out : Outcome) : Prop :=
  out.drive.files = d.files ∧ out.drive.readOnly = d.readOnly

theorem kept_openDirectory {req : CreateRequest} (hopen : req.createDisposition = .open) (path : Path)
    (fileId : ℕ) : Kept d (d.openDirectory req path fileId) := by
  unfold openDirectory
  rw [hopen]
  split
  · exact ⟨rfl, rfl⟩
  split
  · exact ⟨rfl, rfl⟩
  rename_i hthere
  have hthere : d.files.isThere path = true := by
    cases hcase : d.files.isThere path with
    | true => rfl
    | false =>
      rw [hcase] at hthere
      exact absurd rfl hthere
  rw [if_pos hthere, hthere]
  dsimp only
  split
  · exact ⟨rfl, rfl⟩
  split
  · exact ⟨rfl, rfl⟩
  split
  · exact ⟨rfl, rfl⟩
  · exact ⟨rfl, rfl⟩

theorem kept_openFile {req : CreateRequest} (hopen : req.createDisposition = .open) (path : Path)
    (fileId : ℕ) : Kept d (d.openFile req path fileId) := by
  have hoptions : (openOptions req).truncate = false ∧
      ((openOptions req).create || (openOptions req).createNew) = false := by
    unfold openOptions
    rw [hopen]
    exact ⟨rfl, rfl⟩
  unfold openFile
  dsimp only
  split
  · exact ⟨rfl, rfl⟩
  · rename_i opened hresult
    have hfiles := openAt_reading hoptions.1 hoptions.2 (Files.openFile_ok hresult).2
    split
    · exact ⟨hfiles, rfl⟩
    · exact ⟨hfiles, rfl⟩

theorem kept_handleCreate (hreadOnly : d.readOnly = true) (req : CreateRequest) :
    Kept d (d.handleCreate req) := by
  unfold handleCreate
  split
  · exact ⟨rfl, rfl⟩
  split
  · exact ⟨rfl, rfl⟩
  dsimp only
  split
  · exact ⟨rfl, rfl⟩
  rename_i hmutating
  have hopen : req.createDisposition = .open := by
    have hmode : d.newFileId.2.readOnly = true := hreadOnly
    rw [hmode, Bool.true_and, Bool.or_eq_true, not_or, decide_eq_true_eq, ne_eq, not_not] at hmutating
    exact hmutating.2
  split
  · exact ⟨rfl, rfl⟩
  split
  · obtain ⟨hfiles, hmode⟩ := @kept_openDirectory d.newFileId.2 req hopen _ _
    exact ⟨hfiles, hmode⟩
  split
  · exact ⟨rfl, rfl⟩
  · obtain ⟨hfiles, hmode⟩ := @kept_openFile d.newFileId.2 req hopen _ _
    exact ⟨hfiles, hmode⟩

theorem kept_nextEntry (fileId : ℕ) (path : Path) (cursor : DirectoryCursor) (touched : List DriveTouch)
    (initialQuery : Bool) (level : DirClass) :
    Kept d (d.nextEntry fileId path cursor touched initialQuery level) := by
  unfold nextEntry
  split
  · exact ⟨rfl, rfl⟩
  · dsimp only
    split
    · exact ⟨rfl, rfl⟩
    · exact ⟨rfl, rfl⟩

/-- A drive that is read only stays as it is. -/
theorem kept_handle (hreadOnly : d.readOnly = true) (request : Request) : Kept d (d.handle request) := by
  cases request with
  | create req => exact kept_handleCreate hreadOnly req
  | read fileId offset length =>
    show Kept d (d.handleRead fileId offset length)
    unfold handleRead
    split
    · exact ⟨rfl, rfl⟩
    · exact ⟨rfl, rfl⟩
    · split
      · exact ⟨rfl, rfl⟩
      · exact ⟨rfl, rfl⟩
  | write fileId offset bytes =>
    show Kept d (d.handleWrite fileId offset bytes)
    unfold handleWrite
    rw [hreadOnly, Bool.true_or, Bool.true_or, Bool.true_or, if_pos rfl]
    exact ⟨rfl, rfl⟩
  | close fileId => exact ⟨rfl, rfl⟩
  | queryInformation fileId level =>
    show Kept d (d.handleQueryInformation fileId level)
    unfold handleQueryInformation
    split
    · exact ⟨rfl, rfl⟩
    · split
      · exact ⟨rfl, rfl⟩
      · split
        · exact ⟨rfl, rfl⟩
        · exact ⟨rfl, rfl⟩
  | queryDirectory fileId initialQuery path level =>
    show Kept d (d.handleQueryDirectory fileId initialQuery path level)
    unfold handleQueryDirectory
    split
    · exact ⟨rfl, rfl⟩
    · exact ⟨rfl, rfl⟩
    · split
      · split
        · exact ⟨rfl, rfl⟩
        · exact kept_nextEntry ..
      · exact kept_nextEntry ..
  | setInformation fileId buffer =>
    show Kept d (d.handleSetInformation fileId buffer)
    unfold handleSetInformation
    rw [if_pos hreadOnly]
    exact ⟨rfl, rfl⟩

end Drive

/-! ## Runs -/

/-- A folder `m` with directories `a` and `b`. A file is below `a/s`, and `b/s` is a link out of it. -/
def mapped : Drive where
  root := [['m']]
  label := ['m']
  nextFileId := 1
  handles := []
  readOnly := false
  writtenBytes := 0
  files := .ofEntries
    [([['m']], .dir), ([['m'], ['a']], .dir), ([['m'], ['a'], ['s']], .dir),
      ([['m'], ['a'], ['s'], ['f']], .file 0), ([['m'], ['b']], .dir),
      ([['m'], ['b'], ['s']], .link true [.enter ['o']]), ([['o']], .dir), ([['o'], ['f']], .file 1)] 2

/-- An open of what is there, for reading. -/
def opens (path : Text) : Request :=
  .create ⟨path, ⟨false, false, false, false, false, false, false⟩, .open, false, false, 0⟩

theorem mapped_real : RealDir mapped.files.tree mapped.root := by
  intro p hp hne
  have hroot : p = [['m']] := by
    rcases prefix_cons_iff.mp hp with rfl | ⟨rest, rfl, hrest⟩
    · exact absurd rfl hne
    · rw [prefix_nil.mp hrest]
  rw [hroot]
  decide

theorem mapped_closed : Closed mapped.files.tree := FileTree.closed_ofEntries (by decide)

end Taomni.Rdpdr
