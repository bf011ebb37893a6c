import Taomni.Backup.RestorePaths
import Taomni.Common.Interruptible

/-!
# Applying a staged restore

`apply_pending_restore` as a program of filesystem steps, each of which may do its work, fail, or be
where the process ends. A copy that fails or is cut off leaves anything behind at its destination, a
recursive removal has removed any part, and SQLite has changed its files in any way; renames,
single removals and `write_json` happen or do not.

Reference: `src-tauri/src/backup/restore.rs`, `RestoreJournal` to `apply_pending_restore`;
`file_sha256` of `src-tauri/src/backup/manifest.rs`.
-/

namespace Taomni.Backup

/-! ## The disk -/

structure BackupFileEntry where
  path : Text
  sha256 : Text
  sizeBytes : ℕ
deriving DecidableEq

structure BackupManifest where
  formatVersion : ℕ
  appName : Text
  files : List BackupFileEntry
deriving DecidableEq

structure RestoreIntent where
  manifest : BackupManifest
deriving DecidableEq

structure RollbackEntry where
  path : Path
  saved : Path
  existed : Bool
deriving DecidableEq

structure RestoreJournal where
  entries : List RollbackEntry
  committed : Bool
deriving DecidableEq

/-- What a file holds; the JSON files of the restore hold their values. -/
inductive Content where
  | bytes (data : List UInt8)
  | intent (value : RestoreIntent)
  | journal (value : RestoreJournal)
  | generation (uuid : Text)
deriving DecidableEq

abbrev Files := Path → Option Content

/-- The files with another content at a path. -/
def Files.set (files : Files) (path : Path) (content : Option Content) : Files :=
  fun p => if p = path then content else files p

structure Disk where
  files : Files
  dirs : Path → Bool

/-- What a step that is not done leaves of the files in its reach. -/
abbrev Left := List (Path × Option Content)

/-- What becomes of one filesystem step. -/
inductive Fate where
  | done
  | failed (error : Text) (left : Left)
  | stopped (left : Left)

/-- A choice also has the identifier that the step draws, if it draws one. -/
structure Choice where
  fate : Fate
  uuid : Text

instance : Inhabited Choice := ⟨.done, []⟩

namespace Disk

/-- `Path::exists`. -/
def exists? (disk : Disk) (path : Path) : Bool := (disk.files path).isSome || disk.dirs path

def put (disk : Disk) (path : Path) (content : Option Content) : Disk :=
  { disk with files := disk.files.set path content }

/-- The files in reach of a step that is not done. -/
def disturb (reach : Path → Bool) (left : Left) (disk : Disk) : Disk :=
  { disk with files := fun p =>
      if reach p then ((left.find? (·.1 == p)).map Prod.snd).getD (disk.files p)
      else disk.files p }

end Disk

abbrev Restore := Program Choice Disk Text

/-- A step that reaches some files and, when it is done, changes the disk or finds an error. -/
def operation {α : Type} (reach : Path → Bool) (effect : Disk → Except Text (α × Disk)) :
    Restore α :=
  Program.step fun choice disk =>
    match choice.fate with
    | .done =>
        match effect disk with
        | .ok (a, disk') => (.ok a, disk')
        | .error e => (.failed e, disk)
    | .failed e left => (.failed e, disk.disturb reach left)
    | .stopped left => (.stopped, disk.disturb reach left)

/-- A step that changes none of the files. -/
def quietly {α : Type} (effect : Disk → Except Text (α × Disk)) : Restore α :=
  operation (fun _ => false) effect

def notFound : Text := "No such file or directory (os error 2)".toList

/-- A step of which nothing is modelled but that it may fail. -/
def probe : Restore Unit := quietly fun disk => .ok ((), disk)

def noSymlinkAncestors (_path : Path) : Restore Unit :=
  probe.mapError fun _ => "Restore destination contains a symlink".toList

def createDirAll (path : Path) : Restore Unit :=
  quietly fun disk => .ok ((), { disk with dirs := fun p => disk.dirs p || p.isPrefixOf path })

def readFile (path : Path) : Restore Content := quietly fun disk =>
  match disk.files path with
  | some content => .ok (content, disk)
  | none => .error notFound

def tryExists (path : Path) : Restore Bool := quietly fun disk => .ok (disk.exists? path, disk)

/-- `std::fs::copy`. -/
def copyFile (src dst : Path) : Restore Unit := operation (· == dst) fun disk =>
  match disk.files src with
  | some content => .ok ((), disk.put dst (some content))
  | none => .error notFound

def removeFile (path : Path) : Restore Unit := quietly fun disk =>
  if (disk.files path).isSome then .ok ((), disk.put path none) else .error notFound

def removeDirAll (path : Path) : Restore Unit := operation (path.isPrefixOf ·) fun disk =>
  if disk.dirs path then
    .ok ((), {
      files := fun p => if path.isPrefixOf p then none else disk.files p
      dirs := fun p => disk.dirs p && !path.isPrefixOf p })
  else .error notFound

/-- `persist` of a temporary file that has been written, which replaces the file at once. -/
def persist (content : Content) (dst : Path) : Restore Unit :=
  quietly fun disk => .ok ((), disk.put dst (some content))

/-- `control::write_json`. -/
def writeJson (path : Path) (content : Content) : Restore Unit := persist content path

/-- `uuid::Uuid::new_v4`. -/
def newUuid : Restore Text := Program.step fun choice disk =>
  match choice.fate with
  | .stopped _ => (.stopped, disk)
  | _ => (.ok choice.uuid, disk)

/-! ## What the restore uses -/

/-- The files SQLite works on. -/
structure Database where
  main : Option Content
  wal : Option Content
  shm : Option Content
  rollback : Option Content

namespace Database

def paths (path : Path) : List Path :=
  [path, withSuffix "-wal" path, withSuffix "-shm" path, withSuffix "-journal" path]

def load (files : Files) (path : Path) : Database where
  main := files path
  wal := files (withSuffix "-wal" path)
  shm := files (withSuffix "-shm" path)
  rollback := files (withSuffix "-journal" path)

def store (db : Database) (files : Files) (path : Path) : Files :=
  (((files.set path db.main).set (withSuffix "-wal" path) db.wal).set (withSuffix "-shm" path)
    db.shm).set (withSuffix "-journal" path) db.rollback

end Database

/-- Where the profile is, the hash and the size of a file, and `portable_mail_paths` on a database
that is opened and closed. -/
structure Env where
  appData : Path
  configDir : Option Path
  sha256 : Content → Text
  size : Content → ℕ
  portableMailPaths : Database → Except Text Database
  config_apart : ConfigApart appData configDir

/-! ## `apply_pending_restore` -/

/-- The temporary file has a name of its own and is not among the files. -/
def replaceFile (src dst : Path) : Restore Unit := do
  noSymlinkAncestors dst
  match parent? dst with
  | none => Program.fail "Invalid restore destination".toList
  | some parent =>
    createDirAll parent
    probe
    let content ← readFile src
    probe
    persist content dst

def rollbackEntry (entry : RollbackEntry) : Restore Unit := do
  if entry.existed then replaceFile entry.saved entry.path
  else if ← Program.look (·.exists? entry.path) then removeFile entry.path

def rollback (journal : RestoreJournal) : Restore Unit :=
  Program.forEach rollbackEntry journal.entries

def isMailCacheDatabase (appData path : Path) : Bool :=
  parent? path == some (appData ++ ["mail-cache".toList]) && extension path == some "db".toList

/-- `ProcessLock::access` and `ProcessLock::try_at` on every mailbox. -/
def lockMailRestore (appData : Path) (paths : List Path) : Restore Unit :=
  Program.forEach (fun _ => do
    probe
    probe) (paths.filter (isMailCacheDatabase appData)).dedup

variable (env : Env)

/-- What the safety copy of one path puts into the journal. -/
def saveCopy (safety : Path) (entries : List RollbackEntry) (path : Path) :
    Restore (List RollbackEntry) := do
  noSymlinkAncestors path
  let saved := safety ++ [Nat.toDigits 10 entries.length]
  let existed ← tryExists path
  if existed then
    (copyFile path saved).mapError fun e => "Cannot save restore rollback copy: ".toList ++ e
    probe
  pure (entries ++ [⟨path, saved, existed⟩])

/-- The first loop: checks the staged file and saves what the restore is going to change. -/
def saveEntry (safety : Path) (acc : List RollbackEntry × List (Path × Path))
    (entry : BackupFileEntry) : Restore (List RollbackEntry × List (Path × Path)) := do
  let src := pendingDir env.appData ++ entry.path.splitOn '/'
  let dst ← Program.lift (destination env.appData env.configDir entry.path)
  noSymlinkAncestors src
  noSymlinkAncestors dst
  let content ← readFile src
  if env.sha256 content ≠ entry.sha256 ∨ env.size content ≠ entry.sizeBytes then
    Program.fail "Staged restore data changed".toList
  else
    let entries ← Program.fold (saveCopy safety) acc.1 (journaledPaths entry.path dst)
    pure (entries, acc.2 ++ [(src, dst)])

def removeIfExists (path : Path) : Restore Unit := do
  if ← Program.look (·.exists? path) then removeFile path

def applyMapping (mapping : Path × Path) : Restore Unit := do
  replaceFile mapping.1 mapping.2
  if isMailCacheDatabase env.appData mapping.2 then
    removeIfExists (redirectPath mapping.2)
    let uuid ← newUuid
    writeJson (withExtension "generation" mapping.2) (.generation uuid)
  removeIfExists (withSuffix "-wal" mapping.2)
  removeIfExists (withSuffix "-shm" mapping.2)

def taomniDb : Path := env.appData ++ ["taomni.db".toList]

def portableMailPaths : Restore Unit :=
  operation (Database.paths (taomniDb env)).contains fun disk =>
    (env.portableMailPaths (.load disk.files (taomniDb env))).map fun db =>
      ((), { disk with files := db.store disk.files (taomniDb env) })

def applyMappings (mappings : List (Path × Path)) : Restore Unit := do
  Program.forEach (applyMapping env) mappings
  if mappings.any fun mapping => mapping.2 == taomniDb env then portableMailPaths env

/-- The copies kept for older tools. -/
def legacyCopies (entries : List RollbackEntry) : Restore Unit := do
  let legacy := backupsDir env.appData ++ ["pre_restore_safety_copy".toList]
  createDirAll legacy
  Program.forEach (fun entry =>
    if entry.existed && parent? entry.path == some env.appData then
      match entry.path.getLast? with
      | some name => copyFile entry.saved (legacy ++ [name])
      | none => pure ()
    else pure ()) entries

/-- The end of a restore that is committed. -/
def finish (entries : List RollbackEntry) : Restore Unit := do
  legacyCopies env entries
  removeFile (intentPath env.appData)
  removeDirAll (pendingDir env.appData)
  removeFile (journalPath env.appData)

/-- From the journal on. -/
def install (entries : List RollbackEntry) (mappings : List (Path × Path)) : Restore Unit := do
  writeJson (journalPath env.appData) (.journal ⟨entries, false⟩)
  match ← (applyMappings env mappings).attempt with
  | .error error => do
      (rollback ⟨entries, false⟩).mapError fun e =>
        "Restore failed (".toList ++ error ++ "); rollback also failed (".toList ++ e ++
          "); recovery files retained".toList
      Program.fail ("Restore failed and was rolled back: ".toList ++ error)
  | .ok () => do
      writeJson (journalPath env.appData) (.journal ⟨entries, true⟩)
      finish env entries

/-- A run that finds an intent. -/
def restoreStaged : Restore Unit := do
  match ← readFile (intentPath env.appData) with
  | .intent intent =>
      if intent.manifest.formatVersion ≠ 1 ∨ intent.manifest.appName ≠ "Taomni".toList then
        Program.fail "Unsupported restore intent".toList
      else
        let targets ← Program.lift (intent.manifest.files.mapM fun entry =>
          destination env.appData env.configDir entry.path)
        lockMailRestore env.appData targets
        let uuid ← newUuid
        let safety := backupsDir env.appData ++ ["restore-".toList ++ uuid]
        createDirAll safety
        let (entries, mappings) ←
          Program.fold (saveEntry env safety) ([], []) intent.manifest.files
        install env entries mappings
  | _ => Program.fail "Invalid restore intent".toList

/-- A run that finds a journal. -/
def recover : Restore Unit := do
  match ← readFile (journalPath env.appData) with
  | .journal journal =>
      lockMailRestore env.appData (journal.entries.map RollbackEntry.path)
      if !journal.committed then rollback journal
      removeIfExists (intentPath env.appData)
      removeFile (journalPath env.appData)
      if ← Program.look (·.exists? (pendingDir env.appData)) then
        removeDirAll (pendingDir env.appData)
  | _ => Program.fail "Invalid restore journal".toList

def applyPendingRestore : Restore Unit := do
  if ← Program.look (·.exists? (journalPath env.appData)) then recover env
  else if ← Program.look (·.exists? (intentPath env.appData)) then restoreStaged env
  else pure ()

end Taomni.Backup

/-!
# What the steps of a restore leave

Each step from files `F`: what it leaves when it is done, and that every way to break off keeps a
property `J` of the files that the writes of the step keep.
-/

namespace Taomni.Backup

variable {α : Type} {F : Files} {J : Files → Prop}

/-- From files `F` to what `post` says, or broken off with `J`. -/
def From (F : Files) (p : Restore α) (post : α → Files → Prop) (J : Files → Prop) : Prop :=
  Meets (fun disk => disk.files = F) p (.orElse (fun a disk => post a disk.files) fun disk =>
    J disk.files)

/-! ## Files -/

theorem Files.set_self (F : Files) (path : Path) : F.set path (F path) = F := by
  funext p
  unfold Files.set
  split
  · next h => rw [h]
  · rfl

@[simp] theorem Files.set_eq (F : Files) (path : Path) (content : Option Content) :
    F.set path content path = content := if_pos rfl

theorem Files.set_ne (F : Files) {path p : Path} (content : Option Content) (h : p ≠ path) :
    F.set path content p = F p := if_neg h

variable (path : Path)

theorem disturb_beq (left : Left) (disk : Disk) :
    ∃ content, (disk.disturb (· == path) left).files = disk.files.set path content := by
  refine ⟨((left.find? (·.1 == path)).map Prod.snd).getD (disk.files path), ?_⟩
  funext p
  show (if (p == path) = true then _ else _) = if p = path then _ else _
  by_cases h : p = path
  · rw [if_pos h, if_pos (beq_iff_eq.mpr h), h]
  · rw [if_neg h, if_neg (mt beq_iff_eq.mp h)]

variable {disk : Disk}

theorem disturb_of_not_reach {reach : Path → Bool} {left : Left} {p : Path}
    (h : reach p = false) : (disk.disturb reach left).files p = disk.files p := by
  show (if reach p = true then _ else _) = _
  rw [if_neg (Bool.eq_false_iff.mp h)]

/-! ## How programs are put together -/

namespace From

variable {p : Restore α} {post post' : α → Files → Prop}

theorem mono (h : From F p post J) (hpost : ∀ a G, post a G → post' a G) : From F p post' J :=
  Meets.weaken h (fun _ h => h) (fun _ _ h => hpost _ _ h) (fun _ _ h => h) fun _ h => h

theorem bind {β : Type} {f : α → Restore β} {post : β → Files → Prop} (mid : α → Files → Prop)
    (hp : From F p mid J) (hf : ∀ a G, mid a G → From G (f a) post J) : From F (p >>= f) post J :=
  Meets.bind (fun a disk => mid a disk.files) hp fun a choices disk hmid =>
    hf a disk.files hmid choices disk rfl

/-- The end of a run that comes to its end. -/
theorem ok (h : From F p post J) {choices : List Choice} (hdisk : disk.files = F)
    {a : α} (hok : (p choices disk).1 = .ok a) : post a (p choices disk).2.2.files := by
  have hrun := h choices disk hdisk
  rw [hok] at hrun
  exact hrun

/-- The end of any run. -/
theorem final {K : Files → Prop} (h : From F p post J) (choices : List Choice)
    (hdisk : disk.files = F) (hpost : ∀ a G, post a G → K G) (hJ : ∀ G, J G → K G) :
    K (p choices disk).2.2.files :=
  (h choices disk hdisk).elim (q := fun disk : Disk => K disk.files) (fun a => hpost a _)
    (fun _ => hJ _) (hJ _)

theorem pure {a : α} (h : post a F) : From F (Pure.pure a) post J :=
  Meets.pure fun disk hdisk => show post a disk.files from hdisk ▸ h

theorem fail {e : Text} (h : J F) : From F (Program.fail e : Restore α) post J :=
  Meets.fail fun disk hdisk => show J disk.files from hdisk ▸ h

theorem look {f : Disk → α} (h : ∀ disk, disk.files = F → post (f disk) F) :
    From F (Program.look f) post J :=
  Meets.look fun disk hdisk => show post (f disk) disk.files from hdisk ▸ h disk hdisk

theorem mapError {g : Text → Text} (h : From F p post J) : From F (p.mapError g) post J :=
  Meets.mapError h

/-- What a caught failure leaves. -/
def Caught (post : α → Files → Prop) (K : Files → Prop) : Except Text α → Files → Prop
  | .ok a => post a
  | .error _ => K

theorem attempt {K : Files → Prop} (h : From F p post K) (hKJ : ∀ G, K G → J G) :
    From F p.attempt (Caught post K) J :=
  Meets.attempt (Meets.weaken h (fun _ h => h) (fun _ _ h => h) (fun _ _ h => h)
    fun disk h => hKJ disk.files h)

theorem lift {x : Except Text α} (hJ : J F) (h : ∀ a, x = .ok a → post a F) :
    From F (Program.lift x) post J :=
  Meets.lift (fun a disk hx hdisk => show post a disk.files from hdisk ▸ h a hx)
    fun _ disk _ hdisk => show J disk.files from hdisk ▸ hJ

theorem forEach {γ : Type} {f : γ → Restore Unit} {cs : List γ} {post : Unit → Files → Prop}
    (inv : List γ → Files → Prop) (hstart : inv [] F)
    (hbody : ∀ front c G, c ∈ cs → inv front G → From G (f c) (fun _ => inv (front ++ [c])) J)
    (hend : ∀ G, inv cs G → post () G) : From F (Program.forEach f cs) post J :=
  Meets.forEach (fun front disk => inv front disk.files) (fun _ hdisk => hdisk ▸ hstart)
    (fun front c hc choices disk hinv => hbody front c disk.files hc hinv choices disk rfl)
    fun disk hinv => hend disk.files hinv

theorem fold {β γ : Type} {f : β → γ → Restore β} {b : β} {cs : List γ}
    {post : β → Files → Prop} (inv : List γ → β → Files → Prop) (hstart : inv [] b F)
    (hbody : ∀ front c b G, c ∈ cs → inv front b G → From G (f b c) (inv (front ++ [c])) J)
    (hend : ∀ b G, inv cs b G → post b G) : From F (Program.fold f b cs) post J :=
  Meets.fold (fun front b disk => inv front b disk.files) (fun _ hdisk => hdisk ▸ hstart)
    (fun front c hc b choices disk hinv => hbody front c b disk.files hc hinv choices disk rfl)
    fun b disk hinv => hend b disk.files hinv

variable {effect : Disk → Except Text (α × Disk)}

/-- A step that is not done leaves `J`. -/
theorem operation {reach : Path → Bool} (hJ : J F)
    (hdisturb : ∀ (disk : Disk) left, disk.files = F → J (disk.disturb reach left).files)
    (hdone : ∀ (disk : Disk) a disk', disk.files = F → effect disk = .ok (a, disk') →
      post a disk'.files) : From F (operation reach effect) post J := by
  refine Meets.step fun choice disk hdisk => ?_
  rcases choice with ⟨_ | ⟨e, left⟩ | left, uuid⟩
  · cases heffect : effect disk with
    | ok result => exact hdone disk result.1 result.2 hdisk heffect
    | error e => exact show J disk.files from hdisk ▸ hJ
  · exact hdisturb disk left hdisk
  · exact hdisturb disk left hdisk

theorem quietly (hJ : J F)
    (hdone : ∀ (disk : Disk) a disk', disk.files = F → effect disk = .ok (a, disk') →
      post a disk'.files) : From F (quietly effect) post J := by
  refine From.operation hJ (fun disk left hdisk => ?_) hdone
  have hfiles : (disk.disturb (fun _ => false) left).files = disk.files := by
    funext p
    exact disturb_of_not_reach rfl
  rw [hfiles, hdisk]
  exact hJ

end From

/-! ## The steps -/

theorem probe_spec (hJ : J F) : From F probe (fun _ G => G = F) J :=
  From.quietly hJ fun _ _ _ hdisk h => by cases h; exact hdisk

theorem noSymlinkAncestors_spec (hJ : J F) : From F (noSymlinkAncestors path) (fun _ G => G = F) J :=
  (probe_spec hJ).mapError

theorem createDirAll_spec (hJ : J F) : From F (createDirAll path) (fun _ G => G = F) J :=
  From.quietly hJ fun _ _ _ hdisk h => by cases h; exact hdisk

theorem readFile_spec (hJ : J F) :
    From F (readFile path) (fun content G => F path = some content ∧ G = F) J := by
  refine From.quietly hJ fun disk content disk' hdisk h => ?_
  subst hdisk
  split at h
  · next heq => cases h; exact ⟨heq, rfl⟩
  · cases h

theorem tryExists_spec (hJ : J F) :
    From F (tryExists path) (fun existed G => (existed = false → F path = none) ∧ G = F) J := by
  refine From.quietly hJ fun disk existed disk' hdisk h => ?_
  subst hdisk
  cases h
  refine ⟨fun hnot => ?_, rfl⟩
  exact Option.isNone_iff_eq_none.mp
    (Option.isSome_eq_false_iff.mp (Bool.or_eq_false_iff.mp hnot).1)

theorem removeFile_spec (hJ : J F) : From F (removeFile path) (fun _ G => G = F.set path none) J := by
  refine From.quietly hJ fun disk _ disk' hdisk h => ?_
  subst hdisk
  split at h
  · cases h; rfl
  · cases h

theorem persist_spec (content : Content) (dst : Path) (hJ : J F) :
    From F (persist content dst) (fun _ G => G = F.set dst (some content)) J := by
  refine From.quietly hJ fun disk _ disk' hdisk h => ?_
  subst hdisk
  cases h
  rfl

theorem writeJson_spec (content : Content) (hJ : J F) :
    From F (writeJson path content) (fun _ G => G = F.set path (some content)) J :=
  persist_spec content path hJ

theorem newUuid_spec (hJ : J F) : From F newUuid (fun _ G => G = F) J := by
  refine Meets.step fun choice disk hdisk => ?_
  subst hdisk
  rcases choice with ⟨_ | ⟨e, left⟩ | left, uuid⟩
  · rfl
  · rfl
  · exact hJ

/-- A copy that is not done leaves anything at its destination. -/
theorem copyFile_spec (src dst : Path) (hJ : ∀ content, J (F.set dst content)) :
    From F (copyFile src dst) (fun _ G => (F src).isSome ∧ G = F.set dst (F src)) J := by
  refine From.operation ?_ (fun disk left hdisk => ?_) fun disk _ disk' hdisk h => ?_
  · have h := hJ (F dst)
    rwa [Files.set_self] at h
  · obtain ⟨content, hcontent⟩ := disturb_beq dst left disk
    rw [hcontent, hdisk]
    exact hJ content
  · subst hdisk
    split at h
    · next heq =>
      cases h
      rw [heq]
      exact ⟨rfl, rfl⟩
    · cases h

/-- A removal of a directory keeps what is not below it. -/
theorem removeDirAll_spec (hJ : J F) (hkeep : ∀ G : Files, (∀ p, ¬path <+: p → G p = F p) → J G) :
    From F (removeDirAll path) (fun _ => J) J := by
  refine From.operation hJ (fun disk left hdisk => ?_) fun disk _ disk' hdisk h => ?_
  · subst hdisk
    refine hkeep _ fun p hp => disturb_of_not_reach ?_
    rw [← Bool.not_eq_true, List.isPrefixOf_iff_prefix]
    exact hp
  · subst hdisk
    split at h
    · cases h
      refine hkeep _ fun p hp => ?_
      show (if path.isPrefixOf p = true then none else _) = _
      rw [if_neg (mt List.isPrefixOf_iff_prefix.mp hp)]
    · cases h

theorem replaceFile_spec (src dst : Path) (hJ : J F) :
    From F (replaceFile src dst) (fun _ G => G = F.set dst (F src)) J := by
  unfold replaceFile
  refine From.bind _ (noSymlinkAncestors_spec dst hJ) fun _ G hG => ?_
  subst hG
  split
  · exact From.fail hJ
  · next parent _ =>
    refine From.bind _ (createDirAll_spec parent hJ) fun _ G hG => ?_
    subst hG
    refine From.bind _ (probe_spec hJ) fun _ G hG => ?_
    subst hG
    refine From.bind _ (readFile_spec src hJ) fun content G hG => ?_
    obtain ⟨hcontent, rfl⟩ := hG
    refine From.bind _ (probe_spec hJ) fun _ G hG => ?_
    subst hG
    rw [hcontent]
    exact persist_spec content dst hJ

theorem exists_spec : From F (Program.look (·.exists? path)) (fun existed G =>
    ((existed = false → F path = none) ∧ ((F path).isSome = true → existed = true)) ∧ G = F) J := by
  refine From.look fun disk hdisk => ⟨⟨fun hnot => ?_, fun hsome => ?_⟩, rfl⟩
  · subst hdisk
    exact Option.isNone_iff_eq_none.mp
      (Option.isSome_eq_false_iff.mp (Bool.or_eq_false_iff.mp hnot).1)
  · subst hdisk
    exact Bool.or_eq_true_iff.mpr (.inl hsome)

theorem removeIfExists_spec (hJ : J F) :
    From F (removeIfExists path) (fun _ G => G = F.set path none) J := by
  unfold removeIfExists
  refine From.bind _ (exists_spec path) fun existed G hG => ?_
  obtain ⟨⟨hexisted, -⟩, rfl⟩ := hG
  cases existed with
  | true => exact removeFile_spec path hJ
  | false =>
    refine From.pure ?_
    rw [← hexisted rfl, Files.set_self]

theorem lockMailRestore_spec (appData : Path) (paths : List Path) (hJ : J F) :
    From F (lockMailRestore appData paths) (fun _ G => G = F) J := by
  refine From.forEach (fun _ G => G = F) rfl (fun front path G _ hG => ?_) fun G hG => hG
  subst hG
  refine From.bind _ (probe_spec hJ) fun _ G hG => ?_
  subst hG
  exact probe_spec hJ

end Taomni.Backup
