import Taomni.Backup.Restore

/-!
# A staged restore is all or nothing

A restore is in one of four states between two runs (`Recoverable`): nothing has been touched, the
journal can undo everything, the journal is committed, or everything is over. Every step leads from
one of them to one of them, so a run that comes to its end has left the profile as it was or as a
completed restore leaves it (`restore_all_or_nothing`).

Reference: `src-tauri/src/backup/restore.rs`, `rollback` and `apply_pending_restore`.
-/

namespace Taomni.Backup

open List
open Files (set_eq set_ne)

/-! ## A completed restore -/

section Completed

variable (env : Env)

/-- The entries of a backup with the files they go to. -/
def targets (listed : List BackupFileEntry) : List (BackupFileEntry × Path) :=
  listed.filterMap fun entry =>
    (destination env.appData env.configDir entry.path).toOption.map (entry, ·)

/-- What the journal lists. -/
def tracked (listed : List BackupFileEntry) : List Path :=
  (targets env listed).flatMap fun target => journaledPaths target.1.path target.2

/-- The staged files and their destinations. -/
def mappings (listed : List BackupFileEntry) : List (Path × Path) :=
  (targets env listed).map fun target =>
    (pendingDir env.appData ++ target.1.path.splitOn '/', target.2)

/-- The files with one entry restored; a mailbox gets a new generation. -/
def restoreEntry (files : Files) (m : (Path × Path) × Text) : Files :=
  let replaced := files.set m.1.2 (files m.1.1)
  let fresh :=
    if isMailCacheDatabase env.appData m.1.2 then
      (replaced.set (redirectPath m.1.2) none).set (withExtension "generation" m.1.2)
        (some (.generation m.2))
    else replaced
  (fresh.set (withSuffix "-wal" m.1.2) none).set (withSuffix "-shm" m.1.2) none

/-- The files after a completed restore, whose mailboxes got the generations `drawn`. -/
def completed (drawn : List ((Path × Path) × Text)) (files : Files) : Except Text Files :=
  let applied := drawn.foldl (restoreEntry env) files
  if drawn.any fun m => m.1.2 == taomniDb env then
    (env.portableMailPaths (.load applied (taomniDb env))).map fun db =>
      db.store applied (taomniDb env)
  else .ok applied

variable (listed : List BackupFileEntry) (base : Files)

/-- Every file the journal lists is as it was. -/
def Old (files : Files) : Prop := ∀ path ∈ tracked env listed, files path = base path

/-- Every file the journal lists is as a completed restore leaves it. -/
def New (files : Files) : Prop :=
  ∃ drawn after, drawn.map Prod.fst = mappings env listed ∧ completed env drawn base = .ok after ∧
    ∀ path ∈ tracked env listed, files path = after path

end Completed

variable {env : Env} {listed : List BackupFileEntry} {base F G : Files}

/-! ## The files of the profile -/

theorem targets_placed {target : BackupFileEntry × Path} (h : target ∈ targets env listed) :
    Placed env.appData target.2 := by
  obtain ⟨entry, -, hentry⟩ := mem_filterMap.mp h
  obtain ⟨dst, hdst, rfl⟩ := Option.map_eq_some_iff.mp hentry
  rcases hdest : destination env.appData env.configDir entry.path with e | path <;>
    rw [hdest] at hdst <;> cases hdst
  exact destination_placed env.config_apart hdest

variable {path : Path}

theorem tracked_profile (h : path ∈ tracked env listed) : Profile env.appData path := by
  obtain ⟨target, htarget, hpath⟩ := mem_flatMap.mp h
  exact journaledPaths_profile (targets_placed htarget) hpath

theorem mappings_placed {mapping : Path × Path} (h : mapping ∈ mappings env listed) :
    Placed env.appData mapping.2 := by
  obtain ⟨target, htarget, rfl⟩ := mem_map.mp h
  exact targets_placed htarget

theorem taomniDb_placed (env : Env) : Placed env.appData (taomniDb env) :=
  Placed.top env.appData (by decide)

theorem database_paths_profile (h : path ∈ Database.paths (taomniDb env)) :
    Profile env.appData path := by
  have hdb := taomniDb_placed env
  simp only [Database.paths, mem_cons, not_mem_nil, or_false] at h
  obtain rfl | rfl | rfl | rfl := h
  · exact hdb.profile
  · exact hdb.wal
  · exact hdb.shm
  · exact hdb.profile_withSuffix (by decide)

/-- The files agree but for the journal and the safety copies. -/
def Agree (appData : Path) (F G : Files) : Prop :=
  ∀ path, path ≠ journalPath appData → ¬backupsDir appData <+: path → F path = G path

theorem Agree.profile (h : Agree env.appData F G) (hpath : Profile env.appData path) : F path = G path :=
  h path hpath.journal hpath.apart.backups

theorem Agree.set (h : Agree env.appData F G) (path : Path) {content content' : Option Content}
    (hcontent : content = content') : Agree env.appData (F.set path content) (G.set path content') := by
  intro p hjournal hbackups
  subst hcontent
  unfold Files.set
  rw [h p hjournal hbackups]

variable {appData : Path}

theorem pendingDir_not_backups (names : Path) : ¬backupsDir appData <+: pendingDir appData ++ names := by
  unfold backupsDir pendingDir
  rw [append_assoc, prefix_append_right_inj, singleton_append,
    cons_prefix_cons]
  exact fun h => absurd h.1 (by decide)

theorem pendingDir_ne_journalPath (names : Path) :
    pendingDir appData ++ names ≠ journalPath appData := by
  unfold pendingDir journalPath
  rw [append_assoc]
  intro h
  have hcons := append_cancel_left h
  rw [singleton_append, List.cons.injEq] at hcons
  exact absurd hcons.1 (by decide)

/-- The restored files depend on nothing but the profile and the staged files. -/
theorem Agree.restoreEntry (h : Agree env.appData F G) (m : (Path × Path) × Text)
    {names : Path} (hsrc : m.1.1 = pendingDir env.appData ++ names) :
    Agree env.appData (restoreEntry env F m) (restoreEntry env G m) := by
  have hcontent : F m.1.1 = G m.1.1 := by
    rw [hsrc]
    exact h _ (pendingDir_ne_journalPath names) (pendingDir_not_backups names)
  unfold Backup.restoreEntry
  refine Agree.set (Agree.set ?_ _ rfl) _ rfl
  split
  · exact ((h.set _ hcontent).set _ rfl).set _ rfl
  · exact h.set _ hcontent

theorem Agree.store (h : Agree env.appData F G) (db : Database) (path : Path) :
    Agree env.appData (db.store F path) (db.store G path) :=
  (((h.set _ rfl).set _ rfl).set _ rfl).set _ rfl

theorem Agree.load (h : Agree env.appData F G) :
    Database.load F (taomniDb env) = Database.load G (taomniDb env) := by
  have hpath {path : Path} (hpath : path ∈ Database.paths (taomniDb env)) : F path = G path :=
    h.profile (database_paths_profile hpath)
  unfold Database.load
  congr 1 <;> apply hpath <;>
    simp only [Database.paths, mem_cons, true_or, or_true]

variable {drawn : List ((Path × Path) × Text)}

theorem Agree.foldl (h : Agree env.appData F G)
    (hsrc : ∀ m ∈ drawn, ∃ names, m.1.1 = pendingDir env.appData ++ names) :
    Agree env.appData (drawn.foldl (Backup.restoreEntry env) F)
      (drawn.foldl (Backup.restoreEntry env) G) := by
  induction drawn generalizing F G with
  | nil => exact h
  | cons m drawn ih =>
    obtain ⟨names, hnames⟩ := hsrc m mem_cons_self
    exact ih (h.restoreEntry m hnames) fun m' hm' => hsrc m' (mem_cons_of_mem m hm')

theorem Agree.completed (h : Agree env.appData F G)
    (hdrawn : drawn.map Prod.fst = mappings env listed) {after : Files}
    (hafter : Backup.completed env drawn F = .ok after) :
    ∃ after', Backup.completed env drawn G = .ok after' ∧ Agree env.appData after after' := by
  have hsrc (m) (hm : m ∈ drawn) : ∃ names, m.1.1 = pendingDir env.appData ++ names := by
    have hmapping : m.1 ∈ mappings env listed := hdrawn ▸ mem_map_of_mem hm
    obtain ⟨target, -, heq⟩ := mem_map.mp hmapping
    exact ⟨_, (congrArg Prod.fst heq).symm⟩
  have hfold := h.foldl hsrc
  unfold Backup.completed at hafter ⊢
  simp only at hafter ⊢
  split at hafter
  · next hany =>
    rw [if_pos hany]
    rw [hfold.load] at hafter
    rcases hdb : env.portableMailPaths
        (.load (drawn.foldl (Backup.restoreEntry env) G) (taomniDb env)) with e | db <;>
      rw [hdb] at hafter <;> cases hafter
    exact ⟨_, rfl, hfold.store db _⟩
  · next hany =>
    rw [if_neg hany]
    cases hafter
    exact ⟨_, rfl, hfold⟩

/-! ## Applying the entries -/

/-- A property that the files of the profile do not matter to. -/
def OwnOnly (appData : Path) (J : Files → Prop) : Prop :=
  ∀ ⦃F G : Files⦄, (∀ path, ¬Profile appData path → G path = F path) → J F → J G

variable {J : Files → Prop}

theorem OwnOnly.set (hown : OwnOnly env.appData J)
    (hpath : Profile env.appData path) (content : Option Content) (hJ : J F) :
    J (F.set path content) := by
  refine hown (fun p hp => set_ne F content ?_) hJ
  rintro rfl
  exact hp hpath

theorem applyMapping_spec (hown : OwnOnly env.appData J) (hJ : J F)
    {m : Path × Path} (hm : Placed env.appData m.2) :
    From F (applyMapping env m) (fun _ G => J G ∧ ∃ uuid, G = restoreEntry env F (m, uuid)) J := by
  have hreplaced := hown.set hm.profile (F m.1) hJ
  have haux (G : Files) (uuid : Text) (hG : J G)
      (heq : (G.set (withSuffix "-wal" m.2) none).set (withSuffix "-shm" m.2) none =
        restoreEntry env F (m, uuid)) :
      From G (do
        removeIfExists (withSuffix "-wal" m.2)
        removeIfExists (withSuffix "-shm" m.2))
        (fun _ G => J G ∧ ∃ uuid, G = restoreEntry env F (m, uuid)) J := by
    have hwal := hown.set hm.wal none hG
    refine From.bind _ (removeIfExists_spec _ hG) fun _ G' hG' => ?_
    subst hG'
    refine (removeIfExists_spec _ hwal).mono fun _ G' hG' => ?_
    subst hG'
    exact ⟨hown.set hm.shm none hwal, uuid, heq⟩
  unfold applyMapping
  refine From.bind _ (replaceFile_spec m.1 m.2 hJ) fun _ G hG => ?_
  subst hG
  by_cases hmail : isMailCacheDatabase env.appData m.2 = true
  · have hredirect := hown.set hm.redirect none hreplaced
    rw [if_pos hmail]
    refine From.bind _ (removeIfExists_spec _ hreplaced) fun _ G hG => ?_
    subst hG
    refine From.bind _ (newUuid_spec hredirect) fun uuid G hG => ?_
    subst hG
    refine From.bind _ (writeJson_spec _ _ hredirect) fun _ G hG => ?_
    subst hG
    refine haux _ uuid (hown.set hm.generation _ hredirect) ?_
    unfold restoreEntry
    simp only [if_pos hmail]
  · rw [if_neg hmail]
    refine haux _ [] hreplaced ?_
    unfold restoreEntry
    simp only [if_neg hmail]

theorem portableMailPaths_spec (hown : OwnOnly env.appData J) (hJ : J F) :
    From F (portableMailPaths env) (fun _ G => J G ∧
      ∃ db, env.portableMailPaths (.load F (taomniDb env)) = .ok db ∧
        G = db.store F (taomniDb env)) J := by
  unfold portableMailPaths
  refine From.operation hJ (fun disk left hdisk => ?_) fun disk _ disk' hdisk h => ?_
  · refine hown (fun path hpath => ?_) hJ
    rw [disturb_of_not_reach, hdisk]
    rw [← Bool.not_eq_true, contains_iff_mem]
    exact fun hmem => hpath (database_paths_profile hmem)
  · subst hdisk
    rcases hdb : env.portableMailPaths (.load disk.files (taomniDb env)) with e | db <;>
      rw [hdb] at h <;> cases h
    refine ⟨?_, db, rfl, rfl⟩
    have hplaced := taomniDb_placed env
    exact hown.set (hplaced.profile_withSuffix (by decide)) _
      (hown.set hplaced.shm _ (hown.set hplaced.wal _ (hown.set hplaced.profile _ hJ)))

theorem applyMappings_spec (hown : OwnOnly env.appData J) (hJ : J F)
    {ms : List (Path × Path)} (hms : ∀ m ∈ ms, Placed env.appData m.2) :
    From F (applyMappings env ms) (fun _ G => J G ∧
      ∃ drawn, drawn.map Prod.fst = ms ∧ completed env drawn F = .ok G) J := by
  unfold applyMappings
  refine From.bind (fun _ G => J G ∧ ∃ drawn : List ((Path × Path) × Text),
      drawn.map Prod.fst = ms ∧ G = drawn.foldl (restoreEntry env) F)
    (From.forEach (fun front G => J G ∧ ∃ drawn : List ((Path × Path) × Text),
      drawn.map Prod.fst = front ∧ G = drawn.foldl (restoreEntry env) F)
      ⟨hJ, [], rfl, rfl⟩ (fun front m G hm hG => ?_) fun _ hG => hG) fun _ G hG => ?_
  · obtain ⟨hG, drawn, rfl, rfl⟩ := hG
    refine (applyMapping_spec hown hG (hms m hm)).mono fun _ G' hG' => ?_
    obtain ⟨hG', uuid, rfl⟩ := hG'
    refine ⟨hG', drawn ++ [(m, uuid)], ?_, ?_⟩
    · rw [map_append, map_singleton]
    · rw [foldl_append, foldl_cons, foldl_nil]
  · obtain ⟨hG, drawn, rfl, rfl⟩ := hG
    have hany : (drawn.map Prod.fst).any (fun m => m.2 == taomniDb env) =
        drawn.any fun m => m.1.2 == taomniDb env := any_map
    rw [hany]
    split
    · next h =>
      refine (portableMailPaths_spec hown hG).mono fun _ G' hG' => ?_
      obtain ⟨hG', db, hdb, rfl⟩ := hG'
      refine ⟨hG', drawn, rfl, ?_⟩
      unfold completed
      simp only [if_pos h, hdb]
      rfl
    · next h =>
      refine From.pure ⟨hG, drawn, rfl, ?_⟩
      unfold completed
      simp only [if_neg h]

/-! ## What holds between runs -/

/-- What an entry of the journal knows of its file. -/
structure Backs (appData : Path) (base files : Files) (entry : RollbackEntry) : Prop where
  profile : Profile appData entry.path
  saved : backupsDir appData <+: entry.saved
  content : entry.existed = true → files entry.saved = base entry.path
  absent : entry.existed = false → base entry.path = none

/-- The journal lists the tracked files, with what it takes to undo the restore. -/
structure Journal (env : Env) (listed : List BackupFileEntry) (base files : Files)
    (entries : List RollbackEntry) : Prop where
  paths : entries.map RollbackEntry.path = tracked env listed
  backs : ∀ entry ∈ entries, Backs env.appData base files entry

/-- The files between two runs of a restore. -/
inductive Recoverable (env : Env) (listed : List BackupFileEntry) (base files : Files) : Prop where
  | untouched (journal : files (journalPath env.appData) = none)
      (same : Agree env.appData files base)
  | journaled (entries : List RollbackEntry)
      (journal : files (journalPath env.appData) = some (.journal ⟨entries, false⟩))
      (undo : Journal env listed base files entries)
  | committed (entries : List RollbackEntry)
      (journal : files (journalPath env.appData) = some (.journal ⟨entries, true⟩))
      (paths : entries.map RollbackEntry.path = tracked env listed)
      (new : New env listed base files)
  | settled (journal : files (journalPath env.appData) = none)
      (intent : files (intentPath env.appData) = none)
      (whole : Old env listed base files ∨ New env listed base files)

/-- The files of the profile are the same. -/
def SameProfile (appData : Path) (F G : Files) : Prop :=
  ∀ path, Profile appData path → G path = F path

theorem SameProfile.refl (appData : Path) (F : Files) : SameProfile appData F F := fun _ _ => rfl

theorem SameProfile.trans {H : Files} (h : SameProfile appData F G)
    (h' : SameProfile appData G H) : SameProfile appData F H :=
  fun path hpath => (h' path hpath).trans (h path hpath)

theorem SameProfile.set (F : Files) (hpath : ¬Profile appData path)
    (content : Option Content) : SameProfile appData F (F.set path content) := by
  intro p hp
  refine set_ne F content ?_
  rintro rfl
  exact hpath hp

theorem SameProfile.old (h : SameProfile env.appData F G) (hold : Old env listed base F) :
    Old env listed base G :=
  fun path hpath => (h path (tracked_profile hpath)).trans (hold path hpath)

theorem SameProfile.new (h : SameProfile env.appData F G) (hnew : New env listed base F) :
    New env listed base G := by
  obtain ⟨drawn, after, hdrawn, hafter, hsame⟩ := hnew
  exact ⟨drawn, after, hdrawn, hafter, fun path hpath =>
    (h path (tracked_profile hpath)).trans (hsame path hpath)⟩

theorem not_profile_journal (appData : Path) : ¬Profile appData (journalPath appData) :=
  fun h => h.journal rfl

theorem not_profile_intent (appData : Path) : ¬Profile appData (intentPath appData) :=
  fun h => h.intent rfl

theorem not_profile_backups (h : backupsDir appData <+: path) : ¬Profile appData path :=
  fun hpath => hpath.apart.backups h

/-- One name in the data directory is not below another one. -/
theorem own_name_apart (appData : Path) {name other : Text} (h : name ≠ other) :
    ¬appData ++ [name] <+: appData ++ [other] := by
  rw [prefix_append_right_inj, cons_prefix_cons]
  exact fun hsame => h hsame.1

theorem backups_not_prefix_journal (appData : Path) : ¬backupsDir appData <+: journalPath appData :=
  own_name_apart appData (by decide)

theorem pending_not_prefix_journal (appData : Path) : ¬pendingDir appData <+: journalPath appData :=
  own_name_apart appData (by decide)

theorem pending_not_prefix_intent (appData : Path) : ¬pendingDir appData <+: intentPath appData :=
  own_name_apart appData (by decide)

theorem intentPath_ne_journalPath (appData : Path) : intentPath appData ≠ journalPath appData := by
  intro h
  exact absurd (append_cancel_left h) (by decide)

/-! ## Undoing a restore -/

/-- An uncommitted journal is there and can undo everything. -/
structure Undoable (env : Env) (listed : List BackupFileEntry) (base : Files)
    (entries : List RollbackEntry) (files : Files) : Prop where
  journal : files (journalPath env.appData) = some (.journal ⟨entries, false⟩)
  undo : Journal env listed base files entries

variable {entries : List RollbackEntry}

theorem Undoable.recoverable (h : Undoable env listed base entries F) : Recoverable env listed base F :=
  .journaled entries h.journal h.undo

theorem undoable_ownOnly : OwnOnly env.appData (Undoable env listed base entries) := by
  intro F G hsame h
  refine ⟨(hsame _ (not_profile_journal _)).trans h.journal, h.undo.paths, fun entry hentry => ?_⟩
  obtain ⟨hprofile, hsaved, hcontent, habsent⟩ := h.undo.backs entry hentry
  refine ⟨hprofile, hsaved, fun hexisted => ?_, habsent⟩
  rw [hsame _ (not_profile_backups hsaved), hcontent hexisted]

/-- One entry is as it was; what was as it was stays so. -/
theorem rollbackEntry_spec (hF : Undoable env listed base entries F) {entry : RollbackEntry}
    (hentry : entry ∈ entries) : From F (rollbackEntry entry) (fun _ G =>
      Undoable env listed base entries G ∧ G = F.set entry.path (base entry.path))
      (Undoable env listed base entries) := by
  obtain ⟨hprofile, hsaved, hcontent, habsent⟩ := hF.undo.backs entry hentry
  have hset (content : Option Content) := undoable_ownOnly.set hprofile content hF
  unfold rollbackEntry
  by_cases hexisted : entry.existed = true
  · rw [if_pos hexisted]
    refine (replaceFile_spec _ _ hF).mono fun _ G hG => ?_
    subst hG
    exact ⟨hset _, congrArg (F.set entry.path) (hcontent hexisted)⟩
  · rw [if_neg hexisted, habsent (Bool.eq_false_iff.mpr hexisted)]
    refine (removeIfExists_spec entry.path hF).mono fun _ G hG => ?_
    subst hG
    exact ⟨hset none, rfl⟩

theorem rollback_spec (hF : Undoable env listed base entries F) :
    From F (rollback ⟨entries, false⟩) (fun _ G =>
      Undoable env listed base entries G ∧ Old env listed base G)
      (Undoable env listed base entries) := by
  refine From.forEach (fun front G => Undoable env listed base entries G ∧
      ∀ entry ∈ front, G entry.path = base entry.path) ⟨hF, fun _ h => absurd h not_mem_nil⟩
    (fun front entry G hentry hG => ?_) fun G hG => ⟨hG.1, fun path hpath => ?_⟩
  · obtain ⟨hG, hfront⟩ := hG
    refine (rollbackEntry_spec hG hentry).mono fun _ H hH => ⟨hH.1, fun other hother => ?_⟩
    rw [hH.2]
    -- an entry listed twice is written twice with the same content
    by_cases heq : other.path = entry.path
    · rw [heq, set_eq]
    · rw [set_ne _ _ heq]
      rw [mem_append, mem_singleton] at hother
      exact hfront other (hother.resolve_right fun h => heq (congrArg _ h))
  · rw [← hF.undo.paths] at hpath
    obtain ⟨entry, hentry, rfl⟩ := mem_map.mp hpath
    exact hG.2 entry hentry

/-! ## Saving what the restore is going to change -/

/-- The journal is not written yet. -/
structure Untouched (env : Env) (base files : Files) : Prop where
  journal : files (journalPath env.appData) = none
  same : Agree env.appData files base

theorem Untouched.recoverable (h : Untouched env base F) : Recoverable env listed base F :=
  .untouched h.journal h.same

theorem Untouched.set (h : Untouched env base F)
    (hpath : backupsDir env.appData <+: path) (content : Option Content) :
    Untouched env base (F.set path content) := by
  have hne {p : Path} (hp : ¬backupsDir env.appData <+: p) : p ≠ path := by
    rintro rfl
    exact hp hpath
  refine ⟨?_, fun p hjournal hbackups => ?_⟩
  · rw [set_ne _ _ (hne (backups_not_prefix_journal _)), h.journal]
  · rw [set_ne _ _ (hne hbackups)]
    exact h.same p hjournal hbackups

theorem Untouched.old (h : Untouched env base F) : Old env listed base F :=
  fun _ hpath => h.same.profile (tracked_profile hpath)

/-- The safety copies are numbered. -/
structure Saves (env : Env) (base : Files) (safety : Path) (entries : List RollbackEntry)
    (files : Files) : Prop where
  numbered : ∀ i entry, entries[i]? = some entry → entry.saved = safety ++ [Nat.toDigits 10 i]
  backs : ∀ entry ∈ entries, Backs env.appData base files entry

theorem toDigits_injective : Function.Injective (Nat.toDigits 10) :=
  Function.LeftInverse.injective (g := fun digits => Nat.ofDigitChars 10 digits 0)
    fun _ => Nat.ofDigitChars_ten_toDigits

theorem Saves.concat {safety : Path} (h : Saves env base safety entries F)
    (hsafety : backupsDir env.appData <+: safety) (hpath : Profile env.appData path)
    {existed : Bool} {content : Option Content} (hexisted : existed = true → content = base path)
    (habsent : existed = false → base path = none) : Saves env base safety
      (entries ++ [⟨path, safety ++ [Nat.toDigits 10 entries.length], existed⟩])
      (F.set (safety ++ [Nat.toDigits 10 entries.length]) content) := by
  refine ⟨fun i entry hentry => ?_, fun entry hentry => ?_⟩
  · rcases Nat.lt_trichotomy i entries.length with hi | hi | hi
    · rw [getElem?_append_left hi] at hentry
      exact h.numbered i entry hentry
    · subst hi
      rw [getElem?_concat_length] at hentry
      cases hentry
      rfl
    · rw [getElem?_eq_none (by rw [length_append]; exact hi)] at hentry
      cases hentry
  · rw [mem_append, mem_singleton] at hentry
    obtain hentry | rfl := hentry
    · obtain ⟨hprofile, hsaved, hcontent, habsent⟩ := h.backs entry hentry
      refine ⟨hprofile, hsaved, fun hexisted => ?_, habsent⟩
      obtain ⟨i, hi⟩ := getElem?_of_mem hentry
      have hlt : i < entries.length := (List.getElem?_eq_some_iff.mp hi).1
      -- the new copy has a number of its own
      have hne : entry.saved ≠ safety ++ [Nat.toDigits 10 entries.length] := by
        rw [h.numbered i entry hi]
        intro heq
        have hlast := append_cancel_left heq
        rw [List.cons.injEq] at hlast
        exact Nat.ne_of_lt hlt (toDigits_injective hlast.1)
      rw [set_ne _ _ hne, hcontent hexisted]
    · refine ⟨hpath, hsafety.trans (prefix_append _ _), fun hex => ?_, habsent⟩
      rw [set_eq, hexisted hex]

/-- The files are untouched and the copies made so far are there. -/
structure Saving (env : Env) (base : Files) (safety : Path) (paths : List Path)
    (entries : List RollbackEntry) (files : Files) : Prop where
  untouched : Untouched env base files
  saves : Saves env base safety entries files
  paths : entries.map RollbackEntry.path = paths

variable {safety : Path} {paths : List Path}

theorem saveCopy_spec (hsafety : backupsDir env.appData <+: safety)
    (hpath : Profile env.appData path) (hF : Saving env base safety paths entries F) :
    From F (saveCopy safety entries path) (Saving env base safety (paths ++ [path]))
      (Recoverable env listed base) := by
  obtain ⟨huntouched, hsaves, hpaths⟩ := hF
  have hJ : Recoverable env listed base F := huntouched.recoverable
  have hsame : F path = base path := huntouched.same.profile hpath
  have hsaved := hsafety.trans (prefix_append safety [Nat.toDigits 10 entries.length])
  have hend (existed : Bool) (content : Option Content)
      (hexisted : existed = true → content = base path)
      (habsent : existed = false → base path = none) : Saving env base safety (paths ++ [path])
        (entries ++ [⟨path, safety ++ [Nat.toDigits 10 entries.length], existed⟩])
        (F.set (safety ++ [Nat.toDigits 10 entries.length]) content) := by
    refine ⟨huntouched.set hsaved _, hsaves.concat hsafety hpath hexisted habsent, ?_⟩
    rw [map_append, map_singleton, hpaths]
  unfold saveCopy
  refine From.bind _ (noSymlinkAncestors_spec path hJ) fun _ G hG => ?_
  subst hG
  refine From.bind _ (tryExists_spec path hJ) fun existed G hG => ?_
  obtain ⟨hexisted, rfl⟩ := hG
  cases existed with
  | true =>
    refine From.bind _ (copyFile_spec path _ fun content =>
      (huntouched.set hsaved content).recoverable).mapError fun _ H hH => ?_
    obtain ⟨-, rfl⟩ := hH
    refine From.bind _ (probe_spec (huntouched.set hsaved _).recoverable) fun _ H hH => ?_
    subst hH
    exact From.pure (hend true _ (fun _ => hsame) nofun)
  | false =>
    refine From.pure ?_
    have h := hend false (G (safety ++ [Nat.toDigits 10 entries.length])) nofun fun _ =>
      hsame ▸ hexisted rfl
    rwa [Files.set_self] at h

theorem targets_append (front : List BackupFileEntry) {entry : BackupFileEntry} {dst : Path}
    (hdst : destination env.appData env.configDir entry.path = .ok dst) :
    targets env (front ++ [entry]) = targets env front ++ [(entry, dst)] := by
  unfold targets
  rw [filterMap_append, filterMap_cons_some (b := (entry, dst)) (by rw [hdst]; rfl),
    filterMap_nil]

theorem saveEntry_spec (hsafety : backupsDir env.appData <+: safety)
    {front : List BackupFileEntry} {acc : List RollbackEntry × List (Path × Path)}
    (hF : Saving env base safety (tracked env front) acc.1 F) (hacc : acc.2 = mappings env front)
    (entry : BackupFileEntry) : From F (saveEntry env safety acc entry) (fun acc' G =>
      Saving env base safety (tracked env (front ++ [entry])) acc'.1 G ∧
        acc'.2 = mappings env (front ++ [entry])) (Recoverable env listed base) := by
  have hJ {entries : List RollbackEntry} {paths : List Path} {G : Files}
      (hG : Saving env base safety paths entries G) : Recoverable env listed base G :=
    hG.untouched.recoverable
  unfold saveEntry
  refine From.bind (fun dst G => destination env.appData env.configDir entry.path = .ok dst ∧ G = F)
    (From.lift (hJ hF) fun dst hdst => ⟨hdst, rfl⟩) fun dst G hG => ?_
  obtain ⟨hdst, rfl⟩ := hG
  refine From.bind _ (noSymlinkAncestors_spec _ (hJ hF)) fun _ G hG => ?_
  subst hG
  refine From.bind _ (noSymlinkAncestors_spec _ (hJ hF)) fun _ G hG => ?_
  subst hG
  refine From.bind _ (readFile_spec _ (hJ hF)) fun content G hG => ?_
  obtain ⟨-, rfl⟩ := hG
  split
  · exact From.fail (hJ hF)
  · have hplaced := destination_placed env.config_apart hdst
    refine From.bind _ (From.fold (fun paths entries => Saving env base safety
        (tracked env front ++ paths) entries) ?_ (fun paths path entries G hpath hG => ?_)
        fun entries G hG => hG) fun entries G hG => From.pure ⟨?_, ?_⟩
    · rw [append_nil]
      exact hF
    · rw [← append_assoc]
      exact saveCopy_spec hsafety (journaledPaths_profile hplaced hpath) hG
    · unfold tracked at hG ⊢
      rw [targets_append front hdst, flatMap_append, flatMap_singleton]
      exact hG
    · unfold mappings at hacc ⊢
      rw [targets_append front hdst, map_append, map_singleton, hacc]

/-! ## The end of a run -/

/-- Everything is over. -/
structure Settled (env : Env) (listed : List BackupFileEntry) (base files : Files) : Prop where
  journal : files (journalPath env.appData) = none
  intent : files (intentPath env.appData) = none
  whole : Old env listed base files ∨ New env listed base files

theorem Settled.recoverable (h : Settled env listed base F) : Recoverable env listed base F :=
  .settled h.journal h.intent h.whole

/-- The intent and the journal are gone, and nothing has happened to the profile since `F`. -/
structure Over (appData : Path) (F G : Files) : Prop where
  journal : G (journalPath appData) = none
  intent : G (intentPath appData) = none
  same : SameProfile appData F G

/-- The journal and the profile are as they are in `F`. -/
structure Kept (appData : Path) (F G : Files) : Prop where
  journal : G (journalPath appData) = F (journalPath appData)
  same : SameProfile appData F G

theorem Kept.refl (appData : Path) (F : Files) : Kept appData F F :=
  ⟨rfl, SameProfile.refl appData F⟩

theorem Kept.set (h : Kept appData F G)
    (hjournal : journalPath appData ≠ path) (hpath : ¬Profile appData path)
    (content : Option Content) : Kept appData F (G.set path content) := by
  refine ⟨?_, h.same.trans (SameProfile.set G hpath content)⟩
  rw [set_ne _ _ hjournal]
  exact h.journal

theorem Over.of_same {H : Files} (h : SameProfile appData F G)
    (hH : Over appData G H) : Over appData F H :=
  ⟨hH.journal, hH.intent, h.trans hH.same⟩

theorem removeJournal_spec (hJ : J F) (hintent : F (intentPath appData) = none) :
    From F (removeFile (journalPath appData)) (fun _ => Over appData F) J := by
  refine (removeFile_spec _ hJ).mono fun _ G hG => ?_
  subst hG
  refine ⟨set_eq _ _ _, ?_, SameProfile.set F (not_profile_journal _) none⟩
  rw [set_ne _ _ (intentPath_ne_journalPath appData), hintent]

theorem not_pending (h : Profile appData path) : ¬pendingDir appData <+: path := h.apart.pending

/-- Removing the staged files, with or without a journal. -/
theorem removePending_spec {J K : Files → Prop} (hKJ : ∀ G, K G → J G)
    (hkeep : ∀ G : Files, G (journalPath appData) = F (journalPath appData) →
      G (intentPath appData) = F (intentPath appData) → SameProfile appData F G → K G) :
    From F (removeDirAll (pendingDir appData)) (fun _ => K) J := by
  have hK (G : Files) (hG : ∀ p, ¬pendingDir appData <+: p → G p = F p) : K G :=
    hkeep G (hG _ (pending_not_prefix_journal _)) (hG _ (pending_not_prefix_intent _))
      fun path hpath => hG path (not_pending hpath)
  exact Meets.weaken (removeDirAll_spec (pendingDir appData) (hK F fun _ _ => rfl) hK)
    (fun _ h => h) (fun _ _ h => h) (fun _ disk h => hKJ disk.files h) fun disk h =>
      hKJ disk.files h

section Committed

variable {J : Files → Prop} (hJ : ∀ G, Kept env.appData F G → J G)

include hJ

theorem legacyCopies_spec (hG : Kept env.appData F G) :
    From G (legacyCopies env entries) (fun _ => Kept env.appData F) J := by
  unfold legacyCopies
  refine From.bind _ (createDirAll_spec _ (hJ G hG)) fun _ H hH => ?_
  subst hH
  refine From.forEach (fun _ => Kept env.appData F) hG (fun _ entry H _ hH => ?_) fun _ h => h
  split
  · split
    · next name _ =>
      have hbackups : backupsDir env.appData <+:
          backupsDir env.appData ++ ["pre_restore_safety_copy".toList] ++ [name] := by
        rw [append_assoc]
        exact prefix_append _ _
      have hjournal : journalPath env.appData ≠
          backupsDir env.appData ++ ["pre_restore_safety_copy".toList] ++ [name] :=
        fun heq => backups_not_prefix_journal env.appData (heq ▸ hbackups)
      have hset (content : Option Content) := hH.set hjournal (not_profile_backups hbackups) content
      refine (copyFile_spec _ _ fun content => hJ _ (hset content)).mono fun _ G hG => ?_
      obtain ⟨-, rfl⟩ := hG
      exact hset _
    · exact From.pure hH
  · exact From.pure hH

/-- A restore that is committed is brought to its end without another change to the profile. -/
theorem finish_spec (hG : Kept env.appData F G) :
    From G (finish env entries) (fun _ => Over env.appData F) J := by
  unfold finish
  refine From.bind _ (legacyCopies_spec hJ hG) fun _ G hG => ?_
  have hremoved := hG.set (intentPath_ne_journalPath _).symm (not_profile_intent _) none
  refine From.bind _ (removeFile_spec _ (hJ G hG)) fun _ H hH => ?_
  subst hH
  refine From.bind (fun _ G => Kept env.appData F G ∧ G (intentPath env.appData) = none)
    (removePending_spec (fun G hG => hJ G hG.1) fun G hjournal hintent hsame => ?_)
    fun _ G hG => ?_
  · refine ⟨⟨hjournal.trans hremoved.journal, hremoved.same.trans hsame⟩, ?_⟩
    rw [hintent, set_eq]
  · exact (removeJournal_spec (hJ G hG.1) hG.2).mono fun _ H hH => hH.of_same hG.1.same

end Committed

/-- What recovery does once the profile has been seen to. -/
theorem cleanup_spec (hJ : J F) (hremoved : J (F.set (intentPath env.appData) none))
    (hover : ∀ G, Over env.appData F G → J G) : From F (do
      removeIfExists (intentPath env.appData)
      removeFile (journalPath env.appData)
      if ← Program.look (·.exists? (pendingDir env.appData)) then
        removeDirAll (pendingDir env.appData)) (fun _ => Over env.appData F) J := by
  refine From.bind _ (removeIfExists_spec _ hJ) fun _ G hG => ?_
  subst hG
  have hsame := SameProfile.set F (not_profile_intent env.appData) none
  refine From.bind (fun _ => Over env.appData F)
    ((removeJournal_spec hremoved (set_eq _ _ _)).mono fun _ H hH => hH.of_same hsame)
    fun _ G hG => ?_
  refine From.bind (fun _ => Over env.appData F) (From.look fun _ _ => hG) fun pending H hH => ?_
  cases pending with
  | true =>
    refine removePending_spec hover fun G hjournal hintent hsame => ?_
    exact ⟨hjournal.trans hH.journal, hintent.trans hH.intent, hH.same.trans hsame⟩
  | false => exact From.pure hH

/-! ## Runs -/

theorem recover_uncommitted (hF : Undoable env listed base entries F) :
    From F (recover env) (fun _ G => Settled env listed base G ∧ Old env listed base G)
      (Recoverable env listed base) := by
  unfold recover
  refine From.bind _ (readFile_spec _ hF.recoverable) fun content G hG => ?_
  obtain ⟨hcontent, rfl⟩ := hG
  rw [hF.journal] at hcontent
  cases hcontent
  refine From.bind _ (lockMailRestore_spec _ _ hF.recoverable) fun _ G hG => ?_
  subst hG
  show From G (rollback ⟨entries, false⟩ >>= _) _ _
  refine From.bind (fun _ G => Undoable env listed base entries G ∧ Old env listed base G)
    (Meets.weaken (rollback_spec hF) (fun _ h => h) (fun _ _ h => h)
      (fun _ _ h => h.recoverable) fun _ h => h.recoverable) fun _ G hG => ?_
  obtain ⟨hG, hold⟩ := hG
  have hsettled (H : Files) (hH : Over env.appData G H) :
      Settled env listed base H ∧ Old env listed base H :=
    ⟨⟨hH.journal, hH.intent, .inl (hH.same.old hold)⟩, hH.same.old hold⟩
  have hremoved : Undoable env listed base entries (G.set (intentPath env.appData) none) := by
    refine ⟨?_, hG.undo.paths, fun entry hentry => ?_⟩
    · rw [set_ne _ _ (intentPath_ne_journalPath _).symm, hG.journal]
    · obtain ⟨hprofile, hsaved, hcontent, habsent⟩ := hG.undo.backs entry hentry
      refine ⟨hprofile, hsaved, fun hexisted => ?_, habsent⟩
      rw [set_ne _ _, hcontent hexisted]
      rintro hintent
      exact own_name_apart env.appData (by decide) (hintent ▸ hsaved)
  exact (cleanup_spec hG.recoverable hremoved.recoverable fun H hH =>
    (hsettled H hH).1.recoverable).mono fun _ H hH => hsettled H hH

/-- A committed restore is never undone. -/
theorem recover_committed (hjournal : F (journalPath env.appData) = some (.journal ⟨entries, true⟩))
    (hpaths : entries.map RollbackEntry.path = tracked env listed)
    (hnew : New env listed base F) : From F (recover env)
      (fun _ G => Settled env listed base G ∧ SameProfile env.appData F G)
      (fun G => Recoverable env listed base G ∧ SameProfile env.appData F G) := by
  have hkept (G : Files) (hG : Kept env.appData F G) :
      Recoverable env listed base G ∧ SameProfile env.appData F G :=
    ⟨.committed entries (hG.journal.trans hjournal) hpaths (hG.same.new hnew), hG.same⟩
  have hover (G : Files) (hG : Over env.appData F G) :
      Settled env listed base G ∧ SameProfile env.appData F G :=
    ⟨⟨hG.journal, hG.intent, .inr (hG.same.new hnew)⟩, hG.same⟩
  have hF := hkept F (Kept.refl _ F)
  unfold recover
  refine From.bind _ (readFile_spec _ hF) fun content G hG => ?_
  obtain ⟨hcontent, rfl⟩ := hG
  rw [hjournal] at hcontent
  cases hcontent
  refine From.bind _ (lockMailRestore_spec _ _ hF) fun _ G hG => ?_
  subst hG
  have hremoved := hkept _ ((Kept.refl _ G).set (intentPath_ne_journalPath env.appData).symm
    (not_profile_intent _) none)
  exact (cleanup_spec hF hremoved fun H hH => ⟨(hover H hH).1.recoverable, hH.same⟩).mono
    fun _ H hH => hover H hH

/-- From the journal on, every break leaves a journal that says what to do. -/
theorem install_spec (hF : Saving env base safety (tracked env listed) entries F) :
    From F (install env entries (mappings env listed)) (fun _ => Settled env listed base)
      (Recoverable env listed base) := by
  unfold install
  refine From.bind _ (writeJson_spec _ _ hF.untouched.recoverable) fun _ G hG => ?_
  have hagree : Agree env.appData G base := by
    intro path hpath hbackups
    rw [hG, set_ne _ _ hpath]
    exact hF.untouched.same path hpath hbackups
  have hundo : Undoable env listed base entries G := by
    refine ⟨hG ▸ set_eq _ _ _, hF.paths, fun entry hentry => ?_⟩
    obtain ⟨hprofile, hsaved, hcontent, habsent⟩ := hF.saves.backs entry hentry
    refine ⟨hprofile, hsaved, fun hexisted => ?_, habsent⟩
    rw [hG, set_ne _ _, hcontent hexisted]
    rintro hjournal
    exact backups_not_prefix_journal env.appData (hjournal ▸ hsaved)
  refine From.bind _ ((applyMappings_spec undoable_ownOnly hundo fun m hm =>
    mappings_placed hm).attempt fun _ h => h.recoverable) fun result H hH => ?_
  cases result with
  | error error =>
    have hundone : From H (rollback ⟨entries, false⟩) (fun _ => Recoverable env listed base)
        (Recoverable env listed base) :=
      Meets.weaken (rollback_spec hH) (fun _ h => h) (fun _ _ h => h.1.recoverable)
        (fun _ _ h => h.recoverable) fun _ h => h.recoverable
    exact From.bind _ hundone.mapError fun _ _ h => From.fail h
  | ok value =>
    obtain ⟨hH, drawn, hdrawn, hcompleted⟩ := hH
    obtain ⟨after, hafter, hsame⟩ := hagree.completed hdrawn hcompleted
    refine From.bind _ (writeJson_spec _ _ hH.recoverable) fun _ I hI => ?_
    have hjournal : I (journalPath env.appData) = some (.journal ⟨entries, true⟩) := by
      rw [hI, set_eq]
    have hnew : New env listed base I := by
      refine ⟨drawn, after, hdrawn, hafter, fun path hpath => ?_⟩
      have hprofile := tracked_profile hpath
      rw [hI, set_ne _ _ hprofile.journal]
      exact hsame.profile hprofile
    have hover (K : Files) (hK : Over env.appData I K) : Settled env listed base K :=
      ⟨hK.journal, hK.intent, .inr (hK.same.new hnew)⟩
    exact (finish_spec (fun K hK => .committed entries (hK.journal.trans hjournal) hF.paths
      (hK.same.new hnew)) (Kept.refl _ I)).mono fun _ K hK => hover K hK

variable {intent : RestoreIntent}

theorem restoreStaged_spec (hlisted : intent.manifest.files = listed)
    (hintent : F (intentPath env.appData) = some (.intent intent)) (hF : Untouched env base F) :
    From F (restoreStaged env) (fun _ => Settled env listed base) (Recoverable env listed base) := by
  have hJ : Recoverable env listed base F := hF.recoverable
  unfold restoreStaged
  refine From.bind _ (readFile_spec _ hJ) fun content G hG => ?_
  obtain ⟨hcontent, rfl⟩ := hG
  rw [hintent] at hcontent
  cases hcontent
  show From G (if _ then _ else _) _ _
  split
  · exact From.fail hJ
  refine From.bind (fun _ H => H = G) (From.lift hJ fun _ _ => rfl) fun dsts H hH => ?_
  subst hH
  refine From.bind _ (lockMailRestore_spec _ _ hJ) fun _ H hH => ?_
  subst hH
  refine From.bind _ (newUuid_spec hJ) fun uuid H hH => ?_
  subst hH
  refine From.bind _ (createDirAll_spec _ hJ) fun _ H hH => ?_
  subst hH
  have hsafety : backupsDir env.appData <+: backupsDir env.appData ++ ["restore-".toList ++ uuid] :=
    prefix_append _ _
  refine From.bind _ (From.fold (fun front acc G => Saving env base
      (backupsDir env.appData ++ ["restore-".toList ++ uuid]) (tracked env front) acc.1 G ∧
      acc.2 = mappings env front) ?_ (fun front entry acc G _ hG =>
        saveEntry_spec hsafety hG.1 hG.2 entry) fun acc G hG => hG) fun acc I hI => ?_
  · exact ⟨⟨hF, ⟨fun _ _ h => absurd h nofun, fun _ h => absurd h not_mem_nil⟩, rfl⟩, rfl⟩
  · obtain ⟨entries, ms⟩ := acc
    obtain ⟨hI, rfl⟩ := hI
    rw [hlisted] at hI ⊢
    exact install_spec hI

variable {post : Unit → Files → Prop}

/-- A run that finds a journal recovers. -/
theorem applyPendingRestore_of_journal
    {content : Content} (hjournal : F (journalPath env.appData) = some content)
    (h : From F (recover env) post J) : From F (applyPendingRestore env) post J := by
  unfold applyPendingRestore
  refine From.bind _ (exists_spec _) fun existed G hG => ?_
  obtain ⟨⟨-, hexisted⟩, rfl⟩ := hG
  rw [if_pos (hexisted (hjournal ▸ rfl))]
  exact h

/-- A run that finds no journal. -/
theorem applyPendingRestore_of_none (hJ : J F)
    (hjournal : F (journalPath env.appData) = none) (hstaged : From F (restoreStaged env) post J)
    (hend : F (intentPath env.appData) = none → post () F) :
    From F (applyPendingRestore env) post J := by
  unfold applyPendingRestore
  refine From.bind _ (exists_spec _) fun existed G hG => ?_
  obtain ⟨-, rfl⟩ := hG
  split
  · -- something else than a file has the journal's name
    unfold recover
    refine From.bind _ (readFile_spec _ hJ) fun content G hG => ?_
    rw [hjournal] at hG
    exact absurd hG.1 nofun
  · refine From.bind _ (exists_spec _) fun existed G hG => ?_
    obtain ⟨⟨hexisted, -⟩, rfl⟩ := hG
    cases existed with
    | true => exact hstaged
    | false => exact From.pure (hend (hexisted rfl))

/-- A run that comes to its end leaves all or nothing. -/
def Finished (env : Env) (listed : List BackupFileEntry) (base files : Files) : Prop :=
  Recoverable env listed base files ∧ (Old env listed base files ∨ New env listed base files)

theorem Settled.finished (h : Settled env listed base F) : Finished env listed base F :=
  ⟨h.recoverable, h.whole⟩

theorem applyPendingRestore_spec (hlisted : intent.manifest.files = listed)
    (hintent : base (intentPath env.appData) = some (.intent intent))
    (hF : Recoverable env listed base F) :
    From F (applyPendingRestore env) (fun _ => Finished env listed base)
      (Recoverable env listed base) := by
  cases hF with
  | untouched journal same =>
    have huntouched : Untouched env base F := ⟨journal, same⟩
    refine applyPendingRestore_of_none huntouched.recoverable journal
      ((restoreStaged_spec hlisted ?_ huntouched).mono fun _ G hG => hG.finished)
      fun _ => ⟨huntouched.recoverable, .inl huntouched.old⟩
    rw [same _ (intentPath_ne_journalPath _) (own_name_apart env.appData (by decide)), hintent]
  | journaled entries journal undo =>
    exact applyPendingRestore_of_journal journal
      ((recover_uncommitted ⟨journal, undo⟩).mono fun _ G hG => hG.1.finished)
  | committed entries journal paths new =>
    exact applyPendingRestore_of_journal journal (Meets.weaken
      (recover_committed journal paths new) (fun _ h => h) (fun _ _ h => h.1.finished)
      (fun _ _ h => h.1) fun _ h => h.1)
  | settled journal intent whole =>
    have hsettled : Settled env listed base F := ⟨journal, intent, whole⟩
    refine applyPendingRestore_of_none hsettled.recoverable journal ?_ fun _ => hsettled.finished
    unfold restoreStaged
    refine From.bind _ (readFile_spec _ hsettled.recoverable) fun content G hG => ?_
    rw [intent] at hG
    exact absurd hG.1 nofun

theorem recoverable_rerun {start : Disk}
    (hintent : start.files (intentPath env.appData) = some (.intent intent))
    (hjournal : start.files (journalPath env.appData) = none) (runs : List (List Choice)) :
    Recoverable env intent.manifest.files start.files
      ((applyPendingRestore env).rerun runs start).files := by
  have hstart : Recoverable env intent.manifest.files start.files start.files :=
    .untouched hjournal fun _ _ _ => rfl
  have hstep : Meets (fun disk : Disk => Recoverable env intent.manifest.files start.files disk.files)
      (applyPendingRestore env) (.orElse (fun _ disk => Recoverable env intent.manifest.files
        start.files disk.files) fun disk => Recoverable env intent.manifest.files start.files
        disk.files) :=
    fun choices disk hdisk =>
      ((applyPendingRestore_spec rfl hintent hdisk).mono fun _ _ h => h.1) choices disk rfl
  exact Meets.rerun hstep runs hstart

/-- A profile with notes, and a backup of other notes. -/
def notesEnv : Env where
  appData := []
  configDir := none
  sha256 := fun _ => []
  size := fun _ => 0
  portableMailPaths := .ok
  config_apart := nofun

def notesIntent : RestoreIntent := ⟨1, "Taomni".toList, [⟨"databases/notes.db".toList, [], 0⟩]⟩

def notesStart : Disk where
  files := fun path =>
    if path = intentPath [] then some (.intent notesIntent)
    else if path = ["notes.db".toList] then some (.bytes [1])
    else if path = pendingDir [] ++ ["databases".toList, "notes.db".toList] then some (.bytes [2])
    else none
  dirs := fun path => path == pendingDir []

end Taomni.Backup
