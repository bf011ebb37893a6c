import Mathlib.Data.List.DropRight
import Mathlib.Data.List.Infix
import Taomni.Common.Fallible

/-!
# Where a restore writes

The names a backup may hold and the file of the profile each of them stands for. A path is the list
of its components.

Reference: `src-tauri/src/backup/restore.rs`, `checked_path` to `destination`; `redirect_path` of
`src-tauri/src/mail/coordination.rs`.
-/

namespace Taomni.Backup

open List

abbrev Text := List Char

abbrev Path := List Text

/-! ## Names of files -/

/-- The stem and the extension of a file name, cut at its last dot. -/
def splitExtension (name : Text) : Text × Option Text :=
  let before := name.rdropWhile (· ≠ '.')
  if before.length ≤ 1 then (name, none) else (before.dropLast, some (name.rtakeWhile (· ≠ '.')))

/-- `Path::extension`. -/
def extension (path : Path) : Option Text := path.getLast?.bind fun name => (splitExtension name).2

/-- Changes the last component. -/
def mapName (f : Text → Text) : Path → Path
  | [] => []
  | [name] => [f name]
  | dir :: path => dir :: mapName f path

/-- `Path::with_extension`. -/
def withExtension (ext : String) : Path → Path :=
  mapName fun name => (splitExtension name).1 ++ ('.' :: ext.toList)

/-- `format!("{}{suffix}", path.display())`. -/
def withSuffix (suffix : String) : Path → Path := mapName (· ++ suffix.toList)

def redirectPath (database : Path) : Path := withExtension "redirect.json" database

/-- `Path::parent`. -/
def parent? (path : Path) : Option Path := if path = [] then none else some path.dropLast

/-! ## The names in a backup -/

/-- `char::is_control`. -/
def isControl (c : Char) : Bool := c.toNat < 32 || (127 ≤ c.toNat && c.toNat < 160)

def unsafePart (p : Text) : Bool :=
  p == [] || p == ".".toList || p == "..".toList || p.getLast? == some '.' ||
    p.getLast? == some ' ' || p.any isControl

def reservedPart (part : Text) : Bool :=
  let base := ((part.splitOn '.').headD []).map Char.toUpper
  ["CON", "PRN", "AUX", "NUL"].any (·.toList == base) ||
    (base.length == 4 && ("COM".toList.isPrefixOf base || "LPT".toList.isPrefixOf base) &&
      (base.getD 3 ' ').isDigit)

def checkedPath (name : Text) : Except Text Unit :=
  if name = [] ∨ '\\' ∈ name ∨ ':' ∈ name ∨ name.head? = some '/' ∨
      (name.splitOn '/').any unsafePart = true then
    .error ("Unsafe backup path: ".toList ++ name)
  else if (name.splitOn '/').any reservedPart = true then .error "Reserved backup path".toList
  else .ok ()

/-- An ASCII digit or a lower-case letter up to `f`. -/
def isLowerHex (c : Char) : Bool := c.isDigit || ('a' ≤ c && c ≤ 'f')

def validMailObjectPath (name : Text) : Bool :=
  match name.splitOn '/' with
  | [root, store, objects, short, file] =>
      root == "mail-cache".toList && ".mail".toList.isSuffixOf store &&
        objects == "objects".toList && short.length == 2 && ".eml.gz".toList.isSuffixOf file &&
        let hash := file.take (file.length - ".eml.gz".length)
        hash.length == 64 && short.isPrefixOf hash && hash.all isLowerHex
  | _ => false

def validMailAttachmentPath (name : Text) : Bool :=
  match name.splitOn '/' with
  | [root, attachments, _, _, file] =>
      root == "mail-cache".toList && attachments == "attachments".toList &&
        ".bin".toList.isSuffixOf file
  | _ => false

/-- The entries that stand for one file each, and its path in the data directory. -/
def fixedTargets : List (String × List String) :=
  [("databases/taomni.db", ["taomni.db"]), ("databases/notes.db", ["notes.db"]),
    ("databases/vault.db", ["vault.db"]), ("databases/mfa.db", ["mfa.db"]),
    ("databases/lanchat.sqlite", ["lanchat.sqlite"]), ("configs/tunnels.json", ["tunnels.json"]),
    ("servers/ssh_host_ed25519", ["ssh-server", "host_ed25519"]),
    ("servers/rdp_cert.pem", ["rdp-server", "cert.pem"]),
    ("servers/rdp_key.pem", ["rdp-server", "key.pem"]),
    ("local-history/history.db", ["local-history", "history.db"])]

/-- The entries that live in the configuration directory. -/
def configTargets : List (String × String) :=
  [("configs/ai.json", "ai.json"), ("configs/proxy.json", "proxy.json"),
    ("configs/mirror.json", "mirror.json"), ("configs/sdk.json", "sdk.json")]

def isMailDatabase (name : Text) : Bool :=
  "mail-cache/".toList.isPrefixOf name && ".db".toList.isSuffixOf name &&
    (name.splitOn '/').length == 2

/-- `configDir` is what `resolved_config_dir` finds. -/
def destination (appData : Path) (configDir : Option Path) (name : Text) : Except Text Path := do
  checkedPath name
  match fixedTargets.find? (·.1.toList == name) with
  | some (_, file) => pure (appData ++ file.map String.toList)
  | none =>
    match configTargets.find? (·.1.toList == name) with
    | some (_, file) =>
        match configDir with
        | some dir => pure (dir ++ ["taomni".toList, file.toList])
        | none => throw "Configuration directory unavailable".toList
    | none =>
        if isMailDatabase name || validMailObjectPath name || validMailAttachmentPath name then
          pure (appData ++ name.splitOn '/')
        else throw ("Unsupported Taomni backup entry: ".toList ++ name)

/-- The files the journal lists for an entry. -/
def journaledPaths (name : Text) (dst : Path) : List Path :=
  dst ::
    ((if ".db".toList.isSuffixOf name || ".sqlite".toList.isSuffixOf name then
        [withSuffix "-wal" dst, withSuffix "-shm" dst] else []) ++
      if "mail-cache/".toList.isPrefixOf name && ".db".toList.isSuffixOf name then
        [redirectPath dst, withExtension "generation" dst] else [])

/-! ## The restore's own files -/

def intentPath (appData : Path) : Path := appData ++ ["restore_intent.json".toList]

def journalPath (appData : Path) : Path := appData ++ ["restore_journal.json".toList]

def pendingDir (appData : Path) : Path := appData ++ [".pending_restore".toList]

def backupsDir (appData : Path) : Path := appData ++ ["backups".toList]

/-- A directory outside those of the restore itself. -/
structure Apart (appData dir : Path) : Prop where
  pending : ¬pendingDir appData <+: dir
  backups : ¬backupsDir appData <+: dir

/-- The names of the restore's own files and directories. -/
def ownNames : List Text :=
  ["restore_intent.json".toList, "restore_journal.json".toList, ".pending_restore".toList,
    "backups".toList]

/-- A file of the profile that is none of the restore's own. -/
structure Profile (appData path : Path) : Prop where
  apart : Apart appData path
  intent : path ≠ intentPath appData
  journal : path ≠ journalPath appData

variable {name : Text}

theorem profile_concat {appData dir : Path} (hdir : Apart appData dir)
    (hname : dir = appData → name ∉ ownNames) : Profile appData (dir ++ [name]) := by
  have hne {own : Text} (hown : own ∈ ownNames) : appData ++ [own] ≠ dir ++ [name] := by
    intro heq
    obtain ⟨rfl, hlast⟩ := append_inj' heq rfl
    exact hname rfl (singleton_injective hlast ▸ hown)
  have happart {own : Text} (hown : own ∈ ownNames) (hout : ¬appData ++ [own] <+: dir) :
      ¬appData ++ [own] <+: dir ++ [name] := by
    rw [prefix_concat_iff]
    rintro (heq | hunder)
    · exact hne hown heq
    · exact hout hunder
  refine ⟨⟨happart ?_ hdir.pending, happart ?_ hdir.backups⟩, (hne ?_).symm, (hne ?_).symm⟩ <;>
    simp only [ownNames, mem_cons, true_or, or_true]

/-- What is below one directory is not below another one beside it. -/
theorem apart_append {appData : Path} {names : List Text}
    (hpending : names.head? ≠ some ".pending_restore".toList)
    (hbackups : names.head? ≠ some "backups".toList) : Apart appData (appData ++ names) := by
  have hnot {own : Text} (hne : names.head? ≠ some own) :
      ¬appData ++ [own] <+: appData ++ names := by
    rw [prefix_append_right_inj]
    rintro ⟨rest, rfl⟩
    exact hne rfl
  exact ⟨hnot hpending, hnot hbackups⟩

/-- A path as `destination` gives it: a file of the profile, and so is what is written beside it. -/
inductive Placed (appData : Path) : Path → Prop where
  | mk {dir : Path} {name : Text} (apart : Apart appData dir)
      (name_ne : dir = appData → name ∉ ownNames) : Placed appData (dir ++ [name])

theorem mapName_concat (f : Text → Text) (dir : Path) (name : Text) :
    mapName f (dir ++ [name]) = dir ++ [f name] := by
  induction dir with
  | nil => rfl
  | cons head dir ih =>
    cases dir with
    | nil => rfl
    | cons second dir => exact congrArg (head :: ·) ih

namespace Placed

variable {appData path : Path}

theorem profile (h : Placed appData path) : Profile appData path := by
  obtain ⟨apart, hname⟩ := h
  exact profile_concat apart hname

/-- None of the restore's own names ends like this. -/
theorem profile_mapName (h : Placed appData path) {f : Text → Text} {suffix : Text}
    (hf : ∀ name, suffix <:+ f name) (hsuffix : ∀ own ∈ ownNames, ¬suffix <:+ own) :
    Profile appData (mapName f path) := by
  obtain ⟨apart, -⟩ := h
  rw [mapName_concat]
  exact profile_concat apart fun _ hown => hsuffix _ hown (hf _)

theorem profile_withSuffix (h : Placed appData path) {suffix : String}
    (hsuffix : ∀ own ∈ ownNames, ¬suffix.toList <:+ own) : Profile appData (withSuffix suffix path) :=
  h.profile_mapName (fun name => suffix_append name _) hsuffix

theorem profile_withExtension (h : Placed appData path) {ext : String}
    (hext : ∀ own ∈ ownNames, ¬('.' :: ext.toList) <:+ own) : Profile appData (withExtension ext path) :=
  h.profile_mapName (fun _ => suffix_append _ _) hext

theorem wal (h : Placed appData path) : Profile appData (withSuffix "-wal" path) :=
  h.profile_withSuffix (by decide)

theorem shm (h : Placed appData path) : Profile appData (withSuffix "-shm" path) :=
  h.profile_withSuffix (by decide)

theorem redirect (h : Placed appData path) : Profile appData (redirectPath path) :=
  h.profile_withExtension (by decide)

theorem generation (h : Placed appData path) : Profile appData (withExtension "generation" path) :=
  h.profile_withExtension (by decide)

/-- Below a directory of the profile. -/
theorem below (appData : Path) {first : Text} (hfirst : first ∉ ownNames) {rest : Path}
    (hrest : rest ≠ []) : Placed appData (appData ++ first :: rest) := by
  obtain ⟨mid, last, rfl⟩ := eq_nil_or_concat rest |>.resolve_left hrest
  rw [concat_eq_append, ← cons_append, ← append_assoc]
  refine ⟨apart_append ?_ ?_, fun hdir => absurd hdir ?_⟩
  · rintro ⟨⟩
    exact hfirst (by simp only [ownNames, mem_cons, true_or, or_true])
  · rintro ⟨⟩
    exact hfirst (by simp only [ownNames, mem_cons, true_or, or_true])
  · rw [append_right_eq_self]
    exact cons_ne_nil _ _

/-- Beside the restore's own files. -/
theorem top (appData : Path) (hname : name ∉ ownNames) : Placed appData (appData ++ [name]) := by
  refine ⟨?_, fun _ => hname⟩
  have h : Apart appData (appData ++ []) := apart_append nofun nofun
  rwa [append_nil] at h

theorem cons (appData : Path) {first : Text} (hfirst : first ∉ ownNames) (rest : Path) :
    Placed appData (appData ++ first :: rest) := by
  by_cases hrest : rest = []
  · subst hrest
    exact top appData hfirst
  · exact below appData hfirst hrest

end Placed

/-! ## Where entries go -/

/-- A configuration directory that is not inside the restore's own directories. -/
def ConfigApart (appData : Path) (configDir : Option Path) : Prop :=
  ∀ dir, configDir = some dir → Apart appData (dir ++ ["taomni".toList])

theorem fixedTargets_placed (appData : Path) {target : String × List String}
    (h : target ∈ fixedTargets) : Placed appData (appData ++ target.2.map String.toList) := by
  have hall : fixedTargets.all (fun target => match target.2 with
      | [] => false
      | first :: _ => !ownNames.contains first.toList) = true := by decide
  have htarget := all_eq_true.mp hall target h
  obtain ⟨entry, _ | ⟨first, rest⟩⟩ := target
  · cases htarget
  · refine Placed.cons appData ?_ (rest.map String.toList)
    intro hown
    rw [Bool.not_eq_true', ← Bool.not_eq_true] at htarget
    exact htarget (contains_iff_mem.mpr hown)

theorem configTargets_placed {appData dir : Path} (hdir : Apart appData (dir ++ ["taomni".toList]))
    {target : String × String} (h : target ∈ configTargets) :
    Placed appData (dir ++ ["taomni".toList, target.2.toList]) := by
  have hall : configTargets.all (fun target => !ownNames.contains target.2.toList) = true := by
    decide
  have htarget := all_eq_true.mp hall target h
  rw [Bool.not_eq_true', ← Bool.not_eq_true] at htarget
  have hplaced : Placed appData ((dir ++ ["taomni".toList]) ++ [target.2.toList]) :=
    ⟨hdir, fun _ hown => htarget (contains_iff_mem.mpr hown)⟩
  rwa [append_assoc] at hplaced

/-- The mail files of a backup are below `mail-cache`. -/
theorem splitOn_of_mail (h : isMailDatabase name || validMailObjectPath name ||
    validMailAttachmentPath name) : ∃ rest, name.splitOn '/' = "mail-cache".toList :: rest := by
  rw [Bool.or_eq_true, Bool.or_eq_true] at h
  obtain (hdb | hobject) | hattachment := h
  · unfold isMailDatabase at hdb
    rw [Bool.and_eq_true, Bool.and_eq_true] at hdb
    obtain ⟨rest, rfl⟩ := isPrefixOf_iff_prefix.mp hdb.1.1
    have hsep : '/' ∉ "mail-cache".toList := by decide
    exact ⟨rest.splitOn '/', splitOn_append_cons_self_of_not_mem hsep rest⟩
  · unfold validMailObjectPath at hobject
    split at hobject
    · next hsplit =>
      simp only [Bool.and_eq_true, beq_iff_eq] at hobject
      obtain ⟨⟨⟨⟨⟨hroot, -⟩, -⟩, -⟩, -⟩, -⟩ := hobject
      exact ⟨_, hroot ▸ hsplit⟩
    · cases hobject
  · unfold validMailAttachmentPath at hattachment
    split at hattachment
    · next hsplit =>
      simp only [Bool.and_eq_true, beq_iff_eq] at hattachment
      obtain ⟨⟨hroot, -⟩, -⟩ := hattachment
      exact ⟨_, hroot ▸ hsplit⟩
    · cases hattachment

theorem destination_placed {appData : Path} {configDir : Option Path}
    (hconfig : ConfigApart appData configDir) {dst : Path}
    (h : destination appData configDir name = .ok dst) : Placed appData dst := by
  unfold destination at h
  obtain ⟨-, -, h⟩ := exists_of_bind_eq_ok h
  split at h
  · next entry file hfind =>
    cases h
    exact fixedTargets_placed appData (mem_of_find?_eq_some hfind)
  · split at h
    · next entry file hfind =>
      split at h
      · cases h
        exact configTargets_placed (hconfig _ rfl) (mem_of_find?_eq_some hfind)
      · cases h
    · split at h
      · next hmail =>
        cases h
        obtain ⟨rest, hsplit⟩ := splitOn_of_mail hmail
        rw [hsplit]
        exact Placed.cons appData (by decide) rest
      · cases h

theorem journaledPaths_profile {appData : Path} {dst path : Path}
    (hdst : Placed appData dst) (h : path ∈ journaledPaths name dst) : Profile appData path := by
  unfold journaledPaths at h
  rw [mem_cons, mem_append] at h
  obtain rfl | h | h := h
  · exact hdst.profile
  · split at h
    · rw [mem_pair] at h
      obtain rfl | rfl := h
      · exact hdst.wal
      · exact hdst.shm
    · cases h
  · split at h
    · rw [mem_pair] at h
      obtain rfl | rfl := h
      · exact hdst.redirect
      · exact hdst.generation
    · cases h

end Taomni.Backup
