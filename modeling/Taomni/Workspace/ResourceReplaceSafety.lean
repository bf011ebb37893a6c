import Mathlib.Data.Nat.Digits.Defs
import Taomni.Workspace.ResourceMoveSafety

/-!
# Moves that replace a destination and fail

The previous destination is renamed to a backup beside it and renamed back when the move fails. It is
lost to the user where it cannot be put back, for no message names the backup; and a file of the
source is lost as in any other move, unless the previous destination happens to hold it
(`move_keeps_data_iff`).

Reference: `src-tauri/src/workspace/resource_operations.rs`, `move_resource_replacing` and
`resource_backup_path`.
-/

namespace Taomni.Workspace

open List
open PathTree (move_other move_target prune_below prune_other)

variable {faults : Faults} {names : List Text} {files : Files} {src dst backup : Path}

/-! ## The backup -/

/-- A backup is another name in the directory of the destination, and free. -/
structure BackupOf (files : Files) (dst backup : Path) : Prop where
  apart : PathsApart dst backup
  parent : backup.dropLast = dst.dropLast
  nonempty : backup ≠ []
  absent : files backup = none

theorem backupOf_candidate {dir : Path} {name other : Text} (hne : name ≠ other)
    (habsent : files (dir ++ [other]) = none) : BackupOf files (dir ++ [name]) (dir ++ [other]) where
  apart := .of_names dir hne
  parent := by rw [dropLast_concat, dropLast_concat]
  nonempty := append_ne_nil_of_right_ne_nil _ (cons_ne_nil _ _)
  absent := habsent

theorem resourceBackupPath_ok {pid fuel sequence : ℕ}
    (h : resourceBackupPath faults pid files dst fuel sequence = .ok backup) :
    BackupOf files dst backup := by
  induction fuel generalizing sequence with
  | zero => cases h
  | succ fuel ih =>
    unfold resourceBackupPath at h
    rcases hlast : dst.getLast? with _ | name <;> rw [hlast] at h
    · cases h
    have hdst : dst = dst.dropLast ++ [name] :=
      (dropLast_append_getLast? name (Option.mem_def.mpr hlast)).symm
    dsimp only at h
    unfold resourceTargetExists at h
    generalize hother : ['.'] ++ name ++ ".taomni-workspace-edit-backup-".toList ++
      Nat.toDigits 10 pid ++ ['-'] ++ Nat.toDigits 10 sequence = other at h
    cases hrefusal : refusal faults (.candidate (dst.dropLast ++ [other])) with
    | some error =>
      rw [hrefusal] at h
      cases h
    | none =>
      rw [hrefusal] at h
      cases habsent : files (dst.dropLast ++ [other]) with
      | some entry =>
        rw [habsent] at h
        exact ih h
      | none =>
        rw [habsent] at h
        cases h
        have hne : name ≠ other := by
          intro heq
          have hlength := congrArg List.length (hother.trans heq.symm)
          simp only [length_append, length_singleton] at hlength
          omega
        have hbackup := backupOf_candidate hne habsent
        rwa [← hdst] at hbackup

namespace BackupOf

variable (h : BackupOf files dst backup) (hclosed : files.Closed .dir)
  (hsource : (files src).isSome = true) (houtside : ¬src <+: dst)

include h hclosed hsource houtside

theorem apart_source : PathsApart src backup := by
  constructor
  · intro hbelow
    have hdecomposed := dropLast_append_getLast h.nonempty
    rw [← hdecomposed, prefix_concat_iff] at hbelow
    rcases hbelow with heq | hparent
    · rw [heq, hdecomposed, h.absent] at hsource
      cases hsource
    · rw [h.parent] at hparent
      exact houtside (hparent.trans (List.dropLast_prefix dst))
  · rintro ⟨rest, rfl⟩
    rw [hclosed.none_below h.absent rest] at hsource
    cases hsource

/-- No message of the move names the backup. -/
theorem not_named {error : Message} (hmessage : Within src dst error) : .path backup ∉ error := by
  intro hmem
  rcases hmessage backup hmem with hsrc | hdst
  · exact (h.apart_source hclosed hsource houtside).left hsrc
  · exact h.apart.left hdst

end BackupOf

/-! ## Putting the destination back -/

/-- What is there when the backup is to be renamed back: the move across roots has failed, and what it
has left at the destination has been removed. -/
def beforeRestore (faults : Faults) (names : List Text) (fuel : ℕ) (src dst : Path) (moved : Files) :
    Files :=
  let after := (moveResourceAcrossRoots faults names fuel src dst moved).2
  after.prune dst (takesIfExists faults .partialTarget (after dst))

/-- The rename that puts the previous destination back works. -/
def Restored (faults : Faults) (names : List Text) (fuel : ℕ) (src dst backup : Path)
    (files : Files) : Prop :=
  Renames faults names .restoreRename backup dst
    (beforeRestore faults names fuel src dst (files.move dst backup))

theorem restoreDestination_leaves (faults : Faults) (names : List Text) (backup : Path)
    {moveError : Message} (hmessage : Within src dst moveError) (after : Files) :
    ∃ error, (restoreDestination faults names src dst backup moveError after).1 = .error error ∧
      Within src dst error ∧ (Renames faults names .restoreRename backup dst
          (after.prune dst (takesIfExists faults .partialTarget (after dst))) →
        (restoreDestination faults names src dst backup moveError after).2 =
          (after.prune dst (takesIfExists faults .partialTarget (after dst))).move backup dst) ∧
      (¬Renames faults names .restoreRename backup dst
          (after.prune dst (takesIfExists faults .partialTarget (after dst))) →
        (restoreDestination faults names src dst backup moveError after).2 =
          after.prune dst (takesIfExists faults .partialTarget (after dst))) := by
  obtain ⟨hleft, hcleanup⟩ := removeIfExists_spec faults .partialTarget dst
    "; partial destination cleanup failed: ".toList "; partial destination cleanup failed: ".toList
    after src
  unfold restoreDestination
  rcases hremove : removeIfExists faults .partialTarget dst
    "; partial destination cleanup failed: ".toList "; partial destination cleanup failed: ".toList
    after with ⟨cleanupError, left⟩
  rw [hremove] at hleft hcleanup
  obtain rfl : left = _ := hleft
  have hreplacing : Within src dst ([.text "replace ".toList, .path src, .text " -> ".toList,
      .path dst, .text " failed: ".toList] ++ moveError ++ cleanupError) :=
    ((Within.text _ (.source (.text _ (.target (.text _ .nil))))).append hmessage).append hcleanup
  dsimp only
  by_cases hrestore : Renames faults names .restoreRename backup dst
    (after.prune dst (takesIfExists faults .partialTarget (after dst)))
  · rw [rename_of_renames hrestore]
    exact ⟨_, rfl, hreplacing, fun _ => rfl, fun hnot => absurd hrestore hnot⟩
  · obtain ⟨error, heq, herror⟩ := rename_of_not_renames hrestore
    rw [heq]
    exact ⟨_, rfl, (hreplacing.append (.text _ .nil)).append (herror _ _), fun h => absurd h hrestore,
      fun _ => rfl⟩

/-! ## The move beside the backup -/

/-- The move across roots fails once the destination is out of its way. -/
def AcrossFails (faults : Faults) (names : List Text) (moved : Files) (src dst : Path) : Prop :=
  ¬Renames faults names .acrossRename src dst moved ∧
    (dst <+: src ∨ ¬(CopyDone faults moved src dst ∧ RemovalDone faults .source))

/-- What the failed move leaves when the destination has been moved away: it was the place of the
source, the source has not been copied, or the copies have been removed. -/
inductive AcrossLeft (faults : Faults) (files : Files) (src dst backup : Path) (after : Files) :
    Prop where
  | inside (below : dst <+: src) (gone : ∀ rel, after (dst ++ rel) = none)
  | notCopied (apart : ¬dst <+: src) (copy : ¬CopyDone faults (files.move dst backup) src dst)
      (source : ∀ rel, after (src ++ rel) = files (src ++ rel))
  | rolledBack (apart : ¬dst <+: src) (copy : CopyDone faults (files.move dst backup) src dst)
      (left : RolledBack faults (files.move dst backup) src dst after)

variable (disk : Disk)

theorem Disk.source (disk : Disk) (src : Path) : Source disk.names disk.files src := by
  refine ⟨fun rel name hsome => ?_, fun rel name hsome => ?_⟩ <;> rw [← append_assoc] at hsome
  · exact disk.closed _ _ hsome
  · exact disk.named _ _ hsome

theorem Disk.depth_below (disk : Disk) (src rel : Path)
    (hsome : (disk.files (src ++ rel)).isSome = true) : rel.length < disk.depth + 1 := by
  have hlength := disk.bounded _ hsome
  rw [length_append] at hlength
  omega

section

variable {disk} (hbackup : BackupOf disk.files dst backup) (hsource : (disk.files src).isSome = true)
  (houtside : ¬src <+: dst)

include hbackup

theorem moved_gone (rel : Path) : disk.files.move dst backup (dst ++ rel) = none :=
  PathTree.move_source rel (hbackup.apart.symm.not_below rel)

include hsource houtside

theorem moved_source (hapart : ¬dst <+: src) (rel : Path) :
    disk.files.move dst backup (src ++ rel) = disk.files (src ++ rel) := by
  have hsrc := hbackup.apart_source disk.closed hsource houtside
  exact move_other (PathsApart.not_below ⟨hapart, houtside⟩ rel) (hsrc.symm.not_below rel)

theorem movable_moved (hapart : ¬dst <+: src) :
    Movable disk.names (disk.depth + 1) (disk.files.move dst backup) src dst where
  nodup := disk.nodup
  apart := ⟨houtside, hapart⟩
  source := (disk.source src).congr (moved_source hbackup hsource houtside hapart)
  exists_source := by
    have hsame := moved_source hbackup hsource houtside hapart []
    rw [append_nil] at hsame
    rwa [hsame]
  depth rel hsome := by
    rw [moved_source hbackup hsource houtside hapart] at hsome
    exact disk.depth_below src rel hsome
  absent := moved_gone hbackup

/-- A source that has gone with the destination cannot be moved. -/
theorem moveResourceAcrossRoots_inside (hbelow : dst <+: src) :
    ¬Renames faults disk.names .acrossRename src dst (disk.files.move dst backup) ∧
    ∃ error after, moveResourceAcrossRoots faults disk.names (disk.depth + 1) src dst
        (disk.files.move dst backup) = (.error error, after) ∧ Within src dst error ∧
      (∀ path, ¬dst <+: path → after path = disk.files.move dst backup path) ∧
      ∀ rel, after (dst ++ rel) = none := by
  have hgone : disk.files.move dst backup src = none := by
    obtain ⟨rest, rfl⟩ := hbelow
    exact moved_gone hbackup rest
  have hrenames : ¬Renames faults disk.names .acrossRename src dst (disk.files.move dst backup) := by
    intro hrenames
    have hexists := canRename_source hrenames.2
    rw [hgone] at hexists
    cases hexists
  refine ⟨hrenames, ?_⟩
  obtain ⟨renameError, hrename, hrenameError⟩ := rename_of_not_renames hrenames
  have hcopy : ∃ error, copyResourceTarget faults disk.names (disk.depth + 1) src dst
      (disk.files.move dst backup) = (.error error, disk.files.move dst backup) ∧
      Within src dst error := by
    unfold copyResourceTarget
    rw [hgone]
    cases refusal faults (.stat src) <;>
      exact ⟨_, rfl, .text _ (.source (.text _ (.text _ .nil)))⟩
  obtain ⟨copyError, hcopied, hcopyError⟩ := hcopy
  obtain ⟨hafter, hmessage⟩ := removeIfExists_spec faults .cleanup dst
    "; partial destination cleanup failed: ".toList
    "; partial destination inspection failed: ".toList (disk.files.move dst backup) src
  unfold moveResourceAcrossRoots
  simp only [hrename, hcopied]
  refine ⟨_, _, rfl, ?_, fun path hpath => ?_, fun rel => ?_⟩
  · have hmoving : Within src dst [.text "move ".toList, .path src, .text " -> ".toList, .path dst,
        .text ": ".toList] := .text _ (.source (.text _ (.target (.text _ .nil))))
    exact (((hmoving.append (hrenameError _ _)).append (.text _ .nil)).append hcopyError).append
      hmessage
  · rw [hafter, prune_other hpath]
  · rw [hafter, prune_below, moved_gone hbackup, ite_self]

/-- The move fails exactly if a call that it needs is refused, and has then left all but the source and
the destination. -/
theorem moveResourceAcrossRoots_moved (faults : Faults) :
    (∃ error after, moveResourceAcrossRoots faults disk.names (disk.depth + 1) src dst
        (disk.files.move dst backup) = (.error error, after) ∧
      AcrossFails faults disk.names (disk.files.move dst backup) src dst ∧ Within src dst error ∧
      (∀ path, ¬src <+: path → ¬dst <+: path → after path = disk.files.move dst backup path) ∧
      AcrossLeft faults disk.files src dst backup after) ∨
    (∃ after, moveResourceAcrossRoots faults disk.names (disk.depth + 1) src dst
        (disk.files.move dst backup) = (.ok (), after) ∧
      ¬AcrossFails faults disk.names (disk.files.move dst backup) src dst) := by
  by_cases hbelow : dst <+: src
  · obtain ⟨hrenames, error, after, heq, hmessage, hother, hgone⟩ :=
      moveResourceAcrossRoots_inside hbackup hsource houtside hbelow
    exact .inl ⟨error, after, heq, ⟨hrenames, .inl hbelow⟩, hmessage, fun path _ hpath =>
      hother path hpath, .inside hbelow hgone⟩
  have hmovable := movable_moved hbackup hsource houtside hbelow
  have hends := moveResourceAcrossRoots_ends faults hmovable
  rcases hresult : moveResourceAcrossRoots faults disk.names (disk.depth + 1) src dst
    (disk.files.move dst backup) with ⟨result, after⟩
  rw [hresult] at hends
  cases hends with
  | renamed renames ok =>
    obtain rfl : result = _ := ok
    exact .inr ⟨after, rfl, fun hfails => hfails.1 renames⟩
  | moved copy removal ok =>
    obtain rfl : result = _ := ok
    refine .inr ⟨after, rfl, fun hfails => ?_⟩
    exact hfails.2.elim hbelow fun hnot => hnot ⟨copy, removal⟩
  | notCopied renames copy error outside =>
    obtain ⟨error, rfl, hmessage⟩ := error
    refine .inl ⟨error, after, rfl, ⟨renames, .inr fun hdone => copy hdone.1⟩, hmessage,
      fun path _ hpath => outside path hpath, .notCopied hbelow copy fun rel => ?_⟩
    rw [show after _ = _ from outside _ (hmovable.apart.symm.not_below rel)]
    exact moved_source hbackup hsource houtside hbelow rel
  | rolledBack renames copy removal error left =>
    obtain ⟨error, rfl, hmessage⟩ := error
    exact .inl ⟨error, after, rfl, ⟨renames, .inr fun hdone => removal hdone.2⟩, hmessage,
      left.outside, .rolledBack hbelow copy left⟩

end

/-! ## What is lost -/

/-- The previous destination stays in a place that no message names. -/
def LosesDestination (faults : Faults) (names : List Text) (fuel : ℕ) (files : Files)
    (src dst backup : Path) : Prop :=
  ¬Restored faults names fuel src dst backup files ∧
    ∃ rel entry, entry ≠ .dir ∧ files (dst ++ rel) = some entry ∧
      beforeRestore faults names fuel src dst (files.move dst backup) (dst ++ rel) ≠ some entry

/-- A file is taken from the source, and its copy makes way for the previous destination or is taken
too. -/
def LosesSource (faults : Faults) (names : List Text) (fuel : ℕ) (files : Files)
    (src dst backup : Path) : Prop :=
  ¬dst <+: src ∧ CopyDone faults (files.move dst backup) src dst ∧
    ∃ rel entry, entry ≠ .dir ∧ files (src ++ rel) = some entry ∧
      takes faults .source (files src) (src ++ rel) = true ∧
      ((Restored faults names fuel src dst backup files ∧ files (dst ++ rel) ≠ some entry) ∨
        (¬Restored faults names fuel src dst backup files ∧
          (takes faults .rollback (files src) (dst ++ rel) = true ∨
            takesIfExists faults .partialTarget
              (if takes faults .rollback (files src) dst then none else files src)
              (dst ++ rel) = true)))

/-- A move that replaces its destination loses a file. -/
def ReplacingLoses (faults : Faults) (names : List Text) (fuel pid sequence : ℕ) (files : Files)
    (src dst : Path) : Prop :=
  ¬Renames faults names .directRename src dst files ∧
    ∃ backup, resourceBackupPath faults pid files dst 1000 sequence = .ok backup ∧
      Renames faults names .backupRename dst backup files ∧
      AcrossFails faults names (files.move dst backup) src dst ∧
      (LosesDestination faults names fuel files src dst backup ∨
        LosesSource faults names fuel files src dst backup)

/-- What the failed replacement leaves. -/
structure FinalFiles (faults : Faults) (names : List Text) (fuel : ℕ) (files : Files)
    (src dst backup : Path) (after final : Files) : Prop where
  restored : Restored faults names fuel src dst backup files → ∀ rel,
    final (dst ++ rel) = files (dst ++ rel)
  stuck : ¬Restored faults names fuel src dst backup files →
    final = beforeRestore faults names fuel src dst (files.move dst backup)
  left : ∀ rel, beforeRestore faults names fuel src dst (files.move dst backup) (dst ++ rel) =
    if takesIfExists faults .partialTarget (after dst) (dst ++ rel) then none else after (dst ++ rel)
  source : ¬dst <+: src → ∀ rel, final (src ++ rel) = after (src ++ rel)

variable {disk} {fuel : ℕ} {after final : Files}

theorem FinalFiles.keeps_destination
    (h : FinalFiles faults names fuel files src dst backup after final) :
    FilesAt files final dst dst ↔ ¬LosesDestination faults names fuel files src dst backup := by
  by_cases hrestored : Restored faults names fuel src dst backup files
  · refine iff_of_true (fun rel entry _ hentry => ?_) fun hlost => hlost.1 hrestored
    rw [h.restored hrestored, hentry]
  · rw [h.stuck hrestored]
    constructor
    · rintro hkept ⟨-, rel, entry, hleaf, hentry, hnot⟩
      exact hnot (hkept rel entry hleaf hentry)
    · intro hnot rel entry hleaf hentry
      by_contra hmissing
      exact hnot ⟨hrestored, rel, entry, hleaf, hentry, hmissing⟩

/-- One file of a source whose copy has been rolled back. -/
theorem FinalFiles.lost_iff (h : FinalFiles faults names fuel files src dst backup after final)
    (hapart : ¬dst <+: src) {rel : Path} {entry : Entry} (hentry : files (src ++ rel) = some entry)
    (hsource : ∀ rel, files.move dst backup (src ++ rel) = files (src ++ rel))
    (hleft : RolledBack faults (files.move dst backup) src dst after) :
    (final (src ++ rel) = some entry ∨ final (dst ++ rel) = some entry) ↔
      ¬(takes faults .source (files src) (src ++ rel) = true ∧
        ((Restored faults names fuel src dst backup files ∧ files (dst ++ rel) ≠ some entry) ∨
          (¬Restored faults names fuel src dst backup files ∧
            (takes faults .rollback (files src) (dst ++ rel) = true ∨ takesIfExists faults .partialTarget
                (if takes faults .rollback (files src) dst then none else files src)
                (dst ++ rel) = true)))) := by
  have hroot : files.move dst backup src = files src := by
    have hsame := hsource []
    rwa [append_nil] at hsame
  have hdst := hleft.target []
  rw [append_nil, append_nil, hroot] at hdst
  rw [h.source hapart, hleft.source, hroot, hsource, hentry]
  by_cases hrestored : Restored faults names fuel src dst backup files
  · rw [h.restored hrestored]
    simp only [hrestored, not_true_eq_false, false_and, or_false, true_and]
    cases takes faults .source (files src) (src ++ rel) <;> simp
  · rw [h.stuck hrestored, h.left, hdst, hleft.target, hroot, hsource, hentry]
    simp only [hrestored, not_false_eq_true, false_and, false_or, true_and]
    cases takes faults .source (files src) (src ++ rel) <;>
      cases takes faults .rollback (files src) (dst ++ rel) <;>
      cases takesIfExists faults .partialTarget
        (if takes faults .rollback (files src) dst then none else files src) (dst ++ rel) <;> simp

/-- Every file of the source is in one of the two places. -/
def SourceAt (before after : Files) (src dst : Path) : Prop :=
  ∀ rel entry, entry ≠ .dir → before (src ++ rel) = some entry →
    after (src ++ rel) = some entry ∨ after (dst ++ rel) = some entry

theorem FinalFiles.keeps_iff (h : FinalFiles faults names fuel files src dst backup after final)
    (hleft : AcrossLeft faults files src dst backup after)
    (hsource : ¬dst <+: src → ∀ rel, files.move dst backup (src ++ rel) = files (src ++ rel)) :
    (SourceAt files final src dst ∧ FilesAt files final dst dst) ↔
      ¬(LosesDestination faults names fuel files src dst backup ∨
        LosesSource faults names fuel files src dst backup) := by
  rw [not_or, ← h.keeps_destination, and_comm, and_congr_right_iff]
  intro hdestination
  cases hleft with
  | inside below gone =>
    refine iff_of_true (fun rel entry hleaf hentry => .inl ?_) fun hlost => hlost.1 below
    obtain ⟨rest, rfl⟩ := below
    rw [append_assoc] at hentry ⊢
    exact hdestination _ _ hleaf hentry
  | notCopied apart copy source =>
    refine iff_of_true (fun rel entry _ hentry => .inl ?_) fun hlost => copy hlost.2.1
    rw [h.source apart, source, hentry]
  | rolledBack apart copy left =>
    constructor
    · rintro hkept ⟨-, -, rel, entry, hleaf, hentry, hlost⟩
      exact (h.lost_iff apart hentry (hsource apart) left).mp (hkept rel entry hleaf hentry) hlost
    · intro hnot rel entry hleaf hentry
      refine (h.lost_iff apart hentry (hsource apart) left).mpr fun hlost => ?_
      exact hnot ⟨apart, copy, rel, entry, hleaf, hentry, hlost⟩

/-- The move has failed beside the backup, and the destination is put back if that is possible. -/
theorem restoreDestination_final (faults : Faults) {moveError : Message}
    (hbackup : BackupOf disk.files dst backup) (hsource : (disk.files src).isSome = true)
    (houtside : ¬src <+: dst)
    (hacross : moveResourceAcrossRoots faults disk.names (disk.depth + 1) src dst
      (disk.files.move dst backup) = (.error moveError, after)) (hmessage : Within src dst moveError)
    (hother : ∀ path, ¬src <+: path → ¬dst <+: path → after path = disk.files.move dst backup path) :
    ∃ error final, restoreDestination faults disk.names src dst backup moveError after =
        (.error error, final) ∧ Within src dst error ∧
      FinalFiles faults disk.names (disk.depth + 1) disk.files src dst backup after final := by
  have hbefore : beforeRestore faults disk.names (disk.depth + 1) src dst
      (disk.files.move dst backup) =
      after.prune dst (takesIfExists faults .partialTarget (after dst)) := by
    unfold beforeRestore
    rw [hacross]
  have hsrc := hbackup.apart_source disk.closed hsource houtside
  obtain ⟨error, herror, hwithin, hrestored, hstuck⟩ :=
    restoreDestination_leaves faults disk.names backup hmessage after
  rcases hresult : restoreDestination faults disk.names src dst backup moveError after with
    ⟨result, final⟩
  rw [hresult] at herror hrestored hstuck
  obtain rfl : result = _ := herror
  simp only at hrestored hstuck
  refine ⟨error, final, rfl, hwithin, ?_, ?_, ?_, ?_⟩
  · intro hrenames rel
    unfold Restored at hrenames
    rw [hbefore] at hrenames
    rw [hrestored hrenames, move_target,
      prune_other (hbackup.apart.not_below rel),
      hother _ (hsrc.not_below rel) (hbackup.apart.not_below rel), move_target]
  · intro hnot
    unfold Restored at hnot
    rw [hbefore] at hnot ⊢
    exact hstuck hnot
  · intro rel
    rw [hbefore, prune_below]
  · intro hapart rel
    have hdst : ¬dst <+: src ++ rel := PathsApart.not_below ⟨hapart, houtside⟩ rel
    by_cases hrenames : Renames faults disk.names .restoreRename backup dst
      (after.prune dst (takesIfExists faults .partialTarget (after dst)))
    · rw [hrestored hrenames, move_other (hsrc.symm.not_below rel) hdst,
        prune_other hdst]
    · rw [hstuck hrenames, prune_other hdst]

/-! ## The claim -/

theorem keepsData_of_unchanged (backup : Except Message Path) (error : Message) :
    KeepsData files src dst backup (.error error, files) :=
  fun _ _ => ⟨fun _ _ _ hentry => .inl hentry, .inl fun _ _ _ hentry => hentry⟩

theorem keepsData_replacing_iff (faults : Faults) (disk : Disk) (pid sequence : ℕ)
    (hsource : (disk.files src).isSome = true) (houtside : ¬src <+: dst) :
    KeepsData disk.files src dst (resourceBackupPath faults pid disk.files dst 1000 sequence)
        (moveResourceReplacing faults disk.names (disk.depth + 1) pid sequence src dst disk.files) ↔
      ¬ReplacingLoses faults disk.names (disk.depth + 1) pid sequence disk.files src dst := by
  by_cases hdirect : Renames faults disk.names .directRename src dst disk.files
  · unfold moveResourceReplacing
    rw [rename_of_renames hdirect]
    exact iff_of_true nofun fun hlost => hlost.1 hdirect
  obtain ⟨directError, hrename, -⟩ := rename_of_not_renames hdirect
  unfold moveResourceReplacing
  simp only [hrename]
  rcases hallocated : resourceBackupPath faults pid disk.files dst 1000 sequence with error | backup
  · refine iff_of_true (keepsData_of_unchanged _ error) ?_
    rintro ⟨-, backup, hbackup, -⟩
    cases hallocated.symm.trans hbackup
  have hbackup := resourceBackupPath_ok hallocated
  by_cases hpreserved : Renames faults disk.names .backupRename dst backup disk.files
  swap
  · obtain ⟨backupError, hrename, -⟩ := rename_of_not_renames hpreserved
    simp only [hrename]
    refine iff_of_true (keepsData_of_unchanged _ _) ?_
    rintro ⟨-, other, hother, hrenames, -⟩
    cases hallocated.symm.trans hother
    exact hpreserved hrenames
  simp only [rename_of_renames hpreserved]
  obtain ⟨moveError, after, hacross, hfails, hmessage, hother, hleft⟩ | ⟨after, hacross, hworks⟩ :=
    moveResourceAcrossRoots_moved hbackup hsource houtside faults
  · obtain ⟨error, final, hrestore, hwithin, hfinal⟩ :=
      restoreDestination_final faults hbackup hsource houtside hacross hmessage hother
    simp only [hacross, hrestore]
    have hlost : ReplacingLoses faults disk.names (disk.depth + 1) pid sequence disk.files src dst ↔
        LosesDestination faults disk.names (disk.depth + 1) disk.files src dst backup ∨
          LosesSource faults disk.names (disk.depth + 1) disk.files src dst backup := by
      refine ⟨?_, fun hlost => ⟨hdirect, backup, hallocated, hpreserved, hfails, hlost⟩⟩
      rintro ⟨-, other, hother, -, -, hlost⟩
      cases hallocated.symm.trans hother
      exact hlost
    rw [hlost, ← hfinal.keeps_iff hleft (moved_source hbackup hsource houtside)]
    constructor
    · intro hkept
      obtain ⟨hsourceKept, hdestination⟩ := hkept error rfl
      refine ⟨hsourceKept, hdestination.resolve_right ?_⟩
      rintro ⟨path, heq, hnamed, -⟩
      cases heq
      exact hbackup.not_named disk.closed hsource houtside hwithin hnamed
    · rintro ⟨hsourceKept, hdestination⟩ _ _
      exact ⟨hsourceKept, .inl hdestination⟩
  · simp only [hacross]
    refine iff_of_true nofun ?_
    rintro ⟨-, other, hother, -, hfails, -⟩
    cases hallocated.symm.trans hother
    exact hworks hfails

theorem movable_disk (disk : Disk) (hsource : (disk.files src).isSome = true)
    (houtside : ¬src <+: dst) (habsent : disk.files dst = none) :
    Movable disk.names (disk.depth + 1) disk.files src dst where
  nodup := disk.nodup
  apart := by
    refine ⟨houtside, ?_⟩
    rintro ⟨rest, rfl⟩
    rw [disk.closed.none_below habsent rest] at hsource
    cases hsource
  source := disk.source src
  exists_source := hsource
  depth := disk.depth_below src
  absent := disk.closed.none_below habsent

/-- A directory `s` with the files `a` and `b`. -/
def noteFiles : Files := fun path =>
  if path = [] ∨ path = [['s']] then some .dir
  else if path = [['s'], ['a']] then some (.file [1])
  else if path = [['s'], ['b']] then some (.file [2])
  else none

theorem noteFiles_cases {path : Path} (h : (noteFiles path).isSome = true) :
    path = [] ∨ path = [['s']] ∨ path = [['s'], ['a']] ∨ path = [['s'], ['b']] := by
  unfold noteFiles at h
  split_ifs at h with hdir ha hb
  · exact hdir.imp_right .inl
  · exact .inr (.inr (.inl ha))
  · exact .inr (.inr (.inr hb))
  · cases h

theorem noteFiles_parent {path : Path} {name : Text} (h : (noteFiles (path ++ [name])).isSome = true) :
    (path = [] ∧ name = ['s']) ∨ (path = [['s']] ∧ (name = ['a'] ∨ name = ['b'])) := by
  have hsplit {dir : Path} {other : Text} (heq : path ++ [name] = dir ++ [other]) :
      path = dir ∧ name = other := by
    obtain ⟨hdir, hname⟩ := append_inj' heq rfl
    exact ⟨hdir, (List.cons.inj hname).1⟩
  rcases noteFiles_cases h with heq | heq | heq | heq
  · exact absurd heq (append_ne_nil_of_right_ne_nil _ (cons_ne_nil _ _))
  · exact .inl (hsplit heq)
  · exact .inr ((hsplit heq).imp_right .inl)
  · exact .inr ((hsplit heq).imp_right .inr)

def notesDisk : Disk where
  files := noteFiles
  names := [['s'], ['a'], ['b']]
  depth := 2
  closed path name h := by
    obtain ⟨rfl, -⟩ | ⟨rfl, -⟩ := noteFiles_parent h <;> rfl
  nodup := by decide
  named path name h := by
    obtain ⟨-, rfl⟩ | ⟨-, rfl | rfl⟩ := noteFiles_parent h <;> decide
  bounded path h := by
    obtain rfl | rfl | rfl | rfl := noteFiles_cases h <;> decide

/-- Renaming is refused, and so is the removal of the source, which takes some entries. -/
def crossDevice (gone : Path → Bool) : Faults := fun call =>
  if call = .acrossRename then .refused "Invalid cross-device link (os error 18)".toList none
    fun _ => false
  else if call = .remove .source then .refused "Permission denied (os error 13)".toList none gone
  else .done

end Taomni.Workspace
