import Taomni.Workspace.ResourceCopy

/-!
# Moves that fail

What a failed move leaves of the source and of the previous destination. Files are lost where the
source has been copied, its removal fails half way and the copies are removed to roll the move back;
and a previous destination that cannot be put back is in a place that the error does not name
(`move_keeps_data_iff`).

Reference: `src-tauri/src/workspace/resource_operations.rs`, `move_resource_replacing` and
`move_resource_across_roots`.
-/

namespace Taomni.Workspace

theorem Within.symm {src dst : Path} {message : Message} (h : Within src dst message) :
    Within dst src message :=
  fun path hpath => (h path hpath).symm

variable {faults : Faults} {names : List Text} {files : Files} {src dst : Path}

/-! ## Renames and removals -/

/-- The rename is neither refused nor impossible. -/
def Renames (faults : Faults) (names : List Text) (call : Call) (src dst : Path) (files : Files) :
    Prop :=
  refusal faults call = none ∧ canRename names files src dst = true

theorem rename_of_renames {call : Call} (h : Renames faults names call src dst files) :
    rename faults names call src dst files = (.ok (), files.move src dst) := by
  unfold rename
  rw [h.1]
  exact if_pos h.2

/-- A rename that fails names no path. -/
theorem rename_of_not_renames {call : Call} (h : ¬Renames faults names call src dst files) :
    ∃ error, rename faults names call src dst files = (.error error, files) ∧
      ∀ a b, Within a b error := by
  unfold rename
  cases hcall : refusal faults call with
  | some error => exact ⟨osError error, rfl, fun _ _ => .text _ .nil⟩
  | none => exact ⟨osError notPermitted, if_neg fun hcan => h ⟨hcall, hcan⟩, fun _ _ => .text _ .nil⟩

theorem canRename_source (h : canRename names files src dst = true) : (files src).isSome = true := by
  unfold canRename at h
  rw [Bool.and_eq_true] at h
  cases hsrc : files src with
  | none =>
    rw [hsrc] at h
    exact absurd h.2 nofun
  | some entry => rfl

theorem removeResourceTarget_snd (faults : Faults) (site : Removal) (target : Path) (files : Files) :
    (removeResourceTarget faults site target files).2 =
      files.prune target (takes faults site (files target)) := by
  unfold removeResourceTarget
  dsimp only
  split
  · rfl
  · rfl
  · split <;> rfl

/-- Neither of the calls of a removal is refused. -/
def RemovalDone (faults : Faults) (site : Removal) : Prop :=
  refusal faults (.removeStat site) = none ∧ refusal faults (.remove site) = none

theorem removeResourceTarget_fst (faults : Faults) (site : Removal) {target : Path}
    (hexists : (files target).isSome = true) :
    ((removeResourceTarget faults site target files).1 = .ok () ↔ RemovalDone faults site) ∧
      ∀ error src, (removeResourceTarget faults site target files).1 = .error error →
        Within src target error := by
  obtain ⟨root, hroot⟩ := Option.isSome_iff_exists.mp hexists
  unfold removeResourceTarget RemovalDone
  rw [hroot]
  cases hstat : refusal faults (.removeStat site) with
  | some error =>
    refine ⟨⟨nofun, fun h => absurd h.1 nofun⟩, fun e src he => ?_⟩
    cases he
    exact .text _ (.target (.text _ (.text _ .nil)))
  | none =>
    cases hremove : refusal faults (.remove site) with
    | some error =>
      refine ⟨⟨nofun, fun h => absurd h.2 nofun⟩, fun e src he => ?_⟩
      cases he
      exact .text _ (.target (.text _ (.text _ .nil)))
    | none => exact ⟨iff_of_true rfl ⟨rfl, rfl⟩, nofun⟩

theorem removeResourceTarget_message (site : Removal) {target : Path} {error : Message}
    (h : (removeResourceTarget faults site target files).1 = .error error) (src : Path) :
    Within src target error := by
  cases hroot : files target with
  | some root => exact (removeResourceTarget_fst faults site (hroot ▸ rfl)).2 error src h
  | none =>
    unfold removeResourceTarget at h
    rw [hroot] at h
    cases hstat : refusal faults (.removeStat site) <;> rw [hstat] at h <;> cases h <;>
      exact .text _ (.target (.text _ (.text _ .nil)))

/-- What a removal that is only tried where something is takes. -/
def takesIfExists (faults : Faults) (site : Removal) (root : Option Entry) (path : Path) : Bool :=
  (refusal faults (.probe site)).isNone && takes faults site root path

theorem removeIfExists_spec (faults : Faults) (site : Removal) (target : Path) (failed inspected : Text)
    (files : Files) (src : Path) : (removeIfExists faults site target failed inspected files).2 =
      files.prune target (takesIfExists faults site (files target)) ∧
    Within src target (removeIfExists faults site target failed inspected files).1 := by
  have hkept {gone : Path → Bool} (hgone : ∀ path, gone path = false) : files.prune target gone = files := by
    funext path
    unfold PathTree.prune
    rw [hgone path, Bool.and_false]
    rfl
  unfold removeIfExists resourceTargetExists takesIfExists
  cases hprobe : refusal faults (.probe site) with
  | some error =>
    refine ⟨(hkept fun _ => rfl).symm, .text _ (.text _ (.target (.text _ (.text _ .nil))))⟩
  | none =>
    cases hroot : files target with
    | none =>
      refine ⟨(hkept fun _ => ?_).symm, .nil⟩
      unfold takes
      cases faults (.removeStat site) <;> rfl
    | some root =>
      have hsnd := removeResourceTarget_snd faults site target files
      rw [hroot] at hsnd
      rcases hremove : removeResourceTarget faults site target files with ⟨error | ⟨⟩, after⟩ <;>
        rw [hremove] at hsnd
      · have hmessage := removeResourceTarget_message site (congrArg Prod.fst hremove) src
        simp only [Option.isSome_some]
        exact ⟨hsnd, .text _ hmessage⟩
      · simp only [Option.isSome_some]
        exact ⟨hsnd, .nil⟩

/-! ## Moves across roots -/

/-- The source is a finite tree beside the destination, where nothing is. -/
structure Movable (names : List Text) (fuel : ℕ) (files : Files) (src dst : Path) : Prop where
  nodup : names.Nodup
  apart : PathsApart src dst
  source : Source names files src
  exists_source : (files src).isSome = true
  depth : ∀ rel, (files (src ++ rel)).isSome = true → rel.length < fuel
  absent : ∀ rel, files (dst ++ rel) = none

/-- The copy of the source comes to its end. -/
def CopyDone (faults : Faults) (files : Files) (src dst : Path) : Prop :=
  isFree files dst = true ∧ Copies faults files src dst

/-- What a move leaves that has copied the source and not removed it. -/
structure RolledBack (faults : Faults) (files : Files) (src dst : Path) (after : Files) : Prop where
  source : ∀ rel, after (src ++ rel) =
    if takes faults .source (files src) (src ++ rel) then none else files (src ++ rel)
  target : ∀ rel, after (dst ++ rel) =
    if takes faults .rollback (files src) (dst ++ rel) then none else files (src ++ rel)
  outside : ∀ path, ¬src <+: path → ¬dst <+: path → after path = files path

/-- The ways in which a move across roots ends. -/
inductive AcrossEnds (faults : Faults) (names : List Text) (files : Files) (src dst : Path)
    (result : Except Message Unit × Files) : Prop where
  | renamed (renames : Renames faults names .acrossRename src dst files) (ok : result.1 = .ok ())
  | notCopied (renames : ¬Renames faults names .acrossRename src dst files)
      (copy : ¬CopyDone faults files src dst)
      (error : ∃ error, result.1 = .error error ∧ Within src dst error)
      (outside : ∀ path, ¬dst <+: path → result.2 path = files path)
  | moved (copy : CopyDone faults files src dst) (removal : RemovalDone faults .source)
      (ok : result.1 = .ok ())
  | rolledBack (renames : ¬Renames faults names .acrossRename src dst files)
      (copy : CopyDone faults files src dst) (removal : ¬RemovalDone faults .source)
      (error : ∃ error, result.1 = .error error ∧ Within src dst error)
      (left : RolledBack faults files src dst result.2)

theorem moveResourceAcrossRoots_ends (faults : Faults) {fuel : ℕ}
    (h : Movable names fuel files src dst) : AcrossEnds faults names files src dst
      (moveResourceAcrossRoots faults names fuel src dst files) := by
  have hcopy := copyResourceTarget_leaves faults h.nodup fuel h.apart h.source
    h.exists_source h.depth h.absent
  by_cases hrenames : Renames faults names .acrossRename src dst files
  · refine .renamed hrenames ?_
    unfold moveResourceAcrossRoots
    rw [rename_of_renames hrenames]
  obtain ⟨renameError, hrename, hrenameError⟩ := rename_of_not_renames hrenames
  have hmoving : Within src dst [.text "move ".toList, .path src, .text " -> ".toList, .path dst,
      .text ": ".toList] := .text _ (.source (.text _ (.target (.text _ .nil))))
  rcases hcopied : copyResourceTarget faults names fuel src dst files with
    ⟨copyError | ⟨⟩, after⟩ <;> rw [hcopied] at hcopy
  · obtain ⟨hafter, hmessage⟩ := removeIfExists_spec faults .cleanup dst
      "; partial destination cleanup failed: ".toList
      "; partial destination inspection failed: ".toList after src
    unfold moveResourceAcrossRoots
    simp only [hrename, hcopied]
    refine .notCopied hrenames (fun hdone => absurd (hcopy.ok_iff.mpr hdone) nofun) ⟨_, rfl, ?_⟩
      fun path hpath => ?_
    · exact ((hmoving.append (hrenameError _ _)).append (.text _ .nil)).append
        (hcopy.message copyError rfl) |>.append hmessage
    · rw [hafter, PathTree.prune_other hpath]
      exact hcopy.outside path hpath
  · have hsame (rel : Path) : after (src ++ rel) = files (src ++ rel) :=
      hcopy.outside _ (h.apart.symm.not_below rel)
    have hroot : after src = files src := by
      have := hsame []
      rwa [List.append_nil] at this
    have hsource := removeResourceTarget_snd faults .source src after
    obtain ⟨hremoved, hremoveMessage⟩ := removeResourceTarget_fst faults .source
      (hroot ▸ h.exists_source)
    rcases hremove : removeResourceTarget faults .source src after with ⟨removeError | ⟨⟩, left⟩ <;>
      rw [hremove] at hsource hremoved hremoveMessage
    · -- the source is still there in part, and the copies are removed
      have hleft (path : Path) (hpath : ¬src <+: path) : left path = after path := by
        rw [show left = _ from hsource, PathTree.prune_other hpath]
      have hdst : left dst = files src := by
        have hcopied := hcopy.copied rfl []
        rw [List.append_nil, List.append_nil] at hcopied
        rw [hleft dst h.apart.left, show after dst = files src from hcopied]
      have hrollback := removeResourceTarget_snd faults .rollback dst left
      rw [hdst] at hrollback
      have hends : ∃ error, moveResourceAcrossRoots faults names fuel src dst files =
          (.error error, (removeResourceTarget faults .rollback dst left).2) ∧
          Within src dst error := by
        have hstart : Within src dst ([.text "move ".toList, .path src, .text " -> ".toList,
            .path dst, .text ": ".toList] ++ [.text "source cleanup failed: ".toList] ++
            removeError) := by
          refine (hmoving.append (.text _ .nil)).append ?_
          exact (hremoveMessage removeError dst rfl).symm
        unfold moveResourceAcrossRoots
        simp only [hrename, hcopied, hremove]
        rcases hroll : removeResourceTarget faults .rollback dst left with ⟨error | ⟨⟩, final⟩
        · refine ⟨_, rfl, (hstart.append (.text _ .nil)).append ?_⟩
          exact removeResourceTarget_message .rollback (congrArg Prod.fst hroll) src
        · exact ⟨_, rfl, hstart⟩
      obtain ⟨error, heq, hmessage⟩ := hends
      rw [heq]
      refine .rolledBack hrenames (hcopy.ok_iff.mp rfl) (fun h => absurd (hremoved.mpr h) nofun)
        ⟨error, rfl, hmessage⟩ ⟨fun rel => ?_, fun rel => ?_, fun path hsrc hdst => ?_⟩
      · rw [hrollback, PathTree.prune_other (h.apart.symm.not_below rel),
          show left = _ from hsource, PathTree.prune_below, hroot, hsame]
      · rw [hrollback, PathTree.prune_below, hleft _ (h.apart.not_below rel)]
        exact congrArg (ite _ none) (hcopy.copied rfl rel)
      · rw [hrollback, PathTree.prune_other hdst, hleft path hsrc]
        exact hcopy.outside path hdst
    · refine .moved (hcopy.ok_iff.mp rfl) (hremoved.mp rfl) ?_
      unfold moveResourceAcrossRoots
      simp only [hrename, hcopied, hremove]

/-! ## Nothing is lost -/

/-- Every file below the path has its content at the other place. -/
def FilesAt (before after : Files) (path place : Path) : Prop :=
  ∀ rel entry, entry ≠ .dir → before (path ++ rel) = some entry →
    after (place ++ rel) = some entry

/-- What a failed move must leave: every file of the source at its path or at the destination, and the
files of the previous destination there or at a backup that the error names. -/
structure DataKept (before after : Files) (src dst : Path) (backup : Except Message Path)
    (error : Message) : Prop where
  source : ∀ rel entry, entry ≠ .dir → before (src ++ rel) = some entry →
    after (src ++ rel) = some entry ∨ after (dst ++ rel) = some entry
  destination : FilesAt before after dst dst ∨ ∃ path, backup = .ok path ∧ .path path ∈ error ∧
    FilesAt before after dst path

/-- A move that fails keeps the data. -/
def KeepsData (before : Files) (src dst : Path) (backup : Except Message Path)
    (result : Except Message Unit × Files) : Prop :=
  ∀ error, result.1 = .error error → DataKept before result.2 src dst backup error

/-- A move across roots loses a file: it is taken from the source and then from the copy. -/
def AcrossLoses (faults : Faults) (names : List Text) (files : Files) (src dst : Path) : Prop :=
  ¬Renames faults names .acrossRename src dst files ∧ CopyDone faults files src dst ∧
    ¬RemovalDone faults .source ∧ ∃ rel entry, entry ≠ .dir ∧ files (src ++ rel) = some entry ∧
      takes faults .source (files src) (src ++ rel) = true ∧
      takes faults .rollback (files src) (dst ++ rel) = true

/-- Where the source is rolled back, what matters is what both removals have taken. -/
theorem RolledBack.lost_iff {after : Files} (h : RolledBack faults files src dst after) (rel : Path)
    {entry : Entry} (hentry : files (src ++ rel) = some entry) :
    (after (src ++ rel) = some entry ∨ after (dst ++ rel) = some entry) ↔
      ¬(takes faults .source (files src) (src ++ rel) = true ∧
        takes faults .rollback (files src) (dst ++ rel) = true) := by
  rw [h.source, h.target, hentry]
  cases takes faults .source (files src) (src ++ rel) <;>
    cases takes faults .rollback (files src) (dst ++ rel) <;> simp

theorem keepsData_across_iff {fuel : ℕ} (h : Movable names fuel files src dst)
    (backup : Except Message Path) :
    KeepsData files src dst backup (moveResourceAcrossRoots faults names fuel src dst files) ↔
      ¬AcrossLoses faults names files src dst := by
  have hends := moveResourceAcrossRoots_ends faults h
  have hnone {after : Files} : FilesAt files after dst dst := by
    intro rel entry _ hentry
    rw [h.absent] at hentry
    cases hentry
  cases hends with
  | renamed renames ok =>
    refine iff_of_true (fun error herror => ?_) fun hlost => hlost.1 renames
    rw [ok] at herror
    cases herror
  | moved copy removal ok =>
    refine iff_of_true (fun error herror => ?_) fun hlost => hlost.2.2.1 removal
    rw [ok] at herror
    cases herror
  | notCopied renames copy error outside =>
    refine iff_of_true (fun error _ => ⟨fun rel entry _ hentry => .inl ?_, .inl hnone⟩) fun hlost =>
      copy hlost.2.1
    rw [outside _ (h.apart.symm.not_below rel), hentry]
  | rolledBack renames copy removal error left =>
    obtain ⟨error, herror, -⟩ := error
    constructor
    · rintro hkept ⟨-, -, -, rel, entry, hleaf, hentry, htaken⟩
      exact (left.lost_iff rel hentry).mp ((hkept error herror).source rel entry hleaf hentry) htaken
    · intro hnot other _
      refine ⟨fun rel entry hleaf hentry => ?_, .inl hnone⟩
      refine (left.lost_iff rel hentry).mpr fun htaken => ?_
      exact hnot ⟨renames, copy, removal, rel, entry, hleaf, hentry, htaken⟩

end Taomni.Workspace
