import Taomni.Common.Lists
import Taomni.Rdp.RemoteFiles

/-!
# Names of the remote clipboard

A name is staged below its trimmed components, and reported by its first component as it was sent.

Reference: `src-tauri/src/rdp/session/clipboard/remote_files.rs`, `build_remote_file_transfer`,
`remote_clipboard_safe_path` and `remote_top_level_name`.
-/

namespace Taomni.RdpClipboard

open List
open Agent (trim trim_trim trim_inside)

/-- A component that names an entry of the directory it is in. -/
structure Proper (part : Text) : Prop where
  ne_nil : part ≠ []
  ne_dot : part ≠ ['.']
  ne_parent : part ≠ ['.', '.']
  plain : ∀ c ∈ part, separator c = false ∧ c ≠ ':'

/-- The staged paths are distinct and below the directory, and the names at its top are reported, each once. -/
structure Truthful (t : RemoteFileTransfer) : Prop where
  below : ∀ file ∈ t.files, file.path ≠ [] ∧ ∀ part ∈ file.path, Proper part
  distinct : (t.files.map (·.path)).Nodup
  staged : ∀ name ∈ t.topLevel, ∃ file ∈ t.files, file.path.head? = some name
  covered : ∀ file ∈ t.files, t.topLevel.countP (fun name => file.path.head? = some name) = 1

/-- The first component that is neither blank nor `.` has no blank at its ends. -/
def TightStart (name : Text) : Prop :=
  ∀ front part rest, name.splitOnP separator = front ++ part :: rest →
    (∀ p ∈ front, trim p = [] ∨ p = ['.']) → trim part = [] ∨ trim part = part

/-! ## One name -/

variable {path : List Text} {name : Text}

theorem safePath_spec (h : remoteClipboardSafePath name = some path) :
    path = ((name.splitOnP separator).map trim).filter (fun part => !(part.isEmpty || part = ['.'])) ∧
      path ≠ [] ∧ ∀ part ∈ path, part ≠ ['.', '.'] ∧ ':' ∉ part := by
  unfold remoteClipboardSafePath at h
  dsimp only at h
  split at h
  · cases h
  · next hunsafe =>
    split at h
    · cases h
    · next hempty =>
      cases h
      refine ⟨rfl, fun hnil => hempty (List.isEmpty_iff.mpr hnil), fun part hpart => ?_⟩
      simp only [any_eq_true, not_exists, not_and, Bool.or_eq_true, decide_eq_true_eq, not_or,
        contains_iff_mem] at hunsafe
      exact hunsafe part hpart

theorem proper_of_mem (h : remoteClipboardSafePath name = some path) {part : Text}
    (hpart : part ∈ path) : Proper part ∧ trim part = part := by
  obtain ⟨rfl, -, hsafe⟩ := safePath_spec h
  obtain ⟨hparent, hcolon⟩ := hsafe part hpart
  obtain ⟨hmem, hkept⟩ := mem_filter.mp hpart
  obtain ⟨piece, hpiece, rfl⟩ := mem_map.mp hmem
  simp only [Bool.not_eq_true', Bool.or_eq_false_iff, isEmpty_eq_false_iff, decide_eq_false_iff_not] at hkept
  refine ⟨⟨hkept.1, hkept.2, hparent, fun c hc => ⟨?_, fun hce => hcolon (hce ▸ hc)⟩⟩, trim_trim piece⟩
  exact (mem_of_mem_splitOnP hpiece c ((trim_inside piece).subset hc)).2

/-- Before the reported component there are only components that are not staged. -/
theorem topLevelName_split (h : remoteClipboardSafePath name = some path) :
    ∃ front top rest, name.splitOnP separator = front ++ top :: rest ∧ (∀ p ∈ front, trim p = [] ∨ p = ['.']) ∧
      trim top ≠ [] ∧ top ≠ ['.'] ∧ remoteTopLevelName name = some top := by
  have hpath := (safePath_spec h).1
  have hparent (p : Text) (hp : p ∈ name.splitOnP separator) : p ≠ ['.', '.'] := by
    rintro rfl
    refine ((safePath_spec h).2.2 ['.', '.'] ?_).1 rfl
    rw [hpath]
    exact mem_filter.mpr ⟨mem_map_of_mem hp, rfl⟩
  obtain ⟨part, hpart⟩ := exists_mem_of_ne_nil path (safePath_spec h).2.1
  obtain ⟨hmem, hkept⟩ := mem_filter.mp (hpath ▸ hpart)
  obtain ⟨piece, hpiece, rfl⟩ := mem_map.mp hmem
  simp only [Bool.not_eq_true', Bool.or_eq_false_iff, isEmpty_eq_false_iff, decide_eq_false_iff_not] at hkept
  have hfound : (remoteTopLevelName name).isSome := by
    refine find?_isSome.mpr ⟨piece, hpiece, ?_⟩
    have hdot : piece ≠ ['.'] := by
      rintro rfl
      exact hkept.2 rfl
    simp [hkept.1, hdot, hparent piece hpiece]
  obtain ⟨top, htop⟩ := Option.isSome_iff_exists.mp hfound
  obtain ⟨hok, front, rest, hsplit, hfront⟩ := find?_eq_some_iff_append.mp htop
  simp only [Bool.and_eq_true, Bool.not_eq_true', isEmpty_eq_false_iff, decide_eq_true_eq] at hok
  refine ⟨front, top, rest, hsplit, fun p hp => ?_, hok.1.1, hok.1.2, htop⟩
  have hskipped := hfront p hp
  have hp' := hparent p (hsplit ▸ mem_append_left _ hp)
  simp only [hp', ne_eq, not_false_eq_true, decide_true, Bool.and_true, Bool.not_and, Bool.not_not,
    Bool.or_eq_true, List.isEmpty_iff, Bool.not_eq_true', decide_eq_false_iff_not, not_not] at hskipped
  exact hskipped

/-- The reported component is the first one of the path, unless it was trimmed there. -/
theorem topLevelName_eq (h : remoteClipboardSafePath name = some path) :
    ∃ top, remoteTopLevelName name = some top ∧ (TightStart name → path.head? = some top) ∧
      (trim top = top → TightStart name) := by
  obtain ⟨front, top, rest, hsplit, hfront, hblank, hdot, htop⟩ := topLevelName_split h
  refine ⟨top, htop, fun htight => ?_, fun htrim front' part rest' hsplit' hfront' => ?_⟩
  · have htrim : trim top = top := (htight front top rest hsplit hfront).resolve_left hblank
    have hnone : (front.map trim).filter (fun part => !(part.isEmpty || part = ['.'])) = [] := by
      refine filter_eq_nil_iff.mpr fun part hpart => ?_
      obtain ⟨p, hp, rfl⟩ := mem_map.mp hpart
      rcases hfront p hp with hp | rfl
      · simp [hp]
      · decide
    rw [(safePath_spec h).1, hsplit, map_append, filter_append, hnone, map_cons, htrim, nil_append,
      filter_cons_of_pos (by simpa [htrim ▸ hblank] using hdot), head?_cons]
  · -- The two components are the same one, or one of them is skipped.
    rcases append_eq_append_iff.mp (hsplit.symm.trans hsplit') with ⟨more, rfl, heq⟩ | ⟨more, rfl, heq⟩
    · cases more with
      | nil =>
        cases heq
        exact .inr htrim
      | cons first more =>
        cases heq
        exact ((hfront' top (mem_append_right _ mem_cons_self)).elim hblank hdot).elim
    · cases more with
      | nil =>
        cases heq
        exact .inr htrim
      | cons first more =>
        cases heq
        refine (hfront part (mem_append_right _ mem_cons_self)).imp_right ?_
        rintro rfl
        rfl

/-! ## The loop -/

theorem stageFile_names {s s' : Staged} {file : ListedFile} (h : stageFile s file = some s') :
    ∃ path, remoteClipboardSafePath file.name = some path ∧ path ∉ s.files.map (·.path) ∧
      s'.files.map (·.path) = s.files.map (·.path) ++ [path] ∧
      s'.topLevel = appendMissing s.topLevel (remoteTopLevelName file.name).toList := by
  obtain ⟨path, hpath, h⟩ := Option.bind_eq_some_iff.mp h
  refine ⟨path, hpath, ?_⟩
  dsimp only at h
  split at h
  · cases h
  · next hfresh =>
    split_ifs at h
    cases h
    refine ⟨fun hmem => hfresh ?_, map_append, ?_⟩
    · obtain ⟨earlier, hearlier, rfl⟩ := mem_map.mp hmem
      exact any_eq_true.mpr ⟨earlier, hearlier, decide_eq_true rfl⟩
    · cases remoteTopLevelName file.name with
      | none => rfl
      | some name => simp [appendMissing]

/-- The staged paths are those of the names, and the top is made of their first components. -/
theorem foldlM_stageFile {list : List ListedFile} {s s' : Staged} (h : list.foldlM stageFile s = some s')
    (hs : (s.files.map (·.path)).Nodup) : (s'.files.map (·.path)).Nodup ∧ s'.files.map (some ·.path) =
        s.files.map (some ·.path) ++ list.map (fun file => remoteClipboardSafePath file.name) ∧
      s'.topLevel = appendMissing s.topLevel (list.filterMap fun file => remoteTopLevelName file.name) := by
  induction list generalizing s with
  | nil =>
    cases h
    exact ⟨hs, (append_nil _).symm, rfl⟩
  | cons file list ih =>
    rw [foldlM_cons] at h
    obtain ⟨next, hnext, h⟩ := Option.bind_eq_some_iff.mp h
    obtain ⟨path, hpath, hfresh, hfiles, htop⟩ := stageFile_names hnext
    have hnodup : (next.files.map (·.path)).Nodup := by
      rw [hfiles]
      exact nodup_append.mpr ⟨hs, nodup_singleton path, by simpa using hfresh⟩
    have hsome := congrArg (map some) hfiles
    simp only [map_map, map_append, map_singleton, Function.comp_def] at hsome
    obtain ⟨hall, hpaths, hnames⟩ := ih h hnodup
    refine ⟨hall, ?_, ?_⟩
    · rw [hpaths, hsome, map_cons, hpath, append_assoc, singleton_append]
    · rw [hnames, htop, ← appendMissing_append]
      congr 1
      cases hname : remoteTopLevelName file.name <;> simp [hname]

theorem firstRequests_names (t : RemoteFileTransfer) (indexes : List ℕ) :
    (t.firstRequests indexes).1.files = t.files ∧ (t.firstRequests indexes).1.topLevel = t.topLevel := by
  induction indexes generalizing t with
  | nil => exact ⟨rfl, rfl⟩
  | cons index indexes ih => exact ih (t.nextRequest index 0).1

theorem build_names {list : List ListedFile} {t : RemoteFileTransfer} {requests : List FileContentsRequest}
    (h : buildRemoteFileTransfer list = some (t, requests)) : (t.files.map (·.path)).Nodup ∧
      t.files.map (some ·.path) = list.map (fun file => remoteClipboardSafePath file.name) ∧
      t.topLevel = appendMissing [] (list.filterMap fun file => remoteTopLevelName file.name) := by
  unfold buildRemoteFileTransfer at h
  split at h
  · cases h
  · obtain ⟨staged, hstaged, h⟩ := Option.bind_eq_some_iff.mp h
    have hnames := foldlM_stageFile hstaged nodup_nil
    obtain rfl : _ = t := congrArg Prod.fst (Option.some.inj h)
    rw [(firstRequests_names _ _).1, (firstRequests_names _ _).2]
    simpa using hnames

/-- A transfer is staged safely and reported as it is staged exactly when no name starts with a component that has
blanks at its ends. -/
theorem truthful_iff (list : List ListedFile) (t : RemoteFileTransfer) (requests : List FileContentsRequest)
    (h : buildRemoteFileTransfer list = some (t, requests)) :
    Truthful t ↔ ∀ file ∈ list, TightStart file.name := by
  obtain ⟨hnodup, hpaths, htop⟩ := build_names h
  have hlisted {file : RemoteClipboardFile} (hfile : file ∈ t.files) :
      ∃ listed ∈ list, remoteClipboardSafePath listed.name = some file.path :=
    mem_map.mp (hpaths ▸ mem_map_of_mem hfile)
  have hstaged {listed : ListedFile} (hl : listed ∈ list) :
      ∃ file ∈ t.files, remoteClipboardSafePath listed.name = some file.path := by
    obtain ⟨file, hfile, heq⟩ := mem_map.mp (hpaths.symm ▸ mem_map_of_mem hl)
    exact ⟨file, hfile, heq.symm⟩
  have hreported {name : Text} : name ∈ t.topLevel ↔ ∃ listed ∈ list, remoteTopLevelName listed.name = some name := by
    simp [htop]
  refine ⟨fun htruthful listed hl => ?_, fun htight => ?_⟩
  · obtain ⟨file, hfile, hpath⟩ := hstaged hl
    obtain ⟨top, hname, -, htrim⟩ := topLevelName_eq hpath
    obtain ⟨other, hother, hhead⟩ := htruthful.staged top (hreported.mpr ⟨listed, hl, hname⟩)
    obtain ⟨listed', -, hpath'⟩ := hlisted hother
    exact htrim (proper_of_mem hpath' (mem_of_mem_head? hhead)).2
  · have hhead {listed : ListedFile} (hl : listed ∈ list) {path : List Text}
        (hpath : remoteClipboardSafePath listed.name = some path) : path.head? = remoteTopLevelName listed.name := by
      obtain ⟨top, hname, htop, -⟩ := topLevelName_eq hpath
      rw [hname, htop (htight listed hl)]
    refine ⟨fun file hfile => ?_, hnodup, fun name hname => ?_, fun file hfile => ?_⟩
    · obtain ⟨listed, -, hpath⟩ := hlisted hfile
      exact ⟨(safePath_spec hpath).2.1, fun part hpart => (proper_of_mem hpath hpart).1⟩
    · obtain ⟨listed, hl, hname⟩ := hreported.mp hname
      obtain ⟨file, hfile, hpath⟩ := hstaged hl
      exact ⟨file, hfile, (hhead hl hpath).trans hname⟩
    · obtain ⟨listed, hl, hpath⟩ := hlisted hfile
      obtain ⟨top, hname, -⟩ := topLevelName_eq hpath
      have hfirst := (hhead hl hpath).trans hname
      have hone : t.topLevel.count top = 1 := count_eq_one_of_mem
        (htop ▸ nodup_appendMissing nodup_nil _) (hreported.mpr ⟨listed, hl, hname⟩)
      rw [← hone, count]
      refine countP_congr fun name _ => ?_
      rw [hfirst, decide_eq_true_iff, Option.some_inj, beq_iff_eq, eq_comm]

theorem truthful_iff_entry : Truthful ⟨[⟨[['a'], ['b']], 0, true⟩], [[]], [['a']], [], 1, 0⟩ ↔
      ∀ file ∈ [(⟨['.', '/', 'a', '\\', 'b', ' '], true, none, true⟩ : ListedFile)], TightStart file.name :=
  truthful_iff _ _ [] rfl

/-- A directory whose name starts with a blank is reported by a name that does not exist. -/
theorem build_reports_missing : ¬∀ list t requests, buildRemoteFileTransfer list = some (t, requests) → Truthful t := by
  intro h
  have htruthful := h [⟨[' ', 'a', '/', 'b'], false, none, true⟩] ⟨[⟨[['a'], ['b']], 0, false⟩], [[]], [[' ', 'a']], [], 1, 0⟩ [] rfl
  obtain ⟨file, hfile, hhead⟩ := htruthful.staged [' ', 'a'] mem_cons_self
  rw [mem_singleton.mp hfile] at hhead
  cases hhead

end Taomni.RdpClipboard
