import Mathlib.Data.List.Nodup
import Taomni.Workspace.ResourceMove

/-!
# Copies of trees

`copy_resource_target` changes nothing outside its destination, comes to its end exactly if none of its
calls is refused, and has then made a copy of every entry (`copy_spec`).

Reference: `src-tauri/src/workspace/resource_operations.rs`, `copy_resource_target`.
-/

namespace Taomni.Workspace

open List
open PathTree (set_eq set_ne)

variable {faults : Faults}

/-! ## Error messages -/

/-- Every path in the message is below one of the two. -/
def Within (src dst : Path) (message : Message) : Prop :=
  ∀ path, Part.path path ∈ message → src <+: path ∨ dst <+: path

namespace Within

variable {src dst : Path}

theorem nil : Within src dst [] := fun _ h => absurd h not_mem_nil

variable {message : Message}

theorem text (text : Text) (h : Within src dst message) : Within src dst (.text text :: message) := by
  intro path hpath
  exact h path ((mem_cons.mp hpath).resolve_left nofun)

theorem path {path : Path} (hpath : src <+: path ∨ dst <+: path)
    (h : Within src dst message) : Within src dst (.path path :: message) := by
  intro other hother
  obtain heq | hother := mem_cons.mp hother
  · cases heq
    exact hpath
  · exact h other hother

theorem source (h : Within src dst message) :
    Within src dst (.path src :: message) := path (.inl (prefix_refl src)) h

theorem target (h : Within src dst message) :
    Within src dst (.path dst :: message) := path (.inr (prefix_refl dst)) h

theorem append {more : Message} (h : Within src dst message) (h' : Within src dst more) :
    Within src dst (message ++ more) := by
  intro path hpath
  exact (mem_append.mp hpath).elim (h path) (h' path)

theorem below {src' dst' : Path} (h : Within src' dst' message)
    (hsrc : src <+: src') (hdst : dst <+: dst') : Within src dst message :=
  fun path hpath => (h path hpath).imp hsrc.trans hdst.trans

end Within

/-- A loop comes to its end exactly if every round does; what a round keeps holds all along. -/
theorem forNames_spec {f : Text → Files → Except Message Unit × Files} {names : List Text}
    (inv : List Text → Files → Prop) (broken : Message → Files → Prop) (done : Text → Prop)
    (hround : ∀ front name rest files, front ++ name :: rest = names → inv front files →
      ((f name files).1 = .ok () ↔ done name) ∧
      ((f name files).1 = .ok () → inv (front ++ [name]) (f name files).2) ∧
      ∀ error, (f name files).1 = .error error → broken error (f name files).2)
    (front rest : List Text) (files : Files) (hnames : front ++ rest = names) (h : inv front files) :
    ((forNames f rest files).1 = .ok () ↔ ∀ name ∈ rest, done name) ∧
    ((forNames f rest files).1 = .ok () → inv names (forNames f rest files).2) ∧
    ∀ error, (forNames f rest files).1 = .error error → broken error (forNames f rest files).2 := by
  induction rest generalizing front files with
  | nil =>
    rw [append_nil] at hnames
    subst hnames
    exact ⟨iff_of_true rfl fun _ hmem => absurd hmem not_mem_nil, fun _ => h, nofun⟩
  | cons name rest ih =>
    obtain ⟨hiff, hok, herror⟩ := hround front name rest files hnames h
    rcases hresult : f name files with ⟨error | ⟨⟩, after⟩ <;> rw [hresult] at hiff hok herror
    · simp only [forNames, hresult]
      refine ⟨⟨nofun, fun hall => ?_⟩, nofun, fun e he => ?_⟩
      · exact absurd (hiff.mpr (hall name mem_cons_self)) nofun
      · cases he
        exact herror error rfl
    · simp only [forNames, hresult]
      have hrest := ih (front ++ [name]) after
        (by rw [append_assoc, singleton_append, hnames]) (hok rfl)
      rw [forall_mem_cons]
      exact ⟨hrest.1.trans (and_iff_right (hiff.mp rfl)).symm, hrest.2⟩

/-! ## Trees that can be copied -/

/-- A tree whose entries are in directories and have names that are listed. -/
structure Source (names : List Text) (files : Files) (src : Path) : Prop where
  closed : ∀ rel name, (files (src ++ (rel ++ [name]))).isSome = true →
    files (src ++ rel) = some .dir
  named : ∀ rel name, (files (src ++ (rel ++ [name]))).isSome = true → name ∈ names

namespace Source

variable {names : List Text} {files after : Files} {src : Path}

theorem root_dir (h : Source names files src) {rel : Path} (hrel : rel ≠ [])
    (hsome : (files (src ++ rel)).isSome = true) : files src = some .dir := by
  induction rel using List.reverseRecOn with
  | nil => exact absurd rfl hrel
  | append_singleton rel name ih =>
    have hparent := h.closed rel name hsome
    by_cases hnil : rel = []
    · rwa [hnil, append_nil] at hparent
    · exact ih hnil (by rw [hparent]; rfl)

theorem child (h : Source names files src) (name : Text) : Source names files (src ++ [name]) := by
  refine ⟨fun rel other hsome => ?_, fun rel other hsome => ?_⟩ <;>
    rw [append_assoc, singleton_append] at *
  · exact h.closed (name :: rel) other hsome
  · exact h.named (name :: rel) other hsome

theorem none_below (h : Source names files src) {name : Text}
    (hname : files (src ++ [name]) = none) (rel : Path) : files (src ++ name :: rel) = none := by
  have hchild := h.child name
  rw [← Option.not_isSome_iff_eq_none]
  intro hsome
  rw [show src ++ name :: rel = (src ++ [name]) ++ rel by rw [append_assoc]; rfl] at hsome
  by_cases hnil : rel = []
  · rw [hnil, append_nil, hname] at hsome
    cases hsome
  · exact absurd ((hchild.root_dir hnil hsome).symm.trans hname) nofun

theorem congr (h : Source names files src) (hsame : ∀ rel, after (src ++ rel) = files (src ++ rel)) :
    Source names after src := by
  refine ⟨fun rel name hsome => ?_, fun rel name hsome => ?_⟩ <;> rw [hsame] at hsome
  · rw [hsame]
    exact h.closed rel name hsome
  · exact h.named rel name hsome

end Source

/-- None of the calls that copy one entry is refused. -/
def CallsDone (faults : Faults) (src dst : Path) : Entry → Prop
  | .dir => refusal faults (.stat src) = none ∧ refusal faults (.createDir dst) = none ∧
      refusal faults (.readDir src) = none ∧ refusal faults (.setPermissions src) = none
  | .file _ => refusal faults (.stat src) = none ∧ refusal faults (.copy src) = none
  | .symlink _ => refusal faults (.stat src) = none ∧ refusal faults (.readLink src) = none ∧
      refusal faults (.copy src) = none

/-- None of the calls of the whole copy is refused. -/
def Copies (faults : Faults) (files : Files) (src dst : Path) : Prop :=
  ∀ rel entry, files (src ++ rel) = some entry →
    CallsDone faults (src ++ rel) (dst ++ rel) entry ∧
      (rel ≠ [] → refusal faults (.readEntry (src ++ rel)) = none)

/-- A copy of a file or a link is its only call. -/
theorem copies_leaf (faults : Faults) {names : List Text} {files : Files} {src : Path} (dst : Path)
    (hsource : Source names files src) {entry : Entry} (hentry : files src = some entry)
    (hleaf : entry ≠ .dir) : Copies faults files src dst ↔ CallsDone faults src dst entry := by
  constructor
  · intro h
    have hroot := (h [] entry (by rwa [append_nil])).1
    rwa [append_nil, append_nil] at hroot
  · intro h rel other hother
    by_cases hnil : rel = []
    · subst hnil
      rw [append_nil] at hother ⊢
      rw [append_nil]
      cases hentry.symm.trans hother
      exact ⟨h, fun hne => absurd rfl hne⟩
    · have hdir := hsource.root_dir hnil (by rw [hother]; rfl)
      exact absurd (Option.some_inj.mp (hentry.symm.trans hdir)) hleaf

/-- The copy of a directory is its own calls and the copies of what is in it. -/
theorem copies_dir (faults : Faults) {names : List Text} {files : Files} {src : Path} (dst : Path)
    (hsource : Source names files src) (hdir : files src = some .dir) :
    Copies faults files src dst ↔ CallsDone faults src dst .dir ∧
      ∀ name, (files (src ++ [name])).isSome = true →
        refusal faults (.readEntry (src ++ [name])) = none ∧
          Copies faults files (src ++ [name]) (dst ++ [name]) := by
  constructor
  · intro h
    refine ⟨?_, fun name hname => ⟨?_, fun rel entry hentry => ?_⟩⟩
    · have hroot := (h [] .dir (by rwa [append_nil])).1
      rwa [append_nil, append_nil] at hroot
    · obtain ⟨entry, hentry⟩ := Option.isSome_iff_exists.mp hname
      exact (h [name] entry hentry).2 (cons_ne_nil _ _)
    · rw [append_assoc, singleton_append] at hentry ⊢
      rw [append_assoc, singleton_append]
      have hbelow := h (name :: rel) entry hentry
      exact ⟨hbelow.1, fun _ => hbelow.2 (cons_ne_nil _ _)⟩
  · rintro ⟨hroot, hchildren⟩ rel entry hentry
    cases rel with
    | nil =>
      rw [append_nil] at hentry ⊢
      rw [append_nil]
      cases hdir.symm.trans hentry
      exact ⟨hroot, fun hne => absurd rfl hne⟩
    | cons name rel =>
      have hname : (files (src ++ [name])).isSome = true := by
        by_contra hnone
        rw [hsource.none_below (Option.not_isSome_iff_eq_none.mp hnone)] at hentry
        cases hentry
      obtain ⟨hread, hcopies⟩ := hchildren name hname
      have hshift (path : Path) : path ++ name :: rel = (path ++ [name]) ++ rel := by
        rw [append_assoc, singleton_append]
      rw [hshift] at hentry ⊢
      rw [hshift]
      refine ⟨(hcopies rel entry hentry).1, fun _ => ?_⟩
      by_cases hnil : rel = []
      · rwa [hnil, append_nil]
      · exact (hcopies rel entry hentry).2 hnil

/-! ## The copy -/

/-- What a copy leaves. -/
structure CopyLeaves (faults : Faults) (files : Files) (src dst : Path)
    (result : Except Message Unit × Files) : Prop where
  ok_iff : result.1 = .ok () ↔ isFree files dst = true ∧ Copies faults files src dst
  copied : result.1 = .ok () → ∀ rel, result.2 (dst ++ rel) = files (src ++ rel)
  outside : ∀ path, ¬dst <+: path → result.2 path = files path
  message : ∀ error, result.1 = .error error → Within src dst error

/-- A refused call has changed nothing outside the destination. -/
theorem CopyLeaves.refused {files after : Files} {src dst : Path} {error : Message}
    (hnot : isFree files dst = true → ¬Copies faults files src dst)
    (houtside : ∀ path, ¬dst <+: path → after path = files path) (hmessage : Within src dst error) :
    CopyLeaves faults files src dst (.error error, after) := by
  refine ⟨⟨nofun, fun h => absurd h.2 (hnot h.1)⟩, nofun, houtside, fun e he => ?_⟩
  cases he
  exact hmessage

theorem not_below_ne {dst path : Path} (h : ¬dst <+: path) : path ≠ dst := by
  rintro rfl
  exact h (prefix_refl path)

theorem not_below_self (dst : Path) (name : Text) : ¬dst ++ [name] <+: dst := by
  intro h
  have hlength := h.length_le
  rw [length_append, length_singleton] at hlength
  omega

theorem not_below_name (dst : Path) {name other : Text} (rel : Path) (h : other ≠ name) :
    ¬dst ++ [name] <+: dst ++ other :: rel := by
  rw [prefix_append_right_inj, cons_prefix_cons]
  exact fun hsame => h hsame.1.symm

/-- A file or a link is copied in one piece. -/
theorem CopyLeaves.leaf {names : List Text} {files : Files} {src dst : Path} {entry : Entry}
    (hsource : Source names files src) (hentry : files src = some entry) (hleaf : entry ≠ .dir)
    (habsent : ∀ rel, files (dst ++ rel) = none) (hfree : isFree files dst = true)
    (hdone : CallsDone faults src dst entry) :
    CopyLeaves faults files src dst (.ok (), files.set dst (some entry)) := by
  refine ⟨iff_of_true rfl ⟨hfree, (copies_leaf faults dst hsource hentry hleaf).mpr hdone⟩, fun _ rel => ?_,
    fun path hpath => set_ne _ (not_below_ne hpath), nofun⟩
  by_cases hnil : rel = []
  · rw [hnil, append_nil, append_nil, hentry]
    exact set_eq dst (some entry)
  · have hsrc : files (src ++ rel) = none := by
      rw [← Option.not_isSome_iff_eq_none]
      intro hsome
      exact hleaf (Option.some_inj.mp (hentry.symm.trans (hsource.root_dir hnil hsome)))
    show files.set dst (some entry) (dst ++ rel) = _
    rw [set_ne _ (mt append_right_eq_self.mp hnil), habsent, hsrc]

section Leaves

variable {names : List Text} {files : Files} {src dst : Path}
  (hsource : Source names files src) (habsent : ∀ rel, files (dst ++ rel) = none)
  (hstat : refusal faults (.stat src) = none)

include hsource habsent hstat

theorem copyResourceSymlink_leaves {target : Text} (hentry : files src = some (.symlink target)) :
    CopyLeaves faults files src dst (copyResourceSymlink faults src dst target files) := by
  have hcopies := copies_leaf faults dst hsource hentry nofun
  unfold copyResourceSymlink
  cases hread : refusal faults (.readLink src) with
  | some error =>
    refine .refused (fun _ h => ?_) (fun _ _ => rfl) (.text _ (.source (.text _ (.text _ .nil))))
    exact absurd (hread.symm.trans (hcopies.mp h).2.1) nofun
  | none =>
    cases hcopy : refusal faults (.copy src) with
    | some error =>
      refine .refused (fun _ h => ?_) (fun _ _ => rfl)
        (.text _ (.source (.text _ (.target (.text _ (.text _ .nil))))))
      exact absurd (hcopy.symm.trans (hcopies.mp h).2.2) nofun
    | none =>
      dsimp only
      split
      · next hfree =>
        exact .leaf hsource hentry nofun habsent hfree ⟨hstat, hread, hcopy⟩
      · next hfree =>
        exact .refused (fun h => absurd h hfree) (fun _ _ => rfl)
          (.text _ (.source (.text _ (.target (.text _ (.text _ .nil))))))

theorem copyFile_leaves {bytes : List UInt8} (hentry : files src = some (.file bytes)) :
    CopyLeaves faults files src dst (copyFile faults src dst bytes files) := by
  have hcopies := copies_leaf faults dst hsource hentry nofun
  have hnone : files dst = none := append_nil dst ▸ habsent []
  have hmessage (error : Text) : Within src dst [.text "copy ".toList, .path src,
      .text " -> ".toList, .path dst, .text ": ".toList, .text error] :=
    .text _ (.source (.text _ (.target (.text _ (.text _ .nil)))))
  unfold copyFile
  simp only [hnone, Option.any_none, Bool.or_false]
  split
  · next hfree =>
    cases hcopy : faults (.copy src) with
    | done =>
      refine .leaf hsource hentry nofun habsent hfree ⟨hstat, ?_⟩
      unfold refusal
      rw [hcopy]
    | refused error written gone =>
      have hnot : isFree files dst = true → ¬Copies faults files src dst := by
        intro _ h
        have hdone := (hcopies.mp h).2
        unfold refusal at hdone
        rw [hcopy] at hdone
        cases hdone
      cases written with
      | none => exact .refused hnot (fun _ _ => rfl) (hmessage error)
      | some written =>
        exact .refused hnot (fun path hpath => set_ne _ (not_below_ne hpath))
          (hmessage error)
  · next hfree => exact .refused (fun h => absurd h hfree) (fun _ _ => rfl) (hmessage notPermitted)

end Leaves

/-- What `create_dir` leaves of a path where nothing is. -/
theorem createDir_cases (faults : Faults) (files : Files) (path : Path) :
    (isFree files path = true ∧ refusal faults (.createDir path) = none ∧
      createDir faults path files = (.ok (), files.set path (some .dir))) ∨
    ∃ error, ¬(isFree files path = true ∧ refusal faults (.createDir path) = none) ∧
      createDir faults path files = (.error error, files) ∧ ∀ src, Within src path error := by
  unfold createDir
  cases hcreate : refusal faults (.createDir path) with
  | some error =>
    exact .inr ⟨_, fun h => absurd h.2 nofun, rfl, fun _ => .text _ (.target (.text _ (.text _ .nil)))⟩
  | none =>
    dsimp only
    split
    · next hfree => exact .inl ⟨hfree, rfl, rfl⟩
    · next hfree =>
      exact .inr ⟨_, fun h => absurd h.1 hfree, rfl, fun _ =>
        .text _ (.target (.text _ (.text _ .nil)))⟩

/-- The state of a directory copy after some of its names. -/
structure CopyingNames (files : Files) (src dst : Path) (front : List Text) (after : Files) : Prop where
  outside : ∀ path, ¬dst <+: path → after path = files path
  root : after dst = some .dir
  copied : ∀ name ∈ front, ∀ rel, after (dst ++ name :: rel) = files (src ++ name :: rel)
  rest : ∀ name, name ∉ front → ∀ rel, after (dst ++ name :: rel) = none

theorem copies_congr {files after : Files} {src dst : Path}
    (hsame : ∀ rel, after (src ++ rel) = files (src ++ rel)) :
    Copies faults after src dst ↔ Copies faults files src dst := by
  unfold Copies
  simp only [hsame]

section Names

variable {names : List Text} {fuel : ℕ} {files : Files} {src dst : Path}
  (hapart : PathsApart src dst) (hsource : Source names files src)

include hapart hsource

/-- The copy of one more name. -/
theorem copyName_leaves {front : List Text} {name : Text} {G : Files}
    (hG : CopyingNames files src dst front G) (hnew : name ∉ front)
    (hname : (files (src ++ [name])).isSome = true)
    (hchild : ∀ G : Files, Source names G (src ++ [name]) →
      (∀ rel, G (src ++ [name] ++ rel) = files (src ++ [name] ++ rel)) →
      (∀ rel, G (dst ++ [name] ++ rel) = none) → CopyLeaves faults G (src ++ [name]) (dst ++ [name])
        (copyResourceTarget faults names fuel (src ++ [name]) (dst ++ [name]) G)) :
    let result := copyName faults (copyResourceTarget faults names fuel) src dst name G
    (result.1 = .ok () ↔ refusal faults (.readEntry (src ++ [name])) = none ∧
      Copies faults files (src ++ [name]) (dst ++ [name])) ∧
    (result.1 = .ok () → CopyingNames files src dst (front ++ [name]) result.2) ∧
    ∀ error, result.1 = .error error →
      (∀ path, ¬dst <+: path → result.2 path = files path) ∧ Within src dst error := by
  have hsame (rel : Path) : G (src ++ [name] ++ rel) = files (src ++ [name] ++ rel) := by
    rw [append_assoc]
    exact hG.outside _ (hapart.symm.not_below _)
  have hfresh (rel : Path) : G (dst ++ [name] ++ rel) = none := by
    rw [append_assoc]
    exact hG.rest name hnew rel
  have hleaves := hchild G ((hsource.child name).congr hsame) hsame hfresh
  unfold copyName
  cases hread : refusal faults (.readEntry (src ++ [name])) with
  | some error =>
    refine ⟨⟨nofun, fun h => absurd h.1 nofun⟩, nofun, fun e he => ⟨hG.outside, ?_⟩⟩
    cases he
    exact .text _ (.source (.text _ (.text _ .nil)))
  | none =>
    have hfree : isFree G (dst ++ [name]) = true := by
      have hnone := hfresh []
      rw [append_nil] at hnone
      unfold isFree
      rw [hnone, dropLast_concat, hG.root]
      simp only [Option.isNone_none, Bool.true_and, Bool.and_eq_true, beq_self_eq_true, and_true]
      rw [Bool.not_eq_true', isEmpty_eq_false_iff]
      exact concat_ne_nil name dst
    have houtside (path : Path) (hpath : ¬dst ++ [name] <+: path) :
        (copyResourceTarget faults names fuel (src ++ [name]) (dst ++ [name]) G).2 path = G path :=
      hleaves.outside path hpath
    have hbelow {path : Path} (hpath : ¬dst <+: path) : ¬dst ++ [name] <+: path :=
      fun h => hpath ((prefix_append dst [name]).trans h)
    refine ⟨?_, fun hok => ⟨fun path hpath => ?_, ?_, fun other hother rel => ?_,
      fun other hother rel => ?_⟩, fun error herror => ⟨fun path hpath => ?_, ?_⟩⟩
    · rw [hleaves.ok_iff, copies_congr hsame]
      exact and_congr_left' ⟨fun _ => rfl, fun _ => hfree⟩
    · rw [houtside path (hbelow hpath), hG.outside path hpath]
    · rw [houtside dst (not_below_self dst name), hG.root]
    · rw [mem_append, mem_singleton] at hother
      by_cases heq : other = name
      · subst heq
        have hcopied := hleaves.copied hok rel
        rw [hsame, append_assoc, append_assoc] at hcopied
        exact hcopied
      · rw [houtside _ (not_below_name dst rel heq)]
        exact hG.copied other (hother.resolve_right heq) rel
    · rw [mem_append, mem_singleton, not_or] at hother
      rw [houtside _ (not_below_name dst rel hother.2)]
      exact hG.rest other hother.1 rel
    · rw [houtside path (hbelow hpath), hG.outside path hpath]
    · exact (hleaves.message error herror).below (prefix_append _ _) (prefix_append _ _)

/-- All the names of a directory, once it has been created. -/
theorem copyNames_leaves (hnodup : names.Nodup) (habsent : ∀ rel, files (dst ++ rel) = none)
    (hchild : ∀ name (G : Files), (files (src ++ [name])).isSome = true →
      Source names G (src ++ [name]) → (∀ rel, G (src ++ [name] ++ rel) = files (src ++ [name] ++ rel)) →
      (∀ rel, G (dst ++ [name] ++ rel) = none) → CopyLeaves faults G (src ++ [name]) (dst ++ [name])
        (copyResourceTarget faults names fuel (src ++ [name]) (dst ++ [name]) G)) :
    let created := files.set dst (some .dir)
    let listed := listing names created src
    let result := forNames (copyName faults (copyResourceTarget faults names fuel) src dst)
      listed created
    (result.1 = .ok () ↔ ∀ name, (files (src ++ [name])).isSome = true →
      refusal faults (.readEntry (src ++ [name])) = none ∧
        Copies faults files (src ++ [name]) (dst ++ [name])) ∧
    (result.1 = .ok () → CopyingNames files src dst listed result.2) ∧
    ∀ error, result.1 = .error error →
      (∀ path, ¬dst <+: path → result.2 path = files path) ∧ Within src dst error := by
  intro created listed result
  have hmem (name : Text) : name ∈ listed ↔ (files (src ++ [name])).isSome = true := by
    have hsame : created (src ++ [name]) = files (src ++ [name]) :=
      set_ne _ (not_below_ne (hapart.symm.not_below [name]))
    show name ∈ names.filter (fun name => (created (src ++ [name])).isSome) ↔ _
    rw [mem_filter, hsame]
    refine and_iff_right_of_imp fun hsome => ?_
    exact hsource.named [] name hsome
  have hstart : CopyingNames files src dst [] created := by
    refine ⟨fun path hpath => set_ne _ (not_below_ne hpath), set_eq _ _,
      fun _ h => absurd h not_mem_nil, fun name _ rel => ?_⟩
    show files.set dst (some .dir) (dst ++ name :: rel) = none
    rw [set_ne _ (mt append_right_eq_self.mp (cons_ne_nil _ _))]
    exact habsent (name :: rel)
  have hround (front : List Text) (name : Text) (rest : List Text) (G : Files)
      (hsplit : front ++ name :: rest = listed) (hG : CopyingNames files src dst front G) := by
    have hnew : name ∉ front := by
      have hlisted : listed.Nodup := hnodup.filter _
      rw [← hsplit, nodup_append] at hlisted
      exact fun hfront => hlisted.2.2 name hfront name mem_cons_self rfl
    have hname := (hmem name).mp (hsplit ▸ mem_append_right front mem_cons_self)
    exact copyName_leaves hapart hsource hG hnew hname fun G =>
      hchild name G hname
  have hloop := forNames_spec (CopyingNames files src dst)
    (fun error after => (∀ path, ¬dst <+: path → after path = files path) ∧ Within src dst error)
    (fun name => refusal faults (.readEntry (src ++ [name])) = none ∧
      Copies faults files (src ++ [name]) (dst ++ [name])) hround [] listed created rfl hstart
  refine ⟨hloop.1.trans ?_, hloop.2.1, hloop.2.2⟩
  exact forall_congr' fun name => by rw [hmem]

end Names

theorem copyResourceTarget_leaves (faults : Faults) {names : List Text} (hnodup : names.Nodup) (fuel : ℕ)
    {src dst : Path} {files : Files} (hapart : PathsApart src dst)
    (hsource : Source names files src) (hexists : (files src).isSome = true)
    (hdepth : ∀ rel, (files (src ++ rel)).isSome = true → rel.length < fuel)
    (habsent : ∀ rel, files (dst ++ rel) = none) :
    CopyLeaves faults files src dst (copyResourceTarget faults names fuel src dst files) := by
  induction fuel generalizing src dst files with
  | zero => exact absurd (hdepth [] (by rwa [append_nil])) (Nat.not_lt_zero _)
  | succ fuel ih =>
    obtain ⟨entry, hentry⟩ := Option.isSome_iff_exists.mp hexists
    unfold copyResourceTarget
    cases hstat : refusal faults (.stat src) with
    | some error =>
      refine .refused (fun _ h => ?_) (fun _ _ => rfl) (.text _ (.source (.text _ (.text _ .nil))))
      have hdone := (h [] entry (by rwa [append_nil])).1
      rw [append_nil] at hdone
      cases entry <;> exact absurd (hstat.symm.trans hdone.1) nofun
    | none =>
      rw [hentry]
      cases entry with
      | symlink target => exact copyResourceSymlink_leaves hsource habsent hstat hentry
      | file bytes => exact copyFile_leaves hsource habsent hstat hentry
      | dir =>
        have hcopies := copies_dir faults dst hsource hentry
        obtain ⟨hfree, hcreate, heq⟩ | ⟨error, hnot, heq, hmessage⟩ :=
          createDir_cases faults files dst
        · simp only [heq]
          have hnot {call : Call} {error : Text} (hcall : refusal faults call = some error)
              (hdone : Copies faults files src dst → refusal faults call = none) :
              isFree files dst = true → ¬Copies faults files src dst :=
            fun _ h => absurd (hcall.symm.trans (hdone h)) nofun
          have hcreated (path : Path) (hpath : ¬dst <+: path) :
              files.set dst (some .dir) path = files path :=
            set_ne _ (not_below_ne hpath)
          cases hread : refusal faults (.readDir src) with
          | some error =>
            exact .refused (hnot hread fun h => (hcopies.mp h).1.2.2.1) hcreated
              (.text _ (.source (.text _ (.text _ .nil))))
          | none =>
            have hchild (name : Text) (G : Files) (hname : (files (src ++ [name])).isSome = true)
                (hG : Source names G (src ++ [name]))
                (hsame : ∀ rel, G (src ++ [name] ++ rel) = files (src ++ [name] ++ rel))
                (hfresh : ∀ rel, G (dst ++ [name] ++ rel) = none) :
                CopyLeaves faults G (src ++ [name]) (dst ++ [name])
                  (copyResourceTarget faults names fuel (src ++ [name]) (dst ++ [name]) G) := by
              refine ih (hapart.append _ _) hG ?_ (fun rel hsome => ?_) hfresh
              · have hroot := hsame []
                rw [append_nil] at hroot
                rwa [hroot]
              · rw [hsame, append_assoc] at hsome
                exact Nat.lt_of_succ_lt_succ (hdepth (name :: rel) hsome)
            have hlisted (name : Text) (hname : (files (src ++ [name])).isSome = true) :
                name ∈ listing names (files.set dst (some .dir)) src := by
              refine mem_filter.mpr ⟨hsource.named [] name hname, ?_⟩
              rwa [set_ne _ (not_below_ne (hapart.symm.not_below [name]))]
            obtain ⟨hiff, hok, herror⟩ :=
              copyNames_leaves hapart hsource hnodup habsent hchild
            rcases hnames : forNames (copyName faults (copyResourceTarget faults names fuel) src dst)
              (listing names (files.set dst (some .dir)) src) (files.set dst (some .dir)) with
              ⟨error | ⟨⟩, after⟩ <;> rw [hnames] at hiff hok herror
            · obtain ⟨houtside, hmessage⟩ := herror error rfl
              exact .refused (fun _ h => absurd (hiff.mpr (hcopies.mp h).2) nofun) houtside hmessage
            · obtain ⟨houtside, hroot, hcopied, hrest⟩ := hok rfl
              cases hpermissions : refusal faults (.setPermissions src) with
              | some error =>
                exact .refused (hnot hpermissions fun h => (hcopies.mp h).1.2.2.2) houtside
                  (.text _ (.target (.text _ (.text _ .nil))))
              | none =>
                refine ⟨iff_of_true rfl ⟨hfree, hcopies.mpr ⟨⟨hstat, hcreate, hread, hpermissions⟩,
                  hiff.mp rfl⟩⟩, fun _ rel => ?_, houtside, nofun⟩
                cases rel with
                | nil => rw [append_nil, append_nil, hentry, hroot]
                | cons name rel =>
                  by_cases hname : (files (src ++ [name])).isSome = true
                  · exact hcopied name (hlisted name hname) rel
                  · have hnone := Option.not_isSome_iff_eq_none.mp hname
                    rw [hsource.none_below hnone]
                    refine hrest name (fun hmem => hname ?_) rel
                    have hsome := (mem_filter.mp hmem).2
                    rwa [set_ne _ (not_below_ne (hapart.symm.not_below [name]))] at hsome
        · simp only [heq]
          refine .refused (fun hfree h => hnot ⟨hfree, ?_⟩) (fun _ _ => rfl) (hmessage src)
          exact (hcopies.mp h).1.2.1

end Taomni.Workspace
