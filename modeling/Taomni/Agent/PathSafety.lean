import Mathlib.Data.List.DropRight
import Taomni.Common.Paths

/-!
# The deny-list of paths

Reference: `path_is_denied`, `expand_tilde` and `normalize_lexical` of `src-tauri/src/agent/safety.rs`.

Paths are lists of characters. A path is canonically the names that its components lead to from its
root, and a deny directory covers what lies below it. The normal form of a path is its canonical path
written out as long as the root is kept (`normalizeLexical_of_keepsRoot`).
-/

namespace Taomni.Agent

open List

abbrev Text := List Char

/-! ## The check -/

/-- `replace('\\', "/")`. -/
def slashes (path : Text) : Text := path.map fun c => if c = '\\' then '/' else c

def expandTilde (path : Text) (home : Option Text) : Text :=
  match home, path with
  | some home, ['~'] => slashes home
  | some home, '~' :: '/' :: rest => slashes home ++ '/' :: rest
  | _, path => path

/-- One component of the loop. -/
def normalizeStep (absolute : Bool) (out : List Text) (comp : Text) : List Text :=
  if comp = [] ∨ comp = ['.'] then out
  else if comp = ['.', '.'] then
    if out.getLast?.any (· ≠ ['.', '.']) then out.dropLast
    else if !absolute then out ++ [['.', '.']]
    else out
  else out ++ [comp]

def normalizeLexical (path : Text) : Text :=
  let path := slashes path
  let absolute := path.head? == some '/' || (path[1]? == some ':' && path[2]? == some '/')
  let isWindowsDrive := path[1]? == some ':'
  let out := (path.splitOn '/').foldl (normalizeStep absolute) []
  let joined := ['/'].intercalate out
  if absolute && !isWindowsDrive then '/' :: joined else joined

/-- `trim_end_matches('/')`. -/
def trimSlashes (path : Text) : Text := path.rdropWhile (· == '/')

def pathIsDenied (path : Text) (denyDirs : List Text) (home : Option Text) : Bool :=
  let path := slashes path
  let expanded := expandTilde path home
  let normalized := normalizeLexical expanded
  denyDirs.any fun d =>
    let dn := normalizeLexical (slashes d)
    if dn.isEmpty then false
    else normalized == dn || (trimSlashes dn ++ ['/']).isPrefixOf normalized

/-! ## Canonical paths -/

inductive PathRoot where
  | posix
  | drive (letter : Char)
deriving DecidableEq

/-- An absolute path: its root, and the moves that its components stand for. -/
structure Location where
  root : PathRoot
  moves : List (Move Text)
deriving DecidableEq

def moveOf (comp : Text) : Move Text :=
  if comp = [] ∨ comp = ['.'] then .stay else if comp = ['.', '.'] then .up else .enter comp

/-- `none` for a path that is not absolute. -/
def locate (path : Text) : Option Location :=
  match slashes path with
  | '/' :: rest => some ⟨.posix, (rest.splitOn '/').map moveOf⟩
  | letter :: ':' :: '/' :: rest => some ⟨.drive letter, (rest.splitOn '/').map moveOf⟩
  | _ => none

/-- Where a path is, with a leading `~` expanded. -/
def locateExpanded (path : Text) (home : Option Text) : Option Location :=
  locate (expandTilde (slashes path) home)

namespace Location

/-- The canonical path below the root. -/
def names (l : Location) : List Text := walk [] l.moves

/-- The canonical path of `p` is the one of `d` or lies below it. -/
def Covers (d p : Location) : Prop := d.root = p.root ∧ d.names <+: p.names

/-- One location is spelled in two ways. -/
def Respells (p q : Location) : Prop := p.root = q.root ∧ Respelled p.moves q.moves

/-- No `..` goes up from the root of a drive, and a POSIX path does not begin with `/:`. -/
def KeepsRoot (l : Location) : Prop :=
  match l.root with
  | .posix => ∀ name, l.moves.head? = some (.enter name) → name.head? ≠ some ':'
  | .drive _ => Grounded 0 l.moves

theorem names_eq_of_respells {p q : Location} (h : p.Respells q) : p.names = q.names :=
  respelled_iff.mp h.2

end Location

/-- For all deny directories, the verdict on a path is that one of them covers it, and the verdict on its
respelling is the same. -/
def Undodgeable (path respelled : Text) (home : Option Text) (p : Location) : Prop :=
  ∀ denyDirs : List Text, (∀ d ∈ denyDirs, ∃ l, locate d = some l ∧ l.KeepsRoot) →
    (pathIsDenied path denyDirs home = true ↔
        ∃ d ∈ denyDirs, ∃ l, locate d = some l ∧ l.Covers p) ∧
      pathIsDenied respelled denyDirs home = pathIsDenied path denyDirs home

/-! ## Components -/

theorem slashes_slashes (path : Text) : slashes (slashes path) = slashes path := by
  rw [slashes, slashes, map_map]
  refine map_congr_left fun c _ => ?_
  rw [Function.comp_apply]
  by_cases hc : c = '\\'
  · rw [if_pos hc]
    rfl
  · rw [if_neg hc, if_neg hc]

theorem backslash_not_mem_slashes (path : Text) : '\\' ∉ slashes path := by
  intro h
  obtain ⟨c, -, hc⟩ := mem_map.mp h
  split at hc
  · exact absurd hc (by decide)
  · next hne => exact hne hc

/-- A component that is entered. -/
structure IsName (name : Text) : Prop where
  ne_nil : name ≠ []
  ne_dot : name ≠ ['.']
  ne_up : name ≠ ['.', '.']
  no_slash : '/' ∉ name
  no_backslash : '\\' ∉ name

theorem moveOf_of_isName {name : Text} (h : IsName name) : moveOf name = .enter name := by
  rw [moveOf, if_neg (not_or.mpr ⟨h.ne_nil, h.ne_dot⟩), if_neg h.ne_up]

/-- A component holds no separator. -/
theorem not_mem_of_mem_splitOn {path comp : Text} (h : comp ∈ path.splitOn '/') :
    (∀ c ∈ comp, c ∈ path) ∧ '/' ∉ comp := by
  induction path generalizing comp with
  | nil =>
    cases mem_singleton.mp h
    exact ⟨fun c hc => hc, not_mem_nil⟩
  | cons c path ih =>
    rw [splitOn_cons_eq_if_modifyHead] at h
    split at h
    · rcases mem_cons.mp h with rfl | h
      · exact ⟨fun _ hc => absurd hc not_mem_nil, not_mem_nil⟩
      · exact ⟨fun d hd => mem_cons_of_mem _ ((ih h).1 d hd), (ih h).2⟩
    · next hc =>
      rw [beq_iff_eq] at hc
      cases hcomps : path.splitOn '/' with
      | nil => exact absurd hcomps (splitOn_ne_nil _ _)
      | cons first comps =>
        rw [hcomps, modifyHead_cons] at h
        rcases mem_cons.mp h with rfl | h
        · obtain ⟨hmem, hslash⟩ := ih (hcomps ▸ mem_cons_self)
          refine ⟨fun d hd => ?_, fun hd => ?_⟩
          · rcases mem_cons.mp hd with rfl | hd
            · exact mem_cons_self
            · exact mem_cons_of_mem _ (hmem d hd)
          · rcases mem_cons.mp hd with hd | hd
            · exact hc hd.symm
            · exact hslash hd
        · obtain ⟨hmem, hslash⟩ := ih (hcomps ▸ mem_cons_of_mem _ h)
          exact ⟨fun d hd => mem_cons_of_mem _ (hmem d hd), hslash⟩

theorem isName_of_enter {path name : Text} (hpath : '\\' ∉ path)
    (h : .enter name ∈ (path.splitOn '/').map moveOf) : IsName name := by
  obtain ⟨comp, hcomp, hmove⟩ := mem_map.mp h
  obtain ⟨hmem, hslash⟩ := not_mem_of_mem_splitOn hcomp
  rw [moveOf] at hmove
  split at hmove
  · cases hmove
  next hstay =>
  split at hmove
  · cases hmove
  next hup =>
  cases hmove
  obtain ⟨hnil, hdot⟩ := not_or.mp hstay
  exact ⟨hnil, hdot, hup, hslash, fun h => hpath (hmem _ h)⟩

/-- The two kinds of absolute paths. -/
theorem locate_cases {path : Text} {l : Location} (h : locate path = some l) :
    (∃ rest, slashes path = '/' :: rest ∧ l = ⟨.posix, (rest.splitOn '/').map moveOf⟩) ∨
      ∃ letter rest, letter ≠ '/' ∧ slashes path = letter :: ':' :: '/' :: rest ∧
        l = ⟨.drive letter, (rest.splitOn '/').map moveOf⟩ := by
  rw [locate] at h
  split at h
  · next rest hpath =>
    cases h
    exact .inl ⟨rest, hpath, rfl⟩
  · next letter rest hne hpath =>
    cases h
    exact .inr ⟨letter, rest, hne, hpath, rfl⟩
  · cases h

theorem isName_of_mem_names {path : Text} {l : Location} (h : locate path = some l) {name : Text}
    (hname : name ∈ l.names) : IsName name := by
  have hpath := backslash_not_mem_slashes path
  rcases mem_walk hname with hmem | hmem
  · exact absurd hmem not_mem_nil
  rcases locate_cases h with ⟨rest, hrest, rfl⟩ | ⟨letter, rest, -, hrest, rfl⟩
  · refine isName_of_enter (fun h => hpath ?_) hmem
    rw [hrest]
    exact mem_cons_of_mem _ h
  · refine isName_of_enter (fun h => hpath ?_) hmem
    rw [hrest]
    exact mem_cons_of_mem _ (mem_cons_of_mem _ (mem_cons_of_mem _ h))

/-! ## Normal forms -/

/-- The loop walks: nothing that it has listed is a `..`. -/
theorem foldl_normalizeStep {out : List Text} (hout : ['.', '.'] ∉ out) (comps : List Text) :
    comps.foldl (normalizeStep true) out = walk out (comps.map moveOf) := by
  induction comps generalizing out with
  | nil => rfl
  | cons comp comps ih =>
    rw [foldl_cons, map_cons, walk_cons]
    have hstep : normalizeStep true out comp = (moveOf comp).apply out := by
      rw [normalizeStep, moveOf]
      split
      · rfl
      split
      · rcases eq_nil_or_concat' out with rfl | ⟨init, last, rfl⟩
        · rfl
        · have hlast : last ≠ ['.', '.'] := fun h => hout (h ▸ mem_append_right _
            (mem_singleton.mpr rfl))
          rw [getLast?_concat, Option.any_some, if_pos (decide_eq_true hlast)]
          rfl
      · rfl
    rw [hstep]
    refine ih fun hmem => ?_
    rw [moveOf] at hmem
    split at hmem
    · exact hout hmem
    split at hmem
    · exact hout (mem_of_mem_dropLast hmem)
    · next hup =>
      rcases mem_append.mp hmem with hmem | hmem
      · exact hout hmem
      · exact hup (mem_singleton.mp hmem).symm

/-- What stands before the first separator of a path. -/
def PathRoot.name : PathRoot → Text
  | posix => []
  | drive letter => [letter, ':']

namespace Location

/-- The canonical path, with the root as its first name. -/
def path (l : Location) : List Text := l.root.name :: l.names

/-- The canonical path written out. -/
def text (l : Location) : Text :=
  if l.path = [[]] then ['/'] else ['/'].intercalate l.path

end Location

theorem keepsRoot_posix_iff (rest : Text) :
    Location.KeepsRoot ⟨.posix, (rest.splitOn '/').map moveOf⟩ ↔ rest.head? ≠ some ':' := by
  change (∀ name, ((rest.splitOn '/').map moveOf).head? = some (.enter name) →
    name.head? ≠ some ':') ↔ _
  cases rest with
  | nil =>
    constructor
    · intro _ h
      cases h
    · intro _ name h
      cases h
  | cons c rest =>
    rw [splitOn_cons_eq_if_modifyHead]
    split
    · next hc =>
      rw [beq_iff_eq] at hc
      subst hc
      refine ⟨fun _ h => ?_, fun _ name h => by cases h⟩
      rw [head?_cons, Option.some.injEq] at h
      exact absurd h (by decide)
    · cases hcomps : rest.splitOn '/' with
      | nil => exact absurd hcomps (splitOn_ne_nil _ _)
      | cons first comps =>
        rw [modifyHead_cons, map_cons, head?_cons, head?_cons]
        constructor
        · rintro h hc
          cases hc
          exact h (':' :: first) rfl rfl
        · intro hc name hname
          rw [moveOf] at hname
          split at hname
          · cases hname
          split at hname
          · cases hname
          · cases hname
            exact hc

private theorem normalizeLexical_posix {path rest : Text} (hrest : slashes path = '/' :: rest) :
    normalizeLexical path =
      if rest.head? = some ':' then ['/'].intercalate (walk [] ((rest.splitOn '/').map moveOf))
      else '/' :: ['/'].intercalate (walk [] ((rest.splitOn '/').map moveOf)) := by
  have hfold : (('/' :: rest).splitOn '/').foldl (normalizeStep true) [] =
      walk [] ((rest.splitOn '/').map moveOf) := by
    rw [splitOn_cons_eq_if_modifyHead, if_pos BEq.rfl, foldl_cons]
    exact foldl_normalizeStep not_mem_nil _
  rw [normalizeLexical, hrest, head?_cons, BEq.rfl, Bool.true_or, hfold, Bool.true_and,
    getElem?_cons_succ, ← head?_eq_getElem?]
  by_cases hcolon : rest.head? = some ':'
  · rw [if_pos hcolon, hcolon]
    rfl
  · rw [if_neg hcolon, beq_eq_false_iff_ne.mpr hcolon]
    rfl

private theorem normalizeLexical_drive {path rest : Text} {letter : Char} (hletter : letter ≠ '/')
    (hrest : slashes path = letter :: ':' :: '/' :: rest) : normalizeLexical path =
      ['/'].intercalate (walk [[letter, ':']] ((rest.splitOn '/').map moveOf)) := by
  have hname : IsName [letter, ':'] := by
    have hpath := backslash_not_mem_slashes path
    rw [hrest] at hpath
    refine ⟨cons_ne_nil _ _, ?_, ?_, ?_, ?_⟩
    · exact fun h => absurd (List.cons.inj h).2 (by decide)
    · exact fun h => absurd (List.cons.inj h).2 (by decide)
    · rw [mem_cons, mem_singleton]
      exact not_or.mpr ⟨hletter.symm, by decide⟩
    · rw [mem_cons, mem_singleton]
      exact not_or.mpr ⟨fun h => hpath (h ▸ mem_cons_self), by decide⟩
  have hsplit : (letter :: ':' :: '/' :: rest).splitOn '/' = [letter, ':'] :: rest.splitOn '/' :=
    splitOn_append_cons_self_of_not_mem hname.no_slash rest
  have hfold : ((letter :: ':' :: '/' :: rest).splitOn '/').foldl (normalizeStep true) [] =
      walk [[letter, ':']] ((rest.splitOn '/').map moveOf) := by
    rw [hsplit, foldl_normalizeStep not_mem_nil, map_cons, moveOf_of_isName hname]
    rfl
  have habsolute : ((letter :: ':' :: '/' :: rest).head? == some '/' ||
      (letter :: ':' :: '/' :: rest)[1]? == some ':' &&
        (letter :: ':' :: '/' :: rest)[2]? == some '/') = true :=
    (Bool.or_eq_true _ _).mpr (.inr rfl)
  rw [normalizeLexical, hrest, habsolute, hfold]
  rfl

/-- The normal form of a path that keeps its root is its canonical path. -/
theorem normalizeLexical_of_keepsRoot {path : Text} {l : Location} (h : locate path = some l)
    (hkeeps : l.KeepsRoot) : normalizeLexical path = l.text := by
  rcases locate_cases h with ⟨rest, hrest, rfl⟩ | ⟨letter, rest, hletter, hrest, rfl⟩
  · rw [normalizeLexical_posix hrest, if_neg ((keepsRoot_posix_iff rest).mp hkeeps), Location.text]
    change _ = if ([] :: walk [] ((rest.splitOn '/').map moveOf)) = [[]] then _
      else ['/'].intercalate ([] :: walk [] ((rest.splitOn '/').map moveOf))
    cases walk [] ((rest.splitOn '/').map moveOf) with
    | nil => rfl
    | cons name names =>
      rw [if_neg fun h => absurd (List.cons.inj h).2 (cons_ne_nil _ _),
        intercalate_cons_cons]
      rfl
  · rw [normalizeLexical_drive hletter hrest,
      (walk_below [letter, ':'] [] _).1 hkeeps, Location.text, if_neg]
    · rfl
    · exact fun h => absurd (List.cons.inj h).1 (cons_ne_nil _ _)

/-- Else the root is lost. -/
theorem normalizeLexical_of_not_keepsRoot {path : Text} {l : Location}
    (h : locate path = some l) (hkeeps : ¬ l.KeepsRoot) :
    normalizeLexical path = ['/'].intercalate l.names := by
  rcases locate_cases h with ⟨rest, hrest, rfl⟩ | ⟨letter, rest, hletter, hrest, rfl⟩
  · rw [keepsRoot_posix_iff, not_not] at hkeeps
    rw [normalizeLexical_posix hrest, if_pos hkeeps]
    rfl
  · rw [normalizeLexical_drive hletter hrest, (walk_below [letter, ':'] [] _).2 hkeeps]
    rfl

/-! ## The comparison -/

namespace Location

/-- What is known of a located path. -/
structure WellFormed (l : Location) : Prop where
  isName : ∀ name ∈ l.names, IsName name
  letter : '/' ∉ l.root.name

theorem wellFormed_of_locate {path : Text} {l : Location} (h : locate path = some l) : l.WellFormed where
  isName _ := isName_of_mem_names h
  letter := by
    rcases locate_cases h with ⟨rest, hrest, rfl⟩ | ⟨letter, rest, hletter, hrest, rfl⟩
    · exact not_mem_nil
    · change '/' ∉ [letter, ':']
      rw [mem_cons, mem_singleton]
      exact not_or.mpr ⟨hletter.symm, by decide⟩

variable {d p l : Location}

theorem WellFormed.no_slash (h : l.WellFormed) : ∀ name ∈ l.path, '/' ∉ name := by
  rw [path, forall_mem_cons]
  exact ⟨h.letter, fun name hname => (h.isName name hname).no_slash⟩

/-- Names are written out up to a character that is no separator. -/
private theorem intercalate_eq_concat {first : Text} {names : List Text} (hfirst : '/' ∉ first)
    (hne : first ≠ [] ∨ names ≠ []) (hnames : ∀ name ∈ names, IsName name) :
    ∃ init c, c ≠ '/' ∧ ['/'].intercalate (first :: names) = init ++ [c] := by
  induction names generalizing first with
  | nil =>
    rcases eq_nil_or_concat' first with rfl | ⟨init, c, rfl⟩
    · rcases hne with hne | hne
      · exact absurd rfl hne
      · exact absurd rfl hne
    · refine ⟨init, c, ?_, intercalate_singleton⟩
      rintro rfl
      exact hfirst (mem_append_right _ (mem_singleton.mpr rfl))
  | cons name names ih =>
    obtain ⟨hname, hrest⟩ := forall_mem_cons.mp hnames
    obtain ⟨init, c, hc, heq⟩ := ih hname.no_slash (.inl hname.ne_nil) hrest
    refine ⟨first ++ ['/'] ++ init, c, hc, ?_⟩
    rw [intercalate_cons_cons, heq, append_assoc, append_assoc, append_assoc]

/-- The text is the written path without the last separator, unless that is all of it. -/
theorem WellFormed.text_cases (h : l.WellFormed) : (l.path = [[]] ∧ l.text = ['/']) ∨
      (∃ init c, c ≠ '/' ∧ l.text = init ++ [c]) ∧ written '/' l.path = l.text ++ ['/'] := by
  rw [text]
  by_cases hroot : l.path = [[]]
  · rw [if_pos hroot]
    exact .inl ⟨hroot, rfl⟩
  · rw [if_neg hroot]
    refine .inr ⟨intercalate_eq_concat h.letter ?_ h.isName, written_eq (cons_ne_nil _ _)⟩
    by_contra hnot
    obtain ⟨hfirst, hnames⟩ := not_or.mp hnot
    rw [not_not] at hfirst hnames
    exact hroot (by rw [path, hfirst, hnames])

theorem WellFormed.trimSlashes_text (h : l.WellFormed) :
    trimSlashes l.text ++ ['/'] = written '/' l.path := by
  rcases h.text_cases with ⟨hpath, htext⟩ | ⟨⟨init, c, hc, htext⟩, hwritten⟩
  · rw [htext, hpath]
    rfl
  · rw [hwritten, htext, trimSlashes, rdropWhile_concat_neg]
    rw [beq_iff_eq]
    exact hc

theorem WellFormed.text_ne_nil (h : l.WellFormed) : l.text ≠ [] := by
  rcases h.text_cases with ⟨-, htext⟩ | ⟨⟨init, c, -, htext⟩, -⟩
  · rw [htext]
    exact cons_ne_nil _ _
  · rw [htext]
    exact append_ne_nil_of_right_ne_nil _ (cons_ne_nil _ _)

theorem covers_iff : d.Covers p ↔ d.path <+: p.path := by
  rw [path, path, cons_prefix_cons, Covers]
  refine and_congr_left fun _ => ⟨fun h => by rw [h], fun h => ?_⟩
  cases hd : d.root with
  | posix =>
    cases hp : p.root with
    | posix => rfl
    | drive letter =>
      rw [hd, hp] at h
      cases h
  | drive letter =>
    cases hp : p.root with
    | posix =>
      rw [hd, hp] at h
      cases h
    | drive other =>
      rw [hd, hp] at h
      rw [(List.cons.inj h).1]

/-- The comparison of texts is that of canonical paths. -/
theorem text_eq_or_prefix_iff (hd : d.WellFormed) (hp : p.WellFormed) :
    p.text = d.text ∨ trimSlashes d.text ++ ['/'] <+: p.text ↔ d.Covers p := by
  rw [hd.trimSlashes_text, covers_iff, ← written_prefix_iff hd.no_slash hp.no_slash]
  rcases hp.text_cases with ⟨hproot, hptext⟩ | ⟨⟨init, c, hc, hptext⟩, hpwritten⟩
  · -- the root of a POSIX path is its own written path
    have hwritten : written '/' p.path = p.text := by
      rw [hproot, hptext]
      rfl
    rw [hwritten]
    refine ⟨fun h => h.elim (fun heq => ?_) id, .inr⟩
    rcases hd.text_cases with ⟨hdroot, -⟩ | ⟨⟨init, c, hc, hdtext⟩, -⟩
    · rw [hdroot, hptext]
      exact prefix_rfl
    · rw [hptext, hdtext] at heq
      cases init with
      | nil => exact absurd (List.cons.inj heq).1.symm hc
      | cons e init => cases init <;> cases (List.cons.inj heq).2
  · rw [hpwritten, prefix_concat_iff]
    refine or_congr_left ?_
    rcases hd.text_cases with ⟨hdroot, hdtext⟩ | ⟨-, hdwritten⟩
    · rw [hdroot, hdtext, hptext]
      constructor
      · intro heq
        cases init with
        | nil => exact absurd (List.cons.inj heq).1 hc
        | cons e init => cases init <;> cases (List.cons.inj heq).2
      · intro heq
        cases init with
        | nil => cases heq
        | cons e init => cases init <;> cases (List.cons.inj heq).2
    · rw [hdwritten, append_cancel_right_eq]
      exact eq_comm

end Location

/-! ## The verdict -/

theorem pathIsDenied_iff (path : Text) (denyDirs : List Text) (home : Option Text) :
    pathIsDenied path denyDirs home = true ↔ ∃ d ∈ denyDirs, normalizeLexical d ≠ [] ∧
        (normalizeLexical (expandTilde (slashes path) home) = normalizeLexical d ∨
          trimSlashes (normalizeLexical d) ++ ['/'] <+:
            normalizeLexical (expandTilde (slashes path) home)) := by
  rw [pathIsDenied, any_eq_true]
  refine exists_congr fun d => and_congr_right fun _ => ?_
  have hd : normalizeLexical (slashes d) = normalizeLexical d := by
    rw [normalizeLexical, slashes_slashes]
    rfl
  dsimp only
  rw [hd]
  cases normalizeLexical d with
  | nil => exact ⟨fun h => absurd h Bool.false_ne_true, fun h => absurd rfl h.1⟩
  | cons c dn =>
    rw [isEmpty_cons, if_neg Bool.false_ne_true, Bool.or_eq_true, beq_iff_eq,
      isPrefixOf_iff_prefix]
    exact (and_iff_right (cons_ne_nil _ _)).symm

variable {home : Option Text}

/-- A path that keeps its root is denied exactly if a deny directory covers it. -/
theorem pathIsDenied_of_keepsRoot {path : Text} {p : Location}
    (hp : locateExpanded path home = some p) (hkeeps : p.KeepsRoot) {denyDirs : List Text}
    (hdirs : ∀ d ∈ denyDirs, ∃ l, locate d = some l ∧ l.KeepsRoot) :
    pathIsDenied path denyDirs home = true ↔ ∃ d ∈ denyDirs, ∃ l, locate d = some l ∧ l.Covers p := by
  rw [pathIsDenied_iff, normalizeLexical_of_keepsRoot hp hkeeps]
  refine exists_congr fun d => and_congr_right fun hd => ?_
  obtain ⟨l, hl, hlkeeps⟩ := hdirs d hd
  have hwell := Location.wellFormed_of_locate hl
  rw [normalizeLexical_of_keepsRoot hl hlkeeps,
    Location.text_eq_or_prefix_iff hwell (Location.wellFormed_of_locate hp)]
  constructor
  · rintro ⟨-, hcovers⟩
    exact ⟨l, hl, hcovers⟩
  · rintro ⟨l', hl', hcovers⟩
    cases hl.symm.trans hl'
    exact ⟨hwell.text_ne_nil, hcovers⟩

/-- The canonical path of a drive is a path of its own, without moves up. -/
private theorem exists_locate_drive {letter : Char} {names : List Text} (hletter : letter ≠ '/')
    (hbackslash : letter ≠ '\\') (hnames : ∀ name ∈ names, IsName name) :
    ∃ dir d, locate dir = some d ∧ d.root = .drive letter ∧ d.names = names ∧ d.KeepsRoot := by
  have hjoined : '\\' ∉ ['/'].intercalate names := by
    induction names with
    | nil => exact not_mem_nil
    | cons name names ih =>
      obtain ⟨hname, hrest⟩ := forall_mem_cons.mp hnames
      cases names with
      | nil =>
        rw [intercalate_singleton]
        exact hname.no_backslash
      | cons next names =>
        rw [intercalate_cons_cons, mem_append, mem_append]
        rintro ((h | h) | h)
        · exact hname.no_backslash h
        · exact absurd h (by decide)
        · exact ih hrest h
  have hslashes (path : Text) (h : '\\' ∉ path) : slashes path = path := by
    rw [slashes]
    refine (map_congr_left fun c hc => if_neg ?_).trans (map_id _)
    rintro rfl
    exact h hc
  have hmoves : ((['/'].intercalate names).splitOn '/').map moveOf =
      if names = [] then [.stay] else names.map .enter := by
    split
    · next hnil =>
      rw [hnil]
      rfl
    · next hne =>
      rw [splitOn_intercalate '/' (fun name h => (hnames name h).no_slash) hne]
      exact map_congr_left fun name h => moveOf_of_isName (hnames name h)
  refine ⟨letter :: ':' :: '/' :: ['/'].intercalate names,
    ⟨.drive letter, if names = [] then [.stay] else names.map .enter⟩, ?_, rfl, ?_, ?_⟩
  · rw [locate, hslashes]
    · split
      · next h => exact absurd (List.cons.inj h).1 hletter
      · next h =>
        cases h
        rw [hmoves]
      · next h => exact absurd rfl (h _ _)
    · rw [mem_cons, mem_cons, mem_cons]
      rintro (h | h | h | h)
      · exact hbackslash h.symm
      · exact absurd h (by decide)
      · exact absurd h (by decide)
      · exact hjoined h
  · rw [Location.names]
    dsimp only
    split
    · next hnil =>
      rw [hnil]
      rfl
    · rw [walk_enter, nil_append]
  · change Grounded 0 (if names = [] then [.stay] else names.map .enter)
    split
    · trivial
    · exact grounded_enter 0 names

private theorem pathIsDenied_singleton {path dir : Text} {normalized dn : Text}
    (hpath : normalizeLexical (expandTilde (slashes path) home) = normalized)
    (hdir : normalizeLexical dir = dn) (hne : normalized ≠ dn)
    (hoff : ¬ trimSlashes dn ++ ['/'] <+: normalized) : pathIsDenied path [dir] home = false := by
  rw [← Bool.not_eq_true, pathIsDenied_iff]
  rintro ⟨d, hd, -, hdenied⟩
  cases mem_singleton.mp hd
  rw [hpath, hdir] at hdenied
  exact hdenied.elim hne hoff

/-- A path that loses its root escapes a deny directory that covers it. -/
theorem exists_escape {path : Text} {p : Location}
    (hp : locateExpanded path home = some p) (hkeeps : ¬ p.KeepsRoot) :
    ∃ dir d, locate dir = some d ∧ d.KeepsRoot ∧ d.Covers p ∧ pathIsDenied path [dir] home = false := by
  have hnormal := normalizeLexical_of_not_keepsRoot hp hkeeps
  have hnames : ∀ name ∈ p.names, IsName name := fun _ => isName_of_mem_names hp
  rcases locate_cases hp with ⟨rest, -, hroot⟩ | ⟨letter, rest, hletter, hslashes, hroot⟩
  · -- the root directory covers the path, whose normal form does not begin with a separator
    have hkeeps : Location.KeepsRoot ⟨.posix, [.stay]⟩ :=
      (keepsRoot_posix_iff []).mpr fun h => by cases h
    have hcovers : Location.Covers ⟨.posix, [.stay]⟩ p := ⟨by rw [hroot], nil_prefix⟩
    refine ⟨['/'], ⟨.posix, [.stay]⟩, rfl, hkeeps, hcovers, ?_⟩
    have hhead : ¬ ['/'] <+: ['/'].intercalate p.names := by
      cases hcases : p.names with
      | nil => exact fun h => absurd (prefix_nil.mp h) (cons_ne_nil _ _)
      | cons name names =>
        have hname := hnames name (hcases ▸ mem_cons_self)
        cases name with
        | nil => exact absurd rfl hname.ne_nil
        | cons c name =>
          intro h
          rw [intercalate_cons_cons_left, cons_prefix_cons] at h
          exact hname.no_slash (h.1 ▸ mem_cons_self)
    have hdir : normalizeLexical ['/'] = ['/'] := rfl
    refine pathIsDenied_singleton hnormal hdir ?_ hhead
    exact fun h => hhead (by rw [h])
  · -- its own canonical path covers the path, whose normal form is shorter
    have hbackslash : letter ≠ '\\' := by
      rintro rfl
      exact backslash_not_mem_slashes _ (hslashes ▸ mem_cons_self)
    obtain ⟨dir, d, hd, hdroot, hdnames, hdkeeps⟩ :=
      exists_locate_drive hletter hbackslash hnames
    have hwell := Location.wellFormed_of_locate hd
    have hpath : d.path = [letter, ':'] :: p.names := by
      rw [Location.path, hdroot, hdnames]
      rfl
    have htext : d.text = ['/'].intercalate d.path := by
      rw [Location.text, hpath, if_neg fun h => absurd (List.cons.inj h).1 (cons_ne_nil _ _)]
    have hlength : (['/'].intercalate p.names).length < d.text.length := by
      rw [htext, hpath]
      cases p.names with
      | nil => exact Nat.succ_pos _
      | cons name names =>
        rw [intercalate_cons_cons, length_append]
        exact Nat.lt_add_of_pos_left (Nat.succ_pos _)
    refine ⟨dir, d, hd, hdkeeps, ⟨?_, hdnames ▸ prefix_rfl⟩,
      pathIsDenied_singleton hnormal (normalizeLexical_of_keepsRoot hd hdkeeps) ?_ ?_⟩
    · rw [hdroot, hroot]
    · exact fun h => absurd (congrArg List.length h) (Nat.ne_of_lt hlength)
    · intro h
      have hle := h.length_le
      rw [hwell.trimSlashes_text, written_eq (hpath ▸ cons_ne_nil _ _ : d.path ≠ []), ← htext,
        length_append] at hle
      omega

/-! ## Respellings are judged alike -/

/-- Exactly the spellings that keep their root are judged by their canonical path. -/
theorem undodgeable_iff {path respelled : Text} {home : Option Text} {p r : Location}
    (hp : locateExpanded path home = some p) (hr : locateExpanded respelled home = some r)
    (hrespells : p.Respells r) : Undodgeable path respelled home p ↔ p.KeepsRoot ∧ r.KeepsRoot := by
  constructor
  · intro h
    have hpkeeps : p.KeepsRoot := by
      by_contra hkeeps
      obtain ⟨dir, d, hd, hdkeeps, hcovers, hfalse⟩ := exists_escape hp hkeeps
      obtain ⟨hverdict, -⟩ := h [dir] fun d' hd' => mem_singleton.mp hd' ▸ ⟨d, hd, hdkeeps⟩
      have htrue := hverdict.mpr ⟨dir, mem_singleton.mpr rfl, d, hd, hcovers⟩
      rw [hfalse] at htrue
      exact Bool.false_ne_true htrue
    refine ⟨hpkeeps, ?_⟩
    by_contra hkeeps
    obtain ⟨dir, d, hd, hdkeeps, hcovers, hfalse⟩ := exists_escape hr hkeeps
    obtain ⟨hverdict, hsame⟩ := h [dir] fun d' hd' => mem_singleton.mp hd' ▸ ⟨d, hd, hdkeeps⟩
    have hcovers' : d.Covers p :=
      ⟨hcovers.1.trans hrespells.1.symm, Location.names_eq_of_respells hrespells ▸ hcovers.2⟩
    have htrue := hverdict.mpr ⟨dir, mem_singleton.mpr rfl, d, hd, hcovers'⟩
    rw [← hsame, hfalse] at htrue
    exact Bool.false_ne_true htrue
  · rintro ⟨hpkeeps, hrkeeps⟩ denyDirs hdirs
    have hpverdict := pathIsDenied_of_keepsRoot hp hpkeeps hdirs
    refine ⟨hpverdict, ?_⟩
    rw [Bool.eq_iff_iff, hpverdict, pathIsDenied_of_keepsRoot hr hrkeeps hdirs]
    simp only [Location.Covers, hrespells.1, Location.names_eq_of_respells hrespells]

/-- A key below the home directory, reached by a detour. -/
theorem undodgeable_iff_ssh :
    let p : Location := ⟨.posix, ["home", "u", ".ssh", "id"].map (.enter ·.toList)⟩
    let r : Location := ⟨.posix, ["home", "u", "project", "..", "", ".ssh", "id"].map (moveOf ·.toList)⟩
    Undodgeable "~/.ssh/id".toList "/home/u/project/..//.ssh/id".toList
        (some "/home/u".toList) p ↔ p.KeepsRoot ∧ r.KeepsRoot :=
  undodgeable_iff (by decide) (by decide)
    ⟨rfl, respelled_iff.mpr (by decide)⟩

/-- A `..` above the root of a drive takes the drive with it, and the key is not denied. -/
theorem not_undodgeable_drive :
    let p : Location := ⟨.drive 'C', ["Users", "u", ".ssh", "id"].map (.enter ·.toList)⟩
    let r : Location := ⟨.drive 'C', ["..", "Users", "u", ".ssh", "id"].map (moveOf ·.toList)⟩
    locateExpanded "C:/Users/u/.ssh/id".toList none = some p ∧
      locateExpanded "C:\\..\\Users\\u\\.ssh\\id".toList none = some r ∧ p.Respells r ∧
      ¬ Undodgeable "C:/Users/u/.ssh/id".toList "C:\\..\\Users\\u\\.ssh\\id".toList none p := by
  refine ⟨by decide, by decide, ⟨rfl, respelled_iff.mpr (by decide)⟩, ?_⟩
  intro h
  have hdir : ∀ d ∈ ["C:/Users/u/.ssh".toList], ∃ l, locate d = some l ∧ l.KeepsRoot := by
    intro d hd
    cases mem_singleton.mp hd
    refine ⟨⟨.drive 'C', ["Users", "u", ".ssh"].map (.enter ·.toList)⟩, by decide, ?_⟩
    change Grounded 0 (["Users", "u", ".ssh"].map (.enter ·.toList))
    decide
  exact absurd (h _ hdir).2 (by decide)

end Taomni.Agent
