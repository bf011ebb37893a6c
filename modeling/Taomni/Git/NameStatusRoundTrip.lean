import Taomni.Git.StatusRoundTrip

/-!
# Name and status read back

In a diff a name with spaces stands without quotes, between tabs.

Reference: `src-tauri/src/git/queries.rs`.
-/

namespace Taomni.Git

open List
open Agent (isWhitespace trim trim_inside)
open Sockscap (textLines stripReturn)

/-! ## Names between tabs -/

/-- A change between two trees as git has it. -/
structure NameChange where
  letter : Char
  score : Text
  path : Text
  oldPath : Option Text
  code : "ADMTRCUX".toList.contains letter ∧ score.all Char.isDigit
  renamed : (letter = 'R' ∨ letter = 'C') ↔ oldPath.isSome
  path_ne_nil : path ≠ []
  oldPath_ne_nil : ∀ old ∈ oldPath, old ≠ []

/-- The names in the fields after the code. -/
def NameChange.names (c : NameChange) : List Text := c.oldPath.toList ++ [c.path]

def NameChange.render (c : NameChange) : Text :=
  c.letter :: c.score ++ c.names.flatMap fun name => '\t' :: quoteCStyle name

/-- `git diff --name-status`. -/
def renderNameStatus (changes : List NameChange) : Text :=
  written '\n' (changes.map NameChange.render)

variable {name : Text}

theorem plain_of_mem_quoteCStyle {c : Char} (h : c ∈ quoteCStyle name) : plain c = true := by
  unfold quoteCStyle at h
  split at h
  · exact plain_of_mem_quoted h
  · rename_i hnone
    rw [any_eq_true] at hnone
    exact plain_of_not_needsQuotes (Bool.eq_false_iff.mpr fun hneeds => hnone ⟨c, h, hneeds⟩)

theorem tab_not_mem_quoteCStyle (name : Text) : '\t' ∉ quoteCStyle name := fun h =>
  absurd (plain_spec (plain_of_mem_quoteCStyle h)) (by decide)

variable {fields : List Text}

theorem splitOn_fields {code : Text} (hcode : '\t' ∉ code) (h : ∀ field ∈ fields, '\t' ∉ field) :
    (code ++ fields.flatMap ('\t' :: ·)).splitOn '\t' = code :: fields := by
  induction fields generalizing code with
  | nil => rw [flatMap_nil, append_nil, splitOn_eq_singleton hcode]
  | cons field fields ih =>
    obtain ⟨hfield, hfields⟩ := forall_mem_cons.mp h
    rw [flatMap_cons, cons_append, splitOn_append_cons_self_of_not_mem hcode,
      ih hfield hfields]

theorem rdropWhile_field (front : Text) (h : name.rdropWhile isWhitespace ≠ []) :
    (front ++ '\t' :: name).rdropWhile isWhitespace = front ++ '\t' :: name.rdropWhile isWhitespace := by
  rw [← singleton_append, ← append_assoc, rdropWhile_append_of_ne_nil h, append_assoc,
    singleton_append]

/-- A name that is not between quotes and loses spaces is not read. -/
theorem not_readable_of_rdropWhile (h : (quoteCStyle name).rdropWhile isWhitespace ≠ quoteCStyle name) :
    quoteCStyle name = name ∧ (∀ c ∈ name, needsQuotes c = false) ∧ ¬Readable name := by
  have hnone : ¬name.any needsQuotes = true := by
    intro hneeds
    refine h ?_
    unfold quoteCStyle
    rw [if_pos hneeds]
    unfold quoted
    rw [← cons_append, rdropWhile_concat_neg _ _ _ (by decide)]
  have hname : quoteCStyle name = name := if_neg hnone
  refine ⟨hname, fun c hc => Bool.eq_false_iff.mpr fun hneeds => hnone ?_, fun hread => h ?_⟩
  · exact any_eq_true.mpr ⟨c, hc, hneeds⟩
  · rw [hname]
    conv_lhs => rw [← hread.2.resolve_left hnone]
    unfold trim
    rw [rdropWhile_idempotent]
    exact hread.2.resolve_left hnone

theorem plain_of_isDigit {c : Char} (h : c.isDigit = true) : plain c = true ∧ c ≠ ' ' := by
  rw [Char.isDigit_iff_toNat] at h
  have hlow : 48 ≤ c.toNat := h.1
  have hhigh : c.toNat ≤ 57 := h.2
  refine ⟨?_, fun heq => ?_⟩
  · unfold plain
    rw [Bool.and_eq_true, decide_eq_true_eq, decide_eq_true_eq]
    omega
  · rw [heq] at hlow
    exact absurd hlow (by decide)

theorem isWhitespace_of_plain {c : Char} (h : plain c = true) (hne : c ≠ ' ') : isWhitespace c = false :=
  Bool.eq_false_iff.mpr fun hspace => hne (eq_space_of_plain h hspace)

namespace NameChange

variable (c : NameChange)

/-- The code has no blanks. -/
theorem code_spec : ∀ d ∈ c.letter :: c.score, plain d = true ∧ d ≠ ' ' := by
  have hall : "ADMTRCUX".toList.all fun x => decide (plain x = true ∧ x ≠ ' ') := by decide
  refine forall_mem_cons.mpr ⟨?_, fun d hd => ?_⟩
  · exact of_decide_eq_true (all_eq_true.mp hall _ (contains_iff_mem.mp c.code.1))
  · exact plain_of_isDigit (all_eq_true.mp c.code.2 d hd)

theorem code_rdropWhile : (c.letter :: c.score).rdropWhile isWhitespace = c.letter :: c.score := by
  rw [rdropWhile_eq_self_iff]
  intro hne
  obtain ⟨hplain, hspace⟩ := c.code_spec _ (getLast_mem hne)
  exact Bool.eq_false_iff.mp (isWhitespace_of_plain hplain hspace)

theorem tab_not_mem_code : '\t' ∉ c.letter :: c.score := fun h =>
  absurd (plain_spec (c.code_spec _ h).1) (by decide)

theorem mem_render {d : Char} (h : d ∈ c.render) : plain d = true ∨ d = '\t' := by
  unfold render at h
  rw [mem_append, mem_flatMap] at h
  rcases h with h | ⟨name, -, h⟩
  · exact .inl (c.code_spec d h).1
  · rw [mem_cons] at h
    exact h.symm.imp_left plain_of_mem_quoteCStyle

theorem newline_not_mem_render : '\n' ∉ c.render := fun h =>
  (c.mem_render h).elim (fun h => absurd (plain_spec h) (by decide)) (by decide)

theorem stripReturn_render : stripReturn c.render = c.render := by
  unfold stripReturn
  rw [if_neg]
  intro h
  rcases c.mem_render (mem_of_getLast? h) with h | h
  · exact absurd (plain_spec h) (by decide)
  · exact absurd h (by decide)

/-- The paths that are read of the names as they are written. -/
theorem namePaths_iff (h : fields = c.names.map quoteCStyle) :
    namePaths c.letter fields = (c.oldPath, c.path) ↔
      Readable c.path ∧ ∀ old ∈ c.oldPath, Readable old := by
  unfold namePaths
  cases hold : c.oldPath with
  | none =>
    have hletter : ¬(c.letter = 'R' ∨ c.letter = 'C') := by
      rw [c.renamed, hold]
      exact Bool.false_ne_true
    have hnames : fields = [quoteCStyle c.path] := by
      rw [h, names, hold]
      rfl
    rw [if_neg hletter, hnames, Prod.mk.injEq, and_iff_right rfl]
    show unquotePath (quoteCStyle c.path) = c.path ↔ _
    rw [unquotePath_quoteCStyle_iff]
    exact ⟨fun h => ⟨h, fun _ h => (Option.not_mem_none _ h).elim⟩, fun h => h.1⟩
  | some old =>
    have hletter : c.letter = 'R' ∨ c.letter = 'C' := by
      rw [c.renamed, hold]
      rfl
    have hnames : fields = [quoteCStyle old, quoteCStyle c.path] := by
      rw [h, names, hold]
      rfl
    rw [if_pos hletter, hnames, Prod.mk.injEq]
    show some (unquotePath (quoteCStyle old)) = some old ∧
      unquotePath (quoteCStyle c.path) = c.path ↔ _
    rw [Option.some.injEq, unquotePath_quoteCStyle_iff, unquotePath_quoteCStyle_iff, and_comm]
    refine and_congr_right fun _ => ⟨fun h o ho => ?_, fun h => h old rfl⟩
    rw [← Option.some.inj ho]
    exact h

theorem render_eq : c.render =
    (c.letter :: c.score) ++ (c.names.map quoteCStyle).flatMap ('\t' :: ·) := by
  unfold render
  rw [flatMap_map]

/-- A line with the code of the change. -/
theorem parseNameLine_fields (h : ∀ field ∈ fields, '\t' ∉ field) :
    let change := parseNameLine ((c.letter :: c.score) ++ fields.flatMap ('\t' :: ·))
    (change.oldPath, change.path) = namePaths c.letter fields := by
  dsimp only
  unfold parseNameLine
  rw [splitOn_fields c.tab_not_mem_code h]
  rfl

theorem parseNameLine_iff :
    ((parseNameLine c.render).oldPath, (parseNameLine c.render).path) = (c.oldPath, c.path) ↔
      Readable c.path ∧ ∀ old ∈ c.oldPath, Readable old := by
  rw [← c.namePaths_iff rfl, c.render_eq, c.parseNameLine_fields]
  exact forall_mem_map.mpr fun name _ => tab_not_mem_quoteCStyle name

theorem namePaths_path (c0 : Char) (oldPath : Option Text) (h : (c0 = 'R' ∨ c0 = 'C') ↔ oldPath.isSome)
    (field : Text) :
    (namePaths c0 ((oldPath.toList.map quoteCStyle) ++ [field])).2 = unquotePath field := by
  unfold namePaths
  cases oldPath with
  | none =>
    rw [if_neg (by rw [h]; exact Bool.false_ne_true)]
    rfl
  | some old =>
    rw [if_pos (h.mpr rfl)]
    rfl

theorem quoteCStyle_ne_nil (h : name ≠ []) : quoteCStyle name ≠ [] := by
  unfold quoteCStyle
  split
  · exact cons_ne_nil _ _
  · exact h

/-- The code and the old name. -/
def front : Text :=
  (c.letter :: c.score) ++ (c.oldPath.toList.map quoteCStyle).flatMap ('\t' :: ·)

theorem render_eq_front : c.render = c.front ++ '\t' :: quoteCStyle c.path := by
  rw [c.render_eq, front, names, map_append, flatMap_append, append_assoc,
    map_singleton, flatMap_singleton]

variable {line : Text}

theorem parseNameLine_code (fields : List Text) (h : ∀ field ∈ fields, '\t' ∉ field)
    (hline : line = (c.letter :: c.score) ++ fields.flatMap ('\t' :: ·)) :
    ((parseNameLine line).oldPath, (parseNameLine line).path) = namePaths c.letter fields := by
  rw [hline]
  exact c.parseNameLine_fields h

/-- A path of blanks is lost, and the old name stands for it. -/
theorem parseNameLine_blank (hpath : quoteCStyle c.path = c.path)
    (hempty : c.path.rdropWhile isWhitespace = []) (hline : line = c.front.rdropWhile isWhitespace) :
    ((parseNameLine line).oldPath, (parseNameLine line).path) ≠ (c.oldPath, c.path) := by
  intro h
  have hcode (hline : line = c.letter :: c.score) : c.oldPath = none ∧ c.path = [] := by
    rw [c.parseNameLine_code [] (fun _ h => absurd h not_mem_nil)
      (by rw [hline, flatMap_nil, append_nil])] at h
    unfold namePaths at h
    split at h <;> exact ⟨(Prod.mk.inj h).1.symm, (Prod.mk.inj h).2.symm⟩
  unfold front at hline
  cases hold : c.oldPath with
  | none =>
    refine c.path_ne_nil (hcode ?_).2
    rw [hline, hold]
    show ((c.letter :: c.score) ++ []).rdropWhile isWhitespace = _
    rw [append_nil, c.code_rdropWhile]
  | some old =>
    have hfront : (c.letter :: c.score) ++ (c.oldPath.toList.map quoteCStyle).flatMap ('\t' :: ·) =
        (c.letter :: c.score) ++ '\t' :: quoteCStyle old := by
      rw [hold, Option.toList_some, map_singleton, flatMap_singleton]
    rw [hfront] at hline
    by_cases hblank : (quoteCStyle old).rdropWhile isWhitespace = []
    · refine Option.some_ne_none old (hold.symm.trans (hcode ?_).1)
      rw [hline, rdropWhile_append_of_forall, c.code_rdropWhile]
      refine forall_mem_cons.mpr ⟨by decide, rdropWhile_eq_nil_iff.mp hblank⟩
    · -- The old name is read for the path, so the two are the same, and blank.
      have hfield : line =
          (c.letter :: c.score) ++ [(quoteCStyle old).rdropWhile isWhitespace].flatMap ('\t' :: ·) := by
        rw [hline, flatMap_singleton, rdropWhile_field _ hblank]
      have hletter : c.letter = 'R' ∨ c.letter = 'C' := by
        rw [c.renamed, hold]
        rfl
      rw [c.parseNameLine_code _ (fun field hmem => ?_) hfield, hold] at h
      · unfold namePaths at h
        rw [if_pos hletter] at h
        have hread : unquotePath ((quoteCStyle old).rdropWhile isWhitespace) = old :=
          Option.some.inj (Prod.mk.inj h).1
        have hpathRead : unquotePath ((quoteCStyle old).rdropWhile isWhitespace) = c.path :=
          (Prod.mk.inj h).2
        rw [hread] at hpathRead
        rw [hpathRead, hpath] at hblank
        exact hblank hempty
      · rw [mem_singleton.mp hmem]
        exact fun htab => tab_not_mem_quoteCStyle old ((List.rdropWhile_prefix _ _).subset htab)

/-- A path that loses blanks at its end is not read. -/
theorem parseNameLine_shorter (hneeds : ∀ d ∈ c.path, needsQuotes d = false)
    (hshorter : c.path.rdropWhile isWhitespace ≠ c.path)
    (hline : line = c.front ++ '\t' :: c.path.rdropWhile isWhitespace) :
    ((parseNameLine line).oldPath, (parseNameLine line).path) ≠ (c.oldPath, c.path) := by
  intro h
  have hstart := rdropWhile_prefix isWhitespace c.path
  have hfields : ∀ field ∈ c.oldPath.toList.map quoteCStyle ++ [c.path.rdropWhile isWhitespace],
      '\t' ∉ field := by
    intro field hmem
    rcases mem_append.mp hmem with hmem | hmem
    · obtain ⟨old, -, rfl⟩ := mem_map.mp hmem
      exact tab_not_mem_quoteCStyle old
    · rw [mem_singleton.mp hmem]
      exact fun htab => absurd (hneeds _ (hstart.subset htab)) (by decide)
  rw [c.parseNameLine_code _ hfields
    (by rw [hline, front, flatMap_append, flatMap_singleton, append_assoc])] at h
  have hread := congrArg Prod.snd h
  rw [namePaths_path c.letter c.oldPath c.renamed,
    unquotePath_of_not_needsQuotes fun d hd => hneeds d (hstart.subset hd)] at hread
  have hlength := (trim_inside (c.path.rdropWhile isWhitespace)).length_le
  rw [hread] at hlength
  exact hshorter (hstart.eq_of_length_le hlength)

/-- Also the line that has lost blanks at its end is read exactly when the names are. -/
theorem parseNameLine_trimmed_iff : let change := parseNameLine (c.render.rdropWhile isWhitespace)
    (change.oldPath, change.path) = (c.oldPath, c.path) ↔
      Readable c.path ∧ ∀ old ∈ c.oldPath, Readable old := by
  dsimp only
  have hrender := c.render_eq_front
  by_cases hkept : (quoteCStyle c.path).rdropWhile isWhitespace = quoteCStyle c.path
  · have hline : c.render.rdropWhile isWhitespace = c.render := by
      rw [hrender, rdropWhile_field, hkept]
      rw [hkept]
      exact quoteCStyle_ne_nil c.path_ne_nil
    rw [hline, c.parseNameLine_iff]
  obtain ⟨hpath, hneeds, hnot⟩ := not_readable_of_rdropWhile hkept
  refine iff_of_false ?_ fun h => hnot h.1
  rw [hpath] at hrender hkept
  by_cases hempty : c.path.rdropWhile isWhitespace = []
  · refine c.parseNameLine_blank hpath hempty ?_
    rw [hrender, rdropWhile_append_of_forall]
    exact forall_mem_cons.mpr ⟨by decide, rdropWhile_eq_nil_iff.mp hempty⟩
  · exact c.parseNameLine_shorter hneeds hkept (by rw [hrender, rdropWhile_field _ hempty])

/-- A line with the letter of the change is not blank. -/
theorem trim_ne_nil (h : c.letter ∈ line) : trim line ≠ [] := fun hnil => by
  have hspace : isWhitespace c.letter = false :=
    isWhitespace_of_plain (c.code_spec _ mem_cons_self).1 (c.code_spec _ mem_cons_self).2
  have hmem : c.letter ∈ line.dropWhile isWhitespace := by
    have happend := h
    rw [← takeWhile_append_dropWhile (p := isWhitespace) (l := line), mem_append] at happend
    refine happend.resolve_left fun htake => ?_
    rw [mem_takeWhile_imp htake] at hspace
    cases hspace
  have hkept : c.letter ∈ trim line := mem_rdropWhile hmem (Bool.eq_false_iff.mp hspace)
  rw [hnil] at hkept
  cases hkept

theorem letter_mem_render : c.letter ∈ c.render :=
  mem_append_left _ mem_cons_self

theorem letter_mem_rdropWhile : c.letter ∈ c.render.rdropWhile isWhitespace :=
  mem_rdropWhile c.letter_mem_render <| Bool.eq_false_iff.mp <|
    isWhitespace_of_plain (c.code_spec _ mem_cons_self).1 (c.code_spec _ mem_cons_self).2

end NameChange

/-! ## All changes -/

/-- The lines of the output: only the last one loses blanks at its end. -/
theorem textLines_renderNameStatus (front : List NameChange) (last : NameChange) :
    textLines (commandOutput (renderNameStatus (front ++ [last]))) =
      front.map NameChange.render ++ [last.render.rdropWhile isWhitespace] := by
  unfold renderNameStatus
  rw [map_append, map_singleton, textLines_commandOutput ?_ last.newline_not_mem_render ?_,
    map_map]
  · congr 1
    exact map_congr_left fun c _ => c.stripReturn_render
  · exact forall_mem_map.mpr fun c _ => c.newline_not_mem_render
  · exact ne_nil_of_mem last.letter_mem_rdropWhile

theorem parseNameStatus_append (front : List NameChange) (last : NameChange) :
    parseNameStatus (commandOutput (renderNameStatus (front ++ [last]))) =
      (front.map fun c => parseNameLine c.render) ++
        [parseNameLine (last.render.rdropWhile isWhitespace)] := by
  unfold parseNameStatus
  rw [textLines_renderNameStatus, filter_eq_self.mpr, map_append, map_map,
    map_singleton]
  · rfl
  · intro line hline
    rw [Bool.not_eq_true', ← Bool.not_eq_true, List.isEmpty_iff]
    rcases mem_append.mp hline with hline | hline
    · obtain ⟨c, -, rfl⟩ := mem_map.mp hline
      exact c.trim_ne_nil c.letter_mem_render
    · rw [mem_singleton.mp hline]
      exact last.trim_ne_nil last.letter_mem_rdropWhile

/-- The paths of all changes are read exactly when each is. -/
theorem parseNameStatus_iff (changes : List NameChange) :
    (parseNameStatus (commandOutput (renderNameStatus changes))).map
        (fun change => (change.oldPath, change.path)) = changes.map (fun c => (c.oldPath, c.path)) ↔
      ∀ c ∈ changes, Readable c.path ∧ ∀ old ∈ c.oldPath, Readable old := by
  rcases eq_nil_or_concat changes with rfl | ⟨front, last, rfl⟩
  · exact iff_of_true rfl fun _ h => absurd h not_mem_nil
  rw [concat_eq_append, parseNameStatus_append, map_append, map_append, map_map,
    map_singleton, map_singleton]
  constructor
  · intro h
    obtain ⟨hfront, hlast⟩ := append_inj' h rfl
    intro c hc
    rcases mem_append.mp hc with hc | hc
    · exact c.parseNameLine_iff.mp (List.map_inj_left.mp hfront c hc)
    · rw [mem_singleton.mp hc]
      exact last.parseNameLine_trimmed_iff.mp (List.cons.inj hlast).1
  · intro h
    rw [last.parseNameLine_trimmed_iff.mpr (h last (mem_append_right _ mem_cons_self))]
    congr 1
    exact map_congr_left fun c hc =>
      c.parseNameLine_iff.mpr (h c (mem_append_left _ hc))

/-- The paths of the short status are read exactly when each is. -/
theorem parseStatus_iff {branch : Text} (hbranch : '\n' ∉ branch) (changes : List StatusChange) :
    (∃ s, parseStatus (commandOutput (renderStatus branch changes)) = some s ∧
        s.changes.map (fun change => (change.oldPath, change.path)) =
          changes.map (fun c => (c.oldPath, c.path))) ↔
      ∀ c ∈ changes, StatusReadable c.oldPath c.path := by
  obtain ⟨s, hs, hchanges⟩ := parseStatus_render hbranch changes
  have hparsed : s.changes.map (fun change => (change.oldPath, change.path)) =
      changes.map fun c => splitRename (renderPaths c.oldPath c.path) := by
    rw [hchanges, map_map]
    rfl
  constructor
  · rintro ⟨s', hs', hpaths⟩
    obtain rfl := Option.some.inj (hs.symm.trans hs')
    rw [hparsed] at hpaths
    exact fun c hc => (splitRename_iff c.oldPath c.path).mp (List.map_inj_left.mp hpaths c hc)
  · intro h
    refine ⟨s, hs, hparsed.trans (map_congr_left fun c hc => ?_)⟩
    exact (splitRename_iff c.oldPath c.path).mpr (h c hc)

/-- Both formats: which lists of changes are read back with exactly their paths. -/
theorem paths_read_iff {branch : Text} (hbranch : '\n' ∉ branch) (changes : List StatusChange)
    (nameChanges : List NameChange) :
    ((∃ s, parseStatus (commandOutput (renderStatus branch changes)) = some s ∧
          s.changes.map (fun change => (change.oldPath, change.path)) =
            changes.map (fun c => (c.oldPath, c.path))) ↔
        ∀ c ∈ changes, StatusReadable c.oldPath c.path) ∧
      ((parseNameStatus (commandOutput (renderNameStatus nameChanges))).map
          (fun change => (change.oldPath, change.path)) =
            nameChanges.map (fun c => (c.oldPath, c.path)) ↔
        ∀ c ∈ nameChanges, Readable c.path ∧ ∀ old ∈ c.oldPath, Readable old) :=
  ⟨parseStatus_iff hbranch changes, parseNameStatus_iff nameChanges⟩

/-- An untracked file with a name beyond ASCII. -/
def accented : StatusChange where
  x := '?'
  y := '?'
  path := "été".toList
  oldPath := none
  codes := by decide
  path_ne_nil := cons_ne_nil _ _
  oldPath_ne_nil := fun _ h => (Option.not_mem_none _ h).elim

/-- A changed file with an arrow in its name. -/
def arrowed : StatusChange where
  x := ' '
  y := 'M'
  path := "a -> b".toList
  oldPath := none
  codes := by decide
  path_ne_nil := cons_ne_nil _ _
  oldPath_ne_nil := fun _ h => (Option.not_mem_none _ h).elim

/-- A renamed file: both names have a space, and the new one quotes. -/
def renamedQuotes : StatusChange where
  x := 'R'
  y := ' '
  path := "a \"b\"".toList
  oldPath := some "a b".toList
  codes := by decide
  path_ne_nil := cons_ne_nil _ _
  oldPath_ne_nil := fun _ h => by
    rw [← Option.some.inj h]
    exact cons_ne_nil _ _

/-- A file whose name starts with a space. -/
def spaced : NameChange where
  letter := 'A'
  score := []
  path := " a".toList
  oldPath := none
  code := by decide
  renamed := by decide
  path_ne_nil := cons_ne_nil _ _
  oldPath_ne_nil := fun _ h => (Option.not_mem_none _ h).elim

theorem paths_read_iff_renamed : '\n' ∉ "main".toList ∧
      (∃ s, parseStatus (commandOutput (renderStatus "main".toList [renamedQuotes])) = some s ∧
        s.changes.map (fun change => (change.oldPath, change.path)) =
          [renamedQuotes].map (fun c => (c.oldPath, c.path))) :=
  ⟨by decide, (paths_read_iff (by decide) [renamedQuotes] [spaced]).1.mpr fun c hc => by
    rw [mem_singleton.mp hc]
    refine ⟨all_eq_true.mp (by decide), fun old hold => ?_, ?_⟩
    · rw [← Option.some.inj hold]
      exact all_eq_true.mp (by decide)
    · exact (splitOnce_eq_none (cons_ne_nil _ _)).mp (by decide)⟩

/-- The escapes of a name stay, an arrow in a name parts it, and a space at an end is lost. -/
theorem paths_misread :
    let read := fun c => (parseStatus (commandOutput (renderStatus "main".toList [c]))).map fun s =>
      s.changes.map fun change => (change.oldPath, change.path)
    read accented = some [(none, "\\303\\251t\\303\\251".toList)] ∧
      accented.path ≠ "\\303\\251t\\303\\251".toList ∧
      read arrowed = some [(some ['"', 'a'], ['b', '"'])] ∧ arrowed.oldPath = none ∧
      (parseNameStatus (commandOutput (renderNameStatus [spaced]))).map (·.path) = [['a']] ∧
      spaced.path ≠ ['a'] := by
  decide

end Taomni.Git
