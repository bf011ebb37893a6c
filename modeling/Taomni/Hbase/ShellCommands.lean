import Taomni.Hbase.ShellLiterals

/-!
# Commands of the HBase shell

A command is parsed to the texts of its literals exactly when each of them comes through.

Reference: `src-tauri/src/hbase/shell_parser.rs`, `parse_shell_command`.
-/

namespace Taomni.Hbase.Shell

open List
open Agent (Text isWhitespace trim trim_inside trim_trim eq_trim leading trailing)
open Dap (parseUsize)
open Option (bind_some getD_some map_some mem_toList)

/-! ## Counting -/

theorem meanings_eq_some {d b : Char} (h : meanings d = some b) :
    d = '\'' ∧ b = '\'' ∨ d = '"' ∧ b = '"' ∨ d = 'n' ∧ b = '\n' ∨ d = 't' ∧ b = '\t' := by
  rw [meanings, addMeaning] at h
  split at h
  · next hd => exact .inr (.inr (.inr ⟨hd, (Option.some.inj h).symm⟩))
  · rw [addMeaning] at h
    split at h
    · next hd => exact .inr (.inr (.inl ⟨hd, (Option.some.inj h).symm⟩))
    · rw [addMeaning] at h
      split at h
      · next hd => exact .inr (.inl ⟨hd, (Option.some.inj h).symm⟩)
      · rw [addMeaning] at h
        split at h
        · next hd => exact .inl ⟨hd, (Option.some.inj h).symm⟩
        · cases h

/-- The letters that no escape gives or takes. -/
def IsSteady (x : Char) : Prop := x = '[' ∨ x = '\'' ∨ x = '"'

section

variable {x : Char} (hx : IsSteady x)
include hx

theorem IsSteady.ne : x ≠ '\\' := by
  rcases hx with rfl | rfl | rfl <;> decide

theorem count_readEscapes_steady (text : Text) : (readEscapes '\\' meanings text).count x = text.count x := by
  refine count_readEscapes hx.ne (fun d b h => ?_) text
  rcases meanings_eq_some h with ⟨rfl, rfl⟩ | ⟨rfl, rfl⟩ | ⟨rfl, rfl⟩ | ⟨rfl, rfl⟩
  · exact Iff.rfl
  · exact Iff.rfl
  · refine iff_of_false ?_ ?_ <;> rintro rfl <;> exact absurd hx (by unfold IsSteady; decide)
  · refine iff_of_false ?_ ?_ <;> rintro rfl <;> exact absurd hx (by unfold IsSteady; decide)

theorem count_read (l : Literal) : l.read.count x = l.text.count x := by
  rw [Literal.read, count_readEscapes_steady hx, count_escaped hx.ne]

theorem count_stripQuotes_le (text : Text) : (stripQuotes text).count x ≤ text.count x := by
  have htrim : (trim text).count x ≤ text.count x := (trim_inside text).sublist.count_le x
  rw [stripQuotes]
  split
  · rw [unescape_eq, count_readEscapes_steady hx]
    exact (((dropLast_sublist _).trans (tail_sublist _)).count_le x).trans htrim
  · exact htrim

end

theorem count_splitFrom_le {x : Char} {s : Scan} {current text item : Text} (h : item ∈ splitFrom ',' s current text) :
    item.count x ≤ current.count x + text.count x := by
  induction text generalizing s current with
  | nil =>
    rw [splitFrom] at h
    split at h
    · cases h
    · rw [mem_singleton.mp h]
      exact ((trim_inside current).sublist.count_le x).trans (Nat.le_add_right _ _)
  | cons c text ih =>
    have hcons : (c :: text).count x = [c].count x + text.count x :=
      (count_append : ([c] ++ text).count x = _)
    rw [splitFrom] at h
    split at h
    · have hitem := ih h
      rw [count_append] at hitem
      omega
    · rcases mem_cons.mp h with rfl | h
      · exact ((trim_inside current).sublist.count_le x).trans (Nat.le_add_right _ _)
      · have hitem := ih h
        rw [count_nil] at hitem
        omega

/-! ## Columns -/

/-- A text that is a column when it is in no quotes. -/
structure Bare (text : Text) : Prop where
  trimmed : trim text = text
  brackets : ¬IsBracketed '[' ']' text
  quotes : ¬IsQuoted text

theorem isWhitespace_of_head?_trim {text : Text} {c : Char} (h : (trim text).head? = some c) : isWhitespace c = false := by
  have hdrop : (text.dropWhile isWhitespace).head? = some c := by
    obtain ⟨rest, hrest⟩ := rdropWhile_prefix isWhitespace (text.dropWhile isWhitespace)
    rw [← hrest, head?_append]
    exact (congrArg (fun first => first.or rest.head?) h).trans Option.some_or
  have hnot := head?_dropWhile_not isWhitespace text
  rw [hdrop] at hnot
  exact hnot

variable {l : Literal}

theorem leading_read (h : trim l.text = l.text) : leading l.read = [] := by
  rw [leading]
  cases hread : l.read with
  | nil => rfl
  | cons c rest =>
    refine takeWhile_cons_of_neg ?_
    have hc : l.text.head? = some c := by rw [← head?_read, hread, head?_cons]
    rw [isWhitespace_of_head?_trim (h.symm ▸ hc)]
    exact Bool.false_ne_true

theorem not_mem_trailing (text : Text) : '\\' ∉ trailing text := by
  intro hmem
  have hspace := mem_rtakeWhile_imp hmem
  exact absurd hspace (by decide)

/-- A text is never what its piece in brackets is. -/
theorem not_mem_pieces {text item : Text} (h : IsBracketed '[' ']' text) (hitem : item ∈ splitTopLevel ',' text.tail.dropLast) :
    (stripQuotes item).count '[' < text.count '[' := by
  have hsteady : IsSteady '[' := .inl rfl
  obtain ⟨rest, rfl⟩ := List.head?_eq_some_iff.mp h.1
  have hpiece := (count_stripQuotes_le hsteady item).trans (count_splitFrom_le hitem)
  have hinner := (dropLast_sublist rest).count_le '['
  rw [count_nil, tail_cons] at hpiece
  rw [count_cons_self]
  omega

theorem count_unquoted_lt {text : Text} (h : IsQuoted text) :
    ∃ x, IsSteady x ∧ (unescape text.tail.dropLast).count x < text.count x := by
  obtain ⟨x, hx, rest, rfl⟩ : ∃ x, IsSteady x ∧ ∃ rest, text = x :: rest := by
    rcases h.1 with ⟨hhead, -⟩ | ⟨hhead, -⟩
    · exact ⟨'\'', .inr (.inl rfl), List.head?_eq_some_iff.mp hhead⟩
    · exact ⟨'"', .inr (.inr rfl), List.head?_eq_some_iff.mp hhead⟩
  refine ⟨x, hx, ?_⟩
  have hinner := (dropLast_sublist rest).count_le x
  rw [unescape_eq, count_readEscapes_steady hx, tail_cons, count_cons_self]
  omega

/-- One column is unquoted twice. -/
theorem parseColumnsValue_read_iff (l : Literal) :
    parseColumnsValue l.read = [l.text] ↔ l.Kept ∧ Bare l.text := by
  have hlength {x : Char} (hx : IsSteady x) : (trim l.read).count x ≤ l.text.count x := by
    rw [← count_read hx]
    exact (trim_inside l.read).sublist.count_le x
  constructor
  · intro h
    rw [parseColumnsValue] at h
    by_cases hbracketed : IsBracketed '[' ']' (trim l.read)
    · -- A piece has one bracket less.
      rw [if_pos hbracketed] at h
      have hmem := h ▸ mem_singleton_self l.text
      obtain ⟨item, hitem, heq⟩ := mem_map.mp (mem_filter.mp hmem).1
      have hlt := not_mem_pieces hbracketed hitem
      have hle := hlength (x := '[') (.inl rfl)
      rw [heq] at hlt
      omega
    · rw [if_neg hbracketed, stripQuotes, trim_trim] at h
      have h := (List.cons.inj h).1
      by_cases hquoted : IsQuoted (trim l.read)
      · -- What is unquoted has one quote less.
        rw [if_pos hquoted] at h
        obtain ⟨x, hx, hlt⟩ := count_unquoted_lt hquoted
        have hle := hlength hx
        rw [h] at hlt
        omega
      · rw [if_neg hquoted] at h
        have htrimmed : trim l.text = l.text := by rw [← h, trim_trim]
        have hread : l.read = l.text ++ trailing l.read := by
          calc l.read = leading l.read ++ trim l.read ++ trailing l.read := eq_trim _
            _ = l.text ++ trailing l.read := by rw [leading_read htrimmed, nil_append, h]
        exact ⟨((read_append_iff (not_mem_trailing _)).mp hread).1, htrimmed, h ▸ hbracketed, h ▸ hquoted⟩
  · rintro ⟨hkept, hbare⟩
    rw [read_iff.mpr hkept, parseColumnsValue, hbare.trimmed, if_neg hbare.brackets, stripQuotes, hbare.trimmed,
      if_neg hbare.quotes]

/-- The columns of a list. -/
def writeList (columns : List Literal) : Text := '[' :: (", ".toList.intercalate (columns.map Literal.write) ++ [']'])

variable (w : Written) (columns : List Literal)

theorem trimmed_writeList : Trimmed (writeList columns) :=
  trimmed_between (by decide) (by decide) _

theorem stripQuotes_writeList : stripQuotes (writeList columns) = writeList columns := by
  rw [stripQuotes, (trimmed_writeList columns).trim, if_neg]
  intro hquoted
  rcases hquoted.1 with ⟨hc, -⟩ | ⟨hc, -⟩ <;> exact absurd (Option.some.inj hc) (by decide)

theorem scanAll_writeList {s : Scan} (h : s.Outside) (columns : List Literal) : scanAll s (writeList columns) = some s := by
  have hinside : ({ s with bracketDepth := s.bracketDepth + 1 } : Scan).Outside := h
  rw [writeList, scanAll_cons, next_bracket h, bind_some, scanAll_append,
    scanAll_intercalate hinside (.inr (Nat.succ_ne_zero _)), bind_some, scanAll_cons, next_closeBracket hinside]
  · rfl
  · intro item hitem
    obtain ⟨column, -, rfl⟩ := mem_map.mp hitem
    exact scanAll_write hinside column

theorem filter_read_iff :
    (columns.map Literal.read).filter (fun column => !column.isEmpty) = columns.map Literal.text ↔
      ∀ column ∈ columns, column.Arg := by
  induction columns with
  | nil => exact iff_of_true rfl nofun
  | cons column columns ih =>
    rw [forall_mem_cons, map_cons, map_cons]
    by_cases hempty : column.text = []
    · -- An empty column is left out, so the list is shorter.
      refine iff_of_false (fun h => ?_) fun h => h.1.1 hempty
      have hlength := length_filter_le (fun column => !column.isEmpty) (columns.map Literal.read)
      rw [read_eq_nil.mpr hempty, filter_cons_of_neg Bool.false_ne_true] at h
      rw [h, length_cons, length_map, length_map] at hlength
      omega
    · have hread : (!column.read.isEmpty) = true := by
        rw [isEmpty_eq_false_iff.mpr (mt read_eq_nil.mp hempty)]
        rfl
      rw [filter_cons_of_pos (p := fun column : Text => !column.isEmpty) hread, List.cons.injEq, ih, read_iff]
      exact and_congr_left' (and_iff_right hempty).symm

theorem parseColumnsValue_writeList_iff :
    parseColumnsValue (writeList columns) = columns.map Literal.text ↔ ∀ column ∈ columns, column.Arg := by
  have hbracketed : IsBracketed '[' ']' (writeList columns) := ⟨rfl, getLast?_between _ _ _⟩
  have hinner : (writeList columns).tail.dropLast = ", ".toList.intercalate (columns.map Literal.write) := dropLast_concat
  have hitems : ∀ item ∈ columns.map Literal.write, IsItem item := by
    intro item hitem
    obtain ⟨column, -, rfl⟩ := mem_map.mp hitem
    exact isItem_write column
  have hstrip : (columns.map Literal.write).map stripQuotes = columns.map Literal.read := by
    rw [map_map]
    exact map_congr_left fun column _ => stripQuotes_write column
  rw [parseColumnsValue, (trimmed_writeList columns).trim, if_pos hbracketed, hinner, splitTopLevel_items hitems, hstrip]
  exact filter_read_iff columns

/-! ## Scan options -/

def Columns.entries : Columns → List (Text × Text)
  | all => []
  | one column => [("COLUMN".toList, column.write)]
  | list columns => [("COLUMNS".toList, writeList columns)]

namespace ScanOptions

variable (options : ScanOptions)

def entries : List (Text × Text) :=
  (options.startRow.map fun row => ("STARTROW".toList, row.write)).toList ++
    (options.stopRow.map fun row => ("STOPROW".toList, row.write)).toList ++ options.columns.entries

theorem write_eq : options.write = if options.entries = [] then [] else ", ".toList ++ writeMap options.entries := by
  have hparts : (options.startRow.map fun row => "STARTROW => ".toList ++ row.write).toList ++
      (options.stopRow.map fun row => "STOPROW => ".toList ++ row.write).toList ++ options.columns.write =
      options.entries.map writeEntry := by
    obtain ⟨startRow, stopRow, columns⟩ := options
    cases startRow <;> cases stopRow <;> cases columns <;> rfl
  have hempty : (options.entries.map writeEntry).isEmpty = true ↔ options.entries = [] := by
    rw [List.isEmpty_iff, map_eq_nil_iff]
  rw [write, hparts]
  by_cases h : options.entries = []
  · rw [if_pos h]
    exact if_pos (hempty.mpr h)
  · rw [if_neg h]
    refine (if_neg (mt hempty.mp h)).trans ?_
    rw [append_assoc]
    rfl

/-- The map that is read. -/
def map : Options := options.entries.foldl (fun out entry => out.insert entry.1 (stripQuotes entry.2)) []

theorem get_limit : options.map.get "LIMIT".toList = none := by
  obtain ⟨startRow, stopRow, columns⟩ := options
  cases startRow <;> cases stopRow <;> cases columns <;> rfl

theorem get_startRow : options.map.get "STARTROW".toList = options.startRow.map Literal.read := by
  obtain ⟨startRow, stopRow, columns⟩ := options
  cases startRow <;> cases stopRow <;> cases columns <;> first | rfl | exact congrArg some (stripQuotes_write _)

theorem get_stopRow : (options.map.get "STOPROW".toList).or (options.map.get "ENDROW".toList) =
    options.stopRow.map Literal.read := by
  obtain ⟨startRow, stopRow, columns⟩ := options
  cases startRow <;> cases stopRow <;> cases columns <;> first | rfl | exact congrArg some (stripQuotes_write _)

/-- The text that is taken for the columns. -/
def columnsValue : Columns → Option Text
  | .all => none
  | .one column => some column.read
  | .list columns => some (writeList columns)

theorem get_columns : (options.map.get "COLUMNS".toList).or (options.map.get "COLUMN".toList) =
    columnsValue options.columns := by
  obtain ⟨startRow, stopRow, columns⟩ := options
  cases startRow <;> cases stopRow <;> cases columns <;>
    first | rfl | exact congrArg some (stripQuotes_write _) | exact congrArg some (stripQuotes_writeList _)

end ScanOptions

/-- The letters of a key. -/
def IsKeyLetter (c : Char) : Bool := IsPlain c && c != '=' && !isWhitespace c && c.toUpper == c

theorem isEntry_of_letters {key value : Text} (hne : key ≠ []) (hkey : key.all IsKeyLetter = true) (hvalue : Trimmed value)
    (hscan : ∀ s : Scan, s.Outside → scanAll s value = some s) : IsEntry (key, value) := by
  have hletters : ∀ c ∈ key, (IsPlain c = true ∧ c ≠ '=') ∧ isWhitespace c = false ∧ c.toUpper = c := by
    intro c hc
    have hletter := all_eq_true.mp hkey c hc
    rw [IsKeyLetter, Bool.and_eq_true, Bool.and_eq_true, Bool.and_eq_true, bne_iff_ne, Bool.not_eq_true', beq_iff_eq,
      and_assoc] at hletter
    exact hletter
  refine ⟨⟨hne, fun c hc => ?_, fun c hc => ?_⟩, fun c hc => (hletters c hc).1, ?_, hvalue, hscan⟩
  · exact (hletters c (mem_of_mem_head? hc)).2.1
  · exact (hletters c (mem_of_mem_getLast? hc)).2.1
  · exact (map_congr_left fun c hc => (hletters c hc).2.2).trans (map_id key)

theorem isEntry_of_literal {key : Text} (hne : key ≠ []) (hkey : key.all IsKeyLetter = true) (l : Literal) :
    IsEntry (key, l.write) :=
  isEntry_of_letters hne hkey (trimmed_write l) fun _ h => scanAll_write h l

theorem ScanOptions.isEntry (options : ScanOptions) : ∀ entry ∈ options.entries, IsEntry entry := by
  intro entry hentry
  rw [entries, mem_append, mem_append, mem_toList, mem_toList] at hentry
  rcases hentry with (hentry | hentry) | hentry
  · obtain ⟨row, -, rfl⟩ := Option.map_eq_some_iff.mp hentry
    exact isEntry_of_literal (by decide) (by decide) row
  · obtain ⟨row, -, rfl⟩ := Option.map_eq_some_iff.mp hentry
    exact isEntry_of_literal (by decide) (by decide) row
  · cases hcolumns : options.columns with
    | all =>
      rw [hcolumns] at hentry
      cases hentry
    | one column =>
      rw [hcolumns] at hentry
      rw [mem_singleton.mp hentry]
      exact isEntry_of_literal (by decide) (by decide) column
    | list columns =>
      rw [hcolumns] at hentry
      rw [mem_singleton.mp hentry]
      exact isEntry_of_letters (by decide) (by decide) (trimmed_writeList columns) fun _ h => scanAll_writeList h columns

/-! ## Commands -/

/-- When the columns of a scan come through. -/
def Columns.Kept : Columns → Prop
  | all => True
  | one column => column.Kept ∧ Bare column.text
  | list columns => ∀ column ∈ columns, column.Arg

/-- When a command comes through. -/
def Written.Kept : Written → Prop
  | put table row column value => table.Arg ∧ row.Arg ∧ column.Arg ∧ value.Arg
  | delete table row column => table.Arg ∧ row.Arg ∧ column.Arg
  | get table row column => table.Arg ∧ row.Arg ∧ ∀ l, column = some l → l.Kept
  | getMap table row column => table.Arg ∧ row.Arg ∧ column.Kept
  | scan table options =>
    table.Arg ∧ (∀ l, options.startRow = some l → l.Kept) ∧ (∀ l, options.stopRow = some l → l.Kept) ∧
      options.columns.Kept

/-- The items of a command. -/
def Written.items : Written → List Text
  | put table row column value => [table.write, row.write, column.write, value.write]
  | delete table row column => [table.write, row.write, column.write]
  | get table row column => [table.write, row.write] ++ (column.map Literal.write).toList
  | getMap table row column => [table.write, row.write, writeMap [("COLUMN".toList, column.write)]]
  | scan table options => table.write :: if options.entries = [] then [] else [writeMap options.entries]

def Written.name : Written → Text
  | put .. => "put".toList
  | delete .. => "delete".toList
  | get .. | getMap .. => "get".toList
  | scan .. => "scan".toList

theorem Written.write_eq : w.write = w.name ++ ' ' :: ", ".toList.intercalate w.items := by
  cases w with
  | put => rfl
  | delete => rfl
  | get => rfl
  | getMap table row column =>
    have hmap : writeMap [("COLUMN".toList, column.write)] = "\x7bCOLUMN => ".toList ++ column.write ++ "\x7d".toList := by
      rw [writeMap, map_singleton, intercalate_singleton]
      rfl
    rw [items, hmap]
    rfl
  | scan table options =>
    change "scan ".toList ++ table.write ++ options.write = "scan".toList ++ ' ' :: ", ".toList.intercalate
      (table.write :: if options.entries = [] then [] else [writeMap options.entries])
    rw [options.write_eq, append_assoc]
    by_cases h : options.entries = []
    · rw [if_pos h, if_pos h, append_nil, intercalate_singleton]
      rfl
    · rw [if_neg h, if_neg h, intercalate_cons_cons, intercalate_singleton, append_assoc]
      rfl

theorem Written.isArgument : ∀ item ∈ w.items, IsArgument item := by
  cases w with
  | put table row column value =>
    simp only [items, forall_mem_cons]
    exact ⟨isArgument_write _, isArgument_write _, isArgument_write _, isArgument_write _, nofun⟩
  | delete table row column =>
    simp only [items, forall_mem_cons]
    exact ⟨isArgument_write _, isArgument_write _, isArgument_write _, nofun⟩
  | get table row column =>
    cases column with
    | none =>
      simp only [items, Option.map_none, Option.toList_none, append_nil, forall_mem_cons]
      exact ⟨isArgument_write _, isArgument_write _, nofun⟩
    | some column =>
      change ∀ item ∈ [table.write, row.write, column.write], IsArgument item
      simp only [forall_mem_cons]
      exact ⟨isArgument_write _, isArgument_write _, isArgument_write _, nofun⟩
  | getMap table row column =>
    simp only [items, forall_mem_cons]
    refine ⟨isArgument_write _, isArgument_write _, isArgument_writeMap ?_, nofun⟩
    exact forall_mem_singleton.mpr (isEntry_of_literal (by decide) (by decide) column)
  | scan table options =>
    rw [items, forall_mem_cons]
    refine ⟨isArgument_write _, ?_⟩
    split
    · exact nofun
    · exact forall_mem_singleton.mpr (isArgument_writeMap options.isEntry)

theorem parseShellCommand_write : parseShellCommand w.write = runCommand w.name w.items := by
  have hname : w.name.all (fun c => !isWhitespace c) = true ∧ w.name ≠ [] ∧ w.name.map Char.toLower = w.name := by
    cases w <;> exact ⟨rfl, cons_ne_nil _ _, rfl⟩
  rw [w.write_eq]
  refine parseShellCommand_items (fun c hc => ?_) hname.2.1 hname.2.2 w.isArgument ?_
  · exact Bool.not_eq_true' _ ▸ all_eq_true.mp hname.1 c hc
  · cases w <;> exact cons_ne_nil _ _

/-- A command reads on after an argument that is not empty. -/
theorem requiredArg_bind_iff {args : List Text} {index : ℕ} {label : String} {l : Literal}
    (h : args[index]? = some l.write) {f : Text → Except ShellFailure ShellCommand} {command : ShellCommand} :
    requiredArg args index label >>= f = .ok command ↔ l.text ≠ [] ∧ f l.read = .ok command := by
  constructor
  · intro hbind
    obtain ⟨value, hvalue, hf⟩ := exists_of_bind_eq_ok hbind
    obtain ⟨hne, rfl⟩ := (requiredArg_eq_ok h).mp hvalue
    exact ⟨hne, hf⟩
  · rintro ⟨hne, hf⟩
    rw [(requiredArg_eq_ok h).mpr ⟨hne, rfl⟩]
    exact hf

theorem getColumn_write (l : Literal) : getColumn (trim l.write) = .ok (some l.read) := by
  have hbrace : (trim l.write).head? ≠ some '{' := by
    rw [(trimmed_write l).trim]
    intro h
    have hquote : l.quote.char = '{' := Option.some.inj h
    revert hquote
    cases l.quote <;> decide
  have hne : ¬(trim l.write).isEmpty = true := by
    rw [(trimmed_write l).trim]
    exact Bool.false_ne_true
  rw [getColumn, if_neg hbrace, if_neg hne, (trimmed_write l).trim, stripQuotes_write]

theorem getColumn_writeMap (l : Literal) :
    getColumn (trim (writeMap [("COLUMN".toList, l.write)])) = .ok (some l.read) := by
  have hentries := forall_mem_singleton.mpr (@isEntry_of_literal "COLUMN".toList (by decide) (by decide) l)
  have htrim := (isArgument_writeMap hentries).trim
  have hbrace : (writeMap [("COLUMN".toList, l.write)]).head? = some '{' := rfl
  rw [htrim, getColumn, if_pos hbrace, parseOptions_writeMap hentries, ← stripQuotes_write]
  rfl

theorem map_read_iff {l : Option Literal} :
    l.map Literal.read = l.map Literal.text ↔ ∀ literal, l = some literal → literal.Kept := by
  cases l with
  | none => exact iff_of_true rfl nofun
  | some literal =>
    rw [map_some, map_some, Option.some.injEq, read_iff]
    exact ⟨fun h _ heq => Option.some.inj heq ▸ h, fun h => h literal rfl⟩

theorem columnsValue_iff (columns : Columns) :
    ((ScanOptions.columnsValue columns).map parseColumnsValue).getD [] = columns.texts ↔ columns.Kept := by
  cases columns with
  | all => exact iff_of_true rfl trivial
  | one column => exact parseColumnsValue_read_iff column
  | list columns => exact parseColumnsValue_writeList_iff columns

theorem parseOptions_items (table : Literal) (options : ScanOptions) :
    ((Written.scan table options).items[1]?.map parseOptions).getD (.ok []) = .ok options.map := by
  rw [Written.items, ScanOptions.map]
  by_cases h : options.entries = []
  · rw [if_pos h, h]
    rfl
  · rw [if_neg h]
    exact parseOptions_writeMap options.isEntry

theorem runCommand_get (args : List Text) : runCommand "get".toList args = (do
      let table ← requiredArg args 0 "get table"
      let row ← requiredArg args 1 "get row"
      let column ← getColumn ((args[2]?.map trim).getD [])
      return .get table row column) := rfl

theorem runCommand_scan (args : List Text) : runCommand "scan".toList args = (do
      let table ← requiredArg args 0 "scan table"
      let opts ← (args[1]?.map parseOptions).getD (.ok [])
      return .scan table (max 1 (min 10000 (((opts.get "LIMIT".toList).bind parseUsize).getD 100)))
        (opts.get "STARTROW".toList) ((opts.get "STOPROW".toList).or (opts.get "ENDROW".toList))
        ((((opts.get "COLUMNS".toList).or (opts.get "COLUMN".toList)).map parseColumnsValue).getD [])) := rfl

/-- A command is run as it was meant exactly when it comes through. -/
theorem runCommand_iff : runCommand w.name w.items = .ok w.meant ↔ w.Kept := by
  cases w with
  | put table row column value =>
    have hrun (args : List Text) : runCommand "put".toList args =
        (do
          let table ← requiredArg args 0 "put table"
          let row ← requiredArg args 1 "put row"
          let column ← requiredArg args 2 "put column"
          let value ← requiredArg args 3 "put value"
          return .put table row column value) := rfl
    rw [Written.name, Written.items, hrun, requiredArg_bind_iff rfl, requiredArg_bind_iff rfl, requiredArg_bind_iff rfl,
      requiredArg_bind_iff rfl]
    change _ ∧ _ ∧ _ ∧ _ ∧ Except.ok _ = Except.ok _ ↔ _
    simp only [Written.meant, Except.ok.injEq, ShellCommand.put.injEq, read_iff, Written.Kept, Literal.Arg]
    tauto
  | delete table row column =>
    have hrun (args : List Text) : runCommand "delete".toList args =
        (do
          let table ← requiredArg args 0 "delete table"
          let row ← requiredArg args 1 "delete row"
          let column ← requiredArg args 2 "delete column"
          return .delete table row column) := rfl
    rw [Written.name, Written.items, hrun, requiredArg_bind_iff rfl, requiredArg_bind_iff rfl, requiredArg_bind_iff rfl]
    change _ ∧ _ ∧ _ ∧ Except.ok _ = Except.ok _ ↔ _
    simp only [Written.meant, Except.ok.injEq, ShellCommand.delete.injEq, read_iff, Written.Kept, Literal.Arg]
    tauto
  | get table row column =>
    have hcolumn : getColumn (((Written.get table row column).items[2]?.map trim).getD []) =
        .ok (column.map Literal.read) := by
      cases column with
      | none => rfl
      | some column => exact getColumn_write column
    have hargs : (Written.get table row column).items[0]? = some table.write ∧
        (Written.get table row column).items[1]? = some row.write := ⟨rfl, rfl⟩
    rw [Written.name, runCommand_get, requiredArg_bind_iff hargs.1, requiredArg_bind_iff hargs.2, hcolumn]
    change _ ∧ _ ∧ Except.ok _ = Except.ok _ ↔ _
    simp only [Written.meant, Except.ok.injEq, ShellCommand.get.injEq, read_iff, map_read_iff, Written.Kept, Literal.Arg]
    tauto
  | getMap table row column =>
    rw [Written.name, Written.items, runCommand_get, requiredArg_bind_iff rfl, requiredArg_bind_iff rfl]
    change _ ∧ _ ∧ (getColumn (trim (writeMap [("COLUMN".toList, column.write)])) >>= _) = _ ↔ _
    rw [getColumn_writeMap]
    change _ ∧ _ ∧ Except.ok _ = Except.ok _ ↔ _
    simp only [Written.meant, Except.ok.injEq, ShellCommand.get.injEq, Option.some.injEq, read_iff, Written.Kept,
      Literal.Arg]
    tauto
  | scan table options =>
    have hargs : (Written.scan table options).items[0]? = some table.write := rfl
    rw [Written.name, runCommand_scan, requiredArg_bind_iff hargs, parseOptions_items]
    change _ ∧ Except.ok _ = Except.ok _ ↔ _
    rw [options.get_limit, options.get_startRow, options.get_stopRow, options.get_columns]
    simp only [Written.meant, Except.ok.injEq, ShellCommand.scan.injEq, read_iff, map_read_iff, columnsValue_iff,
      Written.Kept, Literal.Arg]
    have hlimit : max 1 (min 10000 (((none : Option Text).bind parseUsize).getD 100)) = 100 := rfl
    rw [hlimit]
    tauto

/-- A command line is parsed to what is meant exactly when it comes through. -/
theorem parseShellCommand_iff : parseShellCommand w.write = .ok w.meant ↔ w.Kept := by
  rw [parseShellCommand_write]
  exact runCommand_iff w

/-! ## Ends of literals -/

section

variable {q : Quote} (rest : Text)

/-- For `split_top_level` a literal ends at the quote that closes it. -/
theorem topLevelEnd_write (l : Literal) : topLevelEnd (l.write ++ rest) = some l.write.length := by
  have hinside (text : Text) : literalEnd (fun s c => (Scan.next ',' s c).getD s) (fun s => s.quotes = .none && !s.escaped)
      ⟨l.quote.inside, 0, 0, false⟩ (escaped '\\' l.quote.char text ++ l.quote.char :: rest) =
      some ((escaped '\\' l.quote.char text).length + 1) := by
    have hne : (l.quote.inside = .none : Bool) = false := decide_eq_false l.quote.inside_ne
    induction text with
    | nil =>
      rw [escaped, flatMap_nil, nil_append, literalEnd, next_quote rfl, getD_some, Quote.next_inside]
      rfl
    | cons c text ih =>
      by_cases hc : c = '\\' ∨ c = l.quote.char
      · rw [escaped_cons_of hc, cons_append, cons_append, literalEnd, next_backslash rfl l.quote.inside_ne,
          getD_some, hne, Bool.false_and, if_neg Bool.false_ne_true, literalEnd, next_escaped rfl, getD_some,
          hne, Bool.false_and, if_neg Bool.false_ne_true, ih]
        rfl
      · rw [escaped_cons_ne hc, cons_append, literalEnd, next_inside rfl rfl (not_or.mp hc).1 (not_or.mp hc).2,
          getD_some, hne, Bool.false_and, if_neg Bool.false_ne_true, ih]
        rfl
  have hne : (l.quote.inside = .none : Bool) = false := decide_eq_false l.quote.inside_ne
  have hopen : Scan.top.next ',' l.quote.char = some ⟨l.quote.inside, 0, 0, false⟩ := by
    rw [next_quote rfl]
    exact congrArg (fun quotes => some (⟨quotes, 0, 0, false⟩ : Scan)) l.quote.next_none
  rw [topLevelEnd, Literal.write, cons_append, append_assoc, literalEnd, hopen, getD_some, hne,
    Bool.false_and, if_neg Bool.false_ne_true]
  change Option.map _ (literalEnd _ _ _ (_ ++ l.quote.char :: rest)) = _
  rw [hinside, map_some, length_cons, length_append]
  rfl

/-- For `split_arrow` it ends at the first of its quotes. -/
theorem arrowEnd_inside (text : Text) : ∃ n,
    literalEnd Quotes.next (· = .none) q.inside (escaped '\\' q.char text ++ q.char :: rest) = some (n + 1) ∧
      (n = (escaped '\\' q.char text).length ↔ q.char ∉ text) ∧ n ≤ (escaped '\\' q.char text).length := by
  have hne : (q.inside = .none : Bool) = false := decide_eq_false q.inside_ne
  induction text with
  | nil =>
    refine ⟨0, ?_, iff_of_true rfl not_mem_nil, Nat.zero_le _⟩
    rw [escaped, flatMap_nil, nil_append, literalEnd, Quote.next_inside]
    rfl
  | cons c text ih =>
    obtain ⟨n, hend, heq, hle⟩ := ih
    by_cases hcq : c = q.char
    · refine ⟨1, ?_, ?_, ?_⟩
      · rw [escaped_cons_of (.inr hcq), cons_append, cons_append, literalEnd, q.next_inside_ne q.char_ne.symm, hne,
          if_neg Bool.false_ne_true, hcq, literalEnd, Quote.next_inside]
        rfl
      · rw [escaped_cons_of (.inr hcq), length_cons, length_cons]
        exact iff_of_false (by omega) (not_not_intro (hcq ▸ mem_cons_self))
      · rw [escaped_cons_of (.inr hcq), length_cons, length_cons]
        omega
    · have hmem : q.char ∉ c :: text ↔ q.char ∉ text := by
        rw [mem_cons, not_or, and_iff_right (Ne.symm hcq)]
      by_cases hc : c = '\\'
      · refine ⟨n + 2, ?_, ?_, ?_⟩
        · rw [escaped_cons_of (.inl hc), cons_append, cons_append, literalEnd, q.next_inside_ne q.char_ne.symm,
            hne, if_neg Bool.false_ne_true, literalEnd, q.next_inside_ne hcq, hne, if_neg Bool.false_ne_true, hend]
          rfl
        · rw [escaped_cons_of (.inl hc), length_cons, length_cons, hmem, ← heq]
          omega
        · rw [escaped_cons_of (.inl hc), length_cons, length_cons]
          omega
      · refine ⟨n + 1, ?_, ?_, ?_⟩
        · rw [escaped_cons_ne (not_or.mpr ⟨hc, hcq⟩), cons_append, literalEnd, q.next_inside_ne hcq, hne,
            if_neg Bool.false_ne_true, hend]
          rfl
        · rw [escaped_cons_ne (not_or.mpr ⟨hc, hcq⟩), length_cons, hmem, ← heq]
          omega
        · rw [escaped_cons_ne (not_or.mpr ⟨hc, hcq⟩), length_cons]
          omega

/-- The two scanners agree on the end of a literal exactly when its text is without its quote. -/
theorem topLevelEnd_eq_arrowEnd_iff (l : Literal) :
    topLevelEnd (l.write ++ rest) = arrowEnd (l.write ++ rest) ↔ l.quote.char ∉ l.text := by
  obtain ⟨n, hend, heq, -⟩ := arrowEnd_inside (q := l.quote) rest l.text
  have hne : (l.quote.inside = .none : Bool) = false := decide_eq_false l.quote.inside_ne
  have harrow : arrowEnd (l.write ++ rest) = some (n + 2) := by
    rw [arrowEnd, Literal.write, cons_append, append_assoc, literalEnd, Quote.next_none, hne,
      if_neg Bool.false_ne_true]
    change Option.map _ (literalEnd _ _ _ (_ ++ l.quote.char :: rest)) = _
    rw [hend]
    rfl
  rw [topLevelEnd_write, harrow, Literal.write, length_cons, length_append, length_singleton, ← heq,
    Option.some.injEq]
  omega

end

/-- A command line comes through exactly when its literals do, and the scanners agree on the ends of the literals
exactly when their own quotes are not in them. -/
theorem shell_keeps_text_iff (w : Written) (l : Literal) (rest : Text) :
    (parseShellCommand w.write = .ok w.meant ↔ w.Kept) ∧
      (topLevelEnd (l.write ++ rest) = arrowEnd (l.write ++ rest) ↔ l.quote.char ∉ l.text) :=
  ⟨parseShellCommand_iff w, topLevelEnd_eq_arrowEnd_iff rest l⟩

/-- A path with a backslash as the value. -/
def windowsPath : Written :=
  .put ⟨.single, "t".toList⟩ ⟨.single, "r".toList⟩ ⟨.single, "f:q".toList⟩ ⟨.single, "C:\\new".toList⟩

/-- A value with its own quote. -/
def ownQuote : Literal := ⟨.single, "it's".toList⟩

theorem shell_path_wrong : parseShellCommand windowsPath.write ≠ .ok windowsPath.meant ∧
    topLevelEnd (ownQuote.write ++ [',']) ≠ arrowEnd (ownQuote.write ++ [',']) := by
  decide

end Taomni.Hbase.Shell
