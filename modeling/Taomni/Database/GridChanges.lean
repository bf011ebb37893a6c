import Taomni.Common.Quoting

/-!
# Statements for the edits of a grid

Reference: `src/lib/dbGridChanges.ts`, and `asSqlEngine`, `quoteIdent`, `sqlLiteral` of
`src/lib/sqlDialect.ts`.

Texts are lists of characters, and a row has a value for each of its columns.
-/

namespace Taomni.Database

open List
open Option (bind_some some_or)

abbrev Text := List Char

inductive SqlEngine where
  | mySQL
  | postgreSQL
  | panWeiDB
  | oracle
  | sqlServer
  | starRocks
  | clickHouse
  | presto
deriving DecidableEq

def asSqlEngine (engine : String) : SqlEngine :=
  if engine = "PostgreSQL" then .postgreSQL
  else if engine = "PanWeiDB" then .panWeiDB
  else if engine = "Oracle" then .oracle
  else if engine = "SQLServer" then .sqlServer
  else if engine = "StarRocks" then .starRocks
  else if engine = "ClickHouse" then .clickHouse
  else if engine = "Presto" then .presto
  else .mySQL

/-- The opening and the closing quote of an identifier. -/
def identQuotes : SqlEngine → Char × Char
  | .sqlServer => ('[', ']')
  | .postgreSQL | .panWeiDB | .oracle | .presto => ('"', '"')
  | _ => ('`', '`')

def quoteIdent (engine : SqlEngine) (ident : Text) : Text :=
  let (opening, closing) := identQuotes engine
  opening :: (doubled closing ident ++ [closing])

@[grind =] def sqlLiteral : Option Text → Text
  | none => "NULL".toList
  | some value => '\'' :: (doubled '\'' value ++ ['\''])

inductive ChangeStatus where
  | inserted
  | updated
  | deleted
deriving DecidableEq

/-- The values of a row of the result. -/
abbrev RowValues (columns : List Text) :=
  { values : List (Option Text) // values.length = columns.length }

structure GridRowChange (columns : List Text) where
  status : ChangeStatus
  values : RowValues columns
  original : Option (RowValues columns)

/-- The options of `buildGridChangeStatements`. -/
structure GridEdit where
  engine : String
  tableName : Text
  columns : List Text
  primaryKeys : List Text
  changes : List (GridRowChange columns)

structure GridChangeStatements where
  statements : List Text
  /-- True when UPDATE / DELETE rows are matched on every result column. -/
  whereUsesAllColumns : Bool
deriving DecidableEq

/-- The value of a column in a row of the result. -/
def cell (columns : List Text) (values : List (Option Text)) (column : Text) : Option Text :=
  match columns.findIdx? (· == column) with
  | some index => values.getD index none
  | none => none

def whereForColumns (engine : SqlEngine) (columns allColumns : List Text)
    (values : List (Option Text)) : Text :=
  let clauses := columns.map fun column =>
    let ident := quoteIdent engine column
    match cell allColumns values column with
    | none => ident ++ " IS NULL".toList
    | some value => ident ++ " = ".toList ++ sqlLiteral (some value)
  if clauses.isEmpty then "1 = 0".toList else " AND ".toList.intercalate clauses

namespace GridEdit

variable (edit : GridEdit)

/-- The part of the primary key that the result has. -/
def keyColumns : List Text := edit.primaryKeys.filter fun name => edit.columns.contains name

def whereColumns : List Text :=
  if edit.keyColumns.isEmpty then edit.columns else edit.keyColumns

/-- The values that an update changes. -/
def assigned (values original : List (Option Text)) : List (Text × Option Text) :=
  (edit.columns.zip (values.zip original)).filterMap fun (name, value, old) =>
    if value = old then none else some (name, value)

/-- The statement of one change, if it has one. -/
def statementFor (change : GridRowChange edit.columns) : Option Text :=
  let engine := asSqlEngine edit.engine
  match change.status, change.original with
  | .inserted, _ =>
    let cols := ", ".toList.intercalate (edit.columns.map (quoteIdent engine))
    let values := ", ".toList.intercalate (change.values.val.map sqlLiteral)
    some ("INSERT INTO ".toList ++ edit.tableName ++ " (".toList ++ cols ++ ") VALUES (".toList ++
      values ++ ")".toList)
  | .updated, some original =>
    let assignments := (edit.assigned change.values.val original.val).map fun (name, value) =>
      quoteIdent engine name ++ " = ".toList ++ sqlLiteral value
    if assignments.isEmpty then none
    else
      some ("UPDATE ".toList ++ edit.tableName ++ " SET ".toList ++
        ", ".toList.intercalate assignments ++ " WHERE ".toList ++
        whereForColumns engine edit.whereColumns edit.columns original.val)
  | .deleted, some original =>
    some ("DELETE FROM ".toList ++ edit.tableName ++ " WHERE ".toList ++
      whereForColumns engine edit.whereColumns edit.columns original.val)
  | _, none => none

/-- Whether a change has a statement that matches rows. -/
def matchesRows (change : GridRowChange edit.columns) : Bool :=
  change.status ≠ .inserted && (edit.statementFor change).isSome

def buildGridChangeStatements : GridChangeStatements where
  statements := edit.changes.filterMap edit.statementFor
  whereUsesAllColumns := edit.changes.any edit.matchesRows && edit.keyColumns.isEmpty

end GridEdit

/-! ## The confirmation -/

structure GridChangePreview where
  statements : List Text
  warning : Option Text

def noPrimaryKeyWarning : Text :=
  ("No primary key found: UPDATE and DELETE match rows on every column and may change more than " ++
    "one row.").toList

def gridChangePreview (generated : GridChangeStatements) : GridChangePreview where
  statements := generated.statements
  warning := if generated.whereUsesAllColumns then some noPrimaryKeyWarning else none

structure GridChangeCounts where
  inserted : ℕ
  updated : ℕ
  deleted : ℕ

def maxPreviewStatements : ℕ := 20

def counted (label : String) (n : ℕ) : Text := label.toList ++ Nat.toDigits 10 n

def gridChangeConfirmLines (counts : GridChangeCounts) (preview : Option GridChangePreview) : List Text :=
  let lines :=
    ["Apply grid changes to the database?".toList, [], counted "Added: " counts.inserted,
      counted "Modified: " counts.updated, counted "Deleted: " counts.deleted]
  match preview with
  | none => lines
  | some preview =>
    let warning :=
      match preview.warning with
      | some warning => [[], "⚠ ".toList ++ warning]
      | none => []
    let shown := preview.statements.take maxPreviewStatements
    let hidden := preview.statements.length - shown.length
    let more := if 0 < hidden then [counted "… and " hidden ++ " more".toList] else []
    let title := counted "SQL to execute (" preview.statements.length ++ "):".toList
    lines ++ warning ++ [[], title] ++ shown.map (· ++ [';']) ++ more

def gridChangeConfirmMessage (counts : GridChangeCounts) (preview : Option GridChangePreview) : Text :=
  ['\n'].intercalate (gridChangeConfirmLines counts preview)

/-!
# How an engine reads the statements of a grid

The reference for the text: quoted identifiers, string literals, and conditions that are a conjunction of
comparisons. MySQL takes a backslash in a literal for an escape, the other engines with inline editing do
not.
-/

/-! ## The reader -/

/-- The letters after a backslash in a literal of MySQL. -/
def decodeEscape (c : Char) : Text :=
  if c = '0' then ['\x00'] else if c = 'b' then ['\x08'] else if c = 'n' then ['\n']
  else if c = 'r' then ['\r'] else if c = 't' then ['\t'] else if c = 'Z' then ['\x1a']
  else if c = '%' ∨ c = '_' then ['\\', c] else [c]

def literalEscapes : SqlEngine → Escapes Char
  | .mySQL => ⟨(· == '\\'), decodeEscape⟩
  | _ => Escapes.none

def readIdent (engine : SqlEngine) (text : Text) : Option (Text × Text) :=
  (expect [(identQuotes engine).1] text).bind (readQuoted (identQuotes engine).2 Escapes.none)

def readLiteral (engine : SqlEngine) (text : Text) : Option (Text × Text) :=
  (expect ['\''] text).bind (readQuoted '\'' (literalEscapes engine))

/-- A comparison with a value, or with nothing. -/
structure Comparison where
  column : Text
  value : Option Text
deriving DecidableEq

def readComparison (engine : SqlEngine) : Reader Char Comparison := fun text =>
  (readIdent engine text).bind fun (column, rest) =>
    match expect " IS NULL".toList rest with
    | some rest => some (⟨column, none⟩, rest)
    | none =>
      (expect " = ".toList rest).bind fun rest =>
        (readLiteral engine rest).map fun (value, rest) => (⟨column, some value⟩, rest)

def readAssignment (engine : SqlEngine) : Reader Char (Text × Option Text) := fun text =>
  (readIdent engine text).bind fun (column, rest) =>
    (expect " = ".toList rest).bind fun rest =>
      match expect "NULL".toList rest with
      | some rest => some ((column, none), rest)
      | none => (readLiteral engine rest).map fun (value, rest) => ((column, some value), rest)

/-- A statement that changes the rows on which all comparisons hold. -/
structure Dml where
  /-- The assignments of an update. A deletion has none. -/
  assignments : Option (List (Text × Option Text))
  condition : List Comparison
deriving DecidableEq

def readCondition (engine : SqlEngine) (text : Text) : Option (List Comparison) :=
  (readSeparated " AND ".toList (readComparison engine) text.length text).bind
    fun (comparisons, rest) => if rest.isEmpty then some comparisons else none

def readUpdate (engine : SqlEngine) (tableName text : Text) : Option Dml := do
  let rest ← expect ("UPDATE ".toList ++ tableName ++ " SET ".toList) text
  let (assignments, rest) ← readSeparated ", ".toList (readAssignment engine) rest.length rest
  let rest ← expect " WHERE ".toList rest
  let condition ← readCondition engine rest
  return ⟨some assignments, condition⟩

def readDelete (engine : SqlEngine) (tableName text : Text) : Option Dml := do
  let rest ← expect ("DELETE FROM ".toList ++ tableName ++ " WHERE ".toList) text
  let condition ← readCondition engine rest
  return ⟨none, condition⟩

def readDml (engine : SqlEngine) (tableName text : Text) : Option Dml :=
  (readUpdate engine tableName text).orElse fun _ => readDelete engine tableName text

/-! ## What is written -/

/-- How a literal is read, when it is read to its end. -/
def rereadLiteral (engine : SqlEngine) (text : Text) : Option Text :=
  reread '\'' (literalEscapes engine) text

variable {rest : Text}

theorem readIdent_quoteIdent (engine : SqlEngine) (ident : Text)
    (h : rest.head? ≠ some (identQuotes engine).2) :
    readIdent engine (quoteIdent engine ident ++ rest) = some (ident, rest) := by
  have hquoted : quoteIdent engine ident ++ rest = [(identQuotes engine).1] ++
      (doubled (identQuotes engine).2 ident ++ (identQuotes engine).2 :: rest) := by
    unfold quoteIdent
    simp only [cons_append, append_assoc, nil_append]
  unfold readIdent
  rw [hquoted, expect_append, bind_some]
  exact readQuoted_doubled (reread_none _ _) h

variable {engine : SqlEngine}

theorem readLiteral_sqlLiteral {text value : Text}
    (h : rereadLiteral engine text = some value) (hrest : rest.head? ≠ some '\'') :
    readLiteral engine (sqlLiteral (some text) ++ rest) = some (value, rest) := by
  have hquoted : sqlLiteral (some text) ++ rest = ['\''] ++ (doubled '\'' text ++ '\'' :: rest) := by
    unfold sqlLiteral
    simp only [cons_append, append_assoc, nil_append]
  unfold readLiteral
  rw [hquoted, expect_append, bind_some]
  exact readQuoted_doubled h hrest

/-- A literal is read up to the quote that closes it. -/
def Closed (engine : SqlEngine) (text : Text) : Prop := (rereadLiteral engine text).isSome

def reading (engine : SqlEngine) (text : Text) : Text := (rereadLiteral engine text).getD text

theorem Closed.reread {text : Text} (h : Closed engine text) :
    rereadLiteral engine text = some (reading engine text) := by
  obtain ⟨value, hvalue⟩ := Option.isSome_iff_exists.mp h
  unfold reading
  rw [hvalue, Option.getD_some]

theorem rereadLiteral_plain (h : engine ≠ .mySQL) (text : Text) :
    rereadLiteral engine text = some text := by
  have hplain : literalEscapes engine = Escapes.none := by
    cases engine with
    | mySQL => exact absurd rfl h
    | _ => rfl
  unfold rereadLiteral
  rw [hplain]
  exact reread_none _ _

def writeComparison (engine : SqlEngine) (c : Comparison) : Text :=
  match c.value with
  | none => quoteIdent engine c.column ++ " IS NULL".toList
  | some value => quoteIdent engine c.column ++ " = ".toList ++ sqlLiteral (some value)

def writeAssignment (engine : SqlEngine) (a : Text × Option Text) : Text :=
  quoteIdent engine a.1 ++ " = ".toList ++ sqlLiteral a.2

def Comparison.read (engine : SqlEngine) (c : Comparison) : Comparison :=
  { c with value := c.value.map (reading engine) }

theorem readIdent_before (engine : SqlEngine) (ident : Text) {word : Text}
    (h : word.head? = some ' ') (rest : Text) :
    readIdent engine (quoteIdent engine ident ++ (word ++ rest)) = some (ident, word ++ rest) := by
  refine readIdent_quoteIdent engine ident ?_
  rw [head?_append, h, some_or]
  cases engine <;> decide

theorem readComparison_write {c : Comparison} (h : ∀ value, c.value = some value → Closed engine value)
    (hrest : rest.head? ≠ some '\'') :
    readComparison engine (writeComparison engine c ++ rest) = some (c.read engine, rest) := by
  obtain ⟨column, value⟩ := c
  cases value with
  | none =>
    show readComparison engine (quoteIdent engine column ++ " IS NULL".toList ++ rest) = _
    unfold readComparison
    rw [append_assoc, readIdent_before engine column rfl,
      bind_some]
    dsimp only
    rw [expect_append]
    rfl
  | some value =>
    show readComparison engine
      (quoteIdent engine column ++ " = ".toList ++ sqlLiteral (some value) ++ rest) = _
    unfold readComparison
    have hnull (rest : Text) : expect " IS NULL".toList (" = ".toList ++ rest) = none :=
      expect_eq_none fun hprefix => by
        have hchar := (cons_prefix_cons.mp (cons_prefix_cons.mp hprefix).2).1
        revert hchar
        decide
    rw [append_assoc, append_assoc,
      readIdent_before engine column rfl, bind_some]
    dsimp only
    rw [hnull]
    dsimp only
    rw [expect_append, bind_some, readLiteral_sqlLiteral (h value rfl).reread hrest]
    rfl

theorem readAssignment_write {a : Text × Option Text}
    (h : ∀ value, a.2 = some value → Closed engine value)
    (hrest : rest.head? ≠ some '\'') : readAssignment engine (writeAssignment engine a ++ rest) =
      some ((a.1, a.2.map (reading engine)), rest) := by
  obtain ⟨column, value⟩ := a
  unfold readAssignment writeAssignment
  dsimp only
  rw [append_assoc, append_assoc,
    readIdent_before engine column rfl, bind_some]
  dsimp only
  rw [expect_append, bind_some]
  cases value with
  | none =>
    rw [show sqlLiteral none = "NULL".toList from rfl, expect_append]
    rfl
  | some value =>
    have hnull : expect "NULL".toList (sqlLiteral (some value) ++ rest) = none :=
      expect_cons_ne (by decide)
    rw [hnull]
    dsimp only
    rw [readLiteral_sqlLiteral (h value rfl).reread hrest]
    rfl

/-- What stands after a comparison or an assignment. -/
def Follows (rest : Text) : Prop := rest.head? ≠ some '\''

theorem follows_append {word : Text} (h : word.head? = some ' ' ∨ word.head? = some ',') (rest : Text) :
    Follows (word ++ rest) := by
  unfold Follows
  rcases h with h | h <;> rw [head?_append, h, some_or] <;> decide

theorem writeComparison_ne_nil (engine : SqlEngine) (c : Comparison) :
    writeComparison engine c ≠ [] := by
  unfold writeComparison
  cases c.value with
  | none => exact append_ne_nil_of_right_ne_nil _ (cons_ne_nil _ _)
  | some value => exact append_ne_nil_of_right_ne_nil _ (cons_ne_nil _ _)

theorem writeAssignment_ne_nil (engine : SqlEngine) (a : Text × Option Text) :
    writeAssignment engine a ≠ [] :=
  append_ne_nil_of_left_ne_nil
    (append_ne_nil_of_right_ne_nil _ (cons_ne_nil _ _)) _

theorem follows_nil : Follows [] := nofun

variable {condition : List Comparison}

theorem readCondition_write (hne : condition ≠ [])
    (h : ∀ c ∈ condition, ∀ value, c.value = some value → Closed engine value) :
    readCondition engine (" AND ".toList.intercalate (condition.map (writeComparison engine))) =
      some (condition.map (Comparison.read engine)) := by
  have hnil : ∀ x ∈ condition.map (writeComparison engine), x ≠ [] := by
    intro x hx
    obtain ⟨c, -, rfl⟩ := mem_map.mp hx
    exact writeComparison_ne_nil engine c
  have hlength : condition.length ≤
      (" AND ".toList.intercalate (condition.map (writeComparison engine))).length := by
    rw [← length_map (writeComparison engine)]
    exact length_le_intercalate _ hnil
  have hsep (rest : Text) : Follows (" AND ".toList ++ rest) := follows_append (.inl rfl) rest
  have hend : expect " AND ".toList ([] : Text) = none := rfl
  have hread := readSeparated_intercalate hsep follows_nil hend hne
    (fun c hc rest hrest => readComparison_write (h c hc) hrest) hlength
  rw [append_nil] at hread
  unfold readCondition
  rw [hread]
  rfl

theorem readDelete_write (tableName : Text) (hne : condition ≠ [])
    (h : ∀ c ∈ condition, ∀ value, c.value = some value → Closed engine value) :
    readDml engine tableName ("DELETE FROM ".toList ++ tableName ++ " WHERE ".toList ++
        " AND ".toList.intercalate (condition.map (writeComparison engine))) =
      some ⟨none, condition.map (Comparison.read engine)⟩ := by
  have hupdate (rest : Text) : readUpdate engine tableName ("DELETE FROM ".toList ++ rest) = none := by
    have hword : expect ("UPDATE ".toList ++ tableName ++ " SET ".toList)
        ("DELETE FROM ".toList ++ rest) = none := expect_cons_ne (by decide)
    unfold readUpdate
    rw [hword]
    rfl
  unfold readDml
  rw [append_assoc, append_assoc, hupdate, Option.orElse_none]
  unfold readDelete
  rw [← append_assoc, ← append_assoc, expect_append]
  show (readCondition engine _).bind _ = _
  rw [readCondition_write hne h]
  rfl

theorem readUpdate_write (tableName : Text)
    {assignments : List (Text × Option Text)} (hassign : assignments ≠ [])
    (hclosed : ∀ a ∈ assignments, ∀ value, a.2 = some value → Closed engine value) (hne : condition ≠ [])
    (h : ∀ c ∈ condition, ∀ value, c.value = some value → Closed engine value) :
    readDml engine tableName ("UPDATE ".toList ++ tableName ++ " SET ".toList ++
        ", ".toList.intercalate (assignments.map (writeAssignment engine)) ++ " WHERE ".toList ++
        " AND ".toList.intercalate (condition.map (writeComparison engine))) =
      some ⟨some (assignments.map fun a => (a.1, a.2.map (reading engine))),
        condition.map (Comparison.read engine)⟩ := by
  have hnil : ∀ x ∈ assignments.map (writeAssignment engine), x ≠ [] := by
    intro x hx
    obtain ⟨a, -, rfl⟩ := mem_map.mp hx
    exact writeAssignment_ne_nil engine a
  have hsep (rest : Text) : Follows (", ".toList ++ rest) := follows_append (.inr rfl) rest
  have hwhere (rest : Text) : Follows (" WHERE ".toList ++ rest) := follows_append (.inl rfl) rest
  have hend (rest : Text) : expect ", ".toList (" WHERE ".toList ++ rest) = none :=
    expect_cons_ne (by decide)
  have htext (a w : Text) :
      "UPDATE ".toList ++ tableName ++ " SET ".toList ++ a ++ " WHERE ".toList ++ w =
      ("UPDATE ".toList ++ tableName ++ " SET ".toList) ++ (a ++ (" WHERE ".toList ++ w)) := by
    simp only [append_assoc]
  unfold readDml readUpdate
  rw [htext, expect_append]
  dsimp only [Option.bind_eq_bind, bind_some]
  rw [readSeparated_intercalate hsep (hwhere _) (hend _) hassign
    (fun a ha rest hrest => readAssignment_write (hclosed a ha) hrest), bind_some]
  · dsimp only
    rw [expect_append, bind_some, readCondition_write hne h]
    rfl
  · rw [← length_map (writeAssignment engine)]
    refine (length_le_intercalate ", ".toList hnil).trans ?_
    rw [length_append]
    exact Nat.le_add_right _ _

end Taomni.Database
