import Taomni.Common.EscapedText
import Taomni.Dap.Codec

/-!
# The HBase shell

Reference: `src-tauri/src/hbase/shell_parser.rs`, and `shellQuote` and the statements of `src/lib/hbaseCommands.ts`.
-/

namespace Taomni.Hbase.Shell

open Agent (Text isWhitespace trim)
open Dap (parseUsize)

/-! ## Commands -/

/-- A `BTreeMap<String, String>`: by key, in order. -/
abbrev Options := List (Text × Text)

structure FamilySpec where
  name : Text
  attributes : Options
deriving DecidableEq

inductive ShellCommand where
  | help
  | list
  | status
  | version
  | describe (table : Text)
  | create (table : Text) (families : List FamilySpec)
  | drop (table : Text)
  | get (table row : Text) (column : Option Text)
  | scan (table : Text) (limit : ℕ) (startRow stopRow : Option Text) (columns : List Text)
  | put (table row column value : Text)
  | delete (table row column : Text)
  | deleteAll (table row : Text)
  | count (table : Text)
  | exists (table : Text)
  | enable (table : Text)
  | disable (table : Text)
  | alter (table : Text) (families : List FamilySpec)
deriving DecidableEq

/-- A command is refused with a text, or a slice is not at the boundary of a letter. -/
inductive ShellFailure where
  | refused (text : Text)
  | panic
deriving DecidableEq

namespace Options

def insert (key value : Text) : Options → Options
  | [] => [(key, value)]
  | (key', value') :: options =>
    if key = key' then (key, value) :: options
    else if key < key' then (key, value) :: (key', value') :: options
    else (key', value') :: insert key value options

def get (options : Options) (key : Text) : Option Text := (options.find? (·.1 == key)).map (·.2)

end Options

/-! ## Scanners -/

/-- The quotes that a scanner is in. -/
structure Quotes where
  single : Bool
  double : Bool
deriving DecidableEq

namespace Quotes

/-- In no quotes. -/
def none : Quotes := ⟨false, false⟩

def next (quotes : Quotes) (c : Char) : Quotes :=
  if c = '\'' ∧ quotes.double = false then { quotes with single := !quotes.single }
  else if c = '"' ∧ quotes.single = false then { quotes with double := !quotes.double }
  else quotes

end Quotes

/-- The state of `split_top_level`. -/
structure Scan where
  quotes : Quotes
  braceDepth : ℕ
  bracketDepth : ℕ
  escaped : Bool
deriving DecidableEq

namespace Scan

/-- The state after a letter, or none at a delimiter of the top level. -/
def next (delimiter : Char) (s : Scan) (c : Char) : Option Scan :=
  if s.escaped then some { s with escaped := false }
  else if c = '\\' ∧ s.quotes ≠ .none then some { s with escaped := true }
  else if c = '\'' ∨ c = '"' then some { s with quotes := s.quotes.next c }
  else if s.quotes ≠ .none then some s
  else if c = '{' then some { s with braceDepth := s.braceDepth + 1 }
  else if c = '}' then some { s with braceDepth := s.braceDepth - 1 }
  else if c = '[' then some { s with bracketDepth := s.bracketDepth + 1 }
  else if c = ']' then some { s with bracketDepth := s.bracketDepth - 1 }
  else if c = delimiter ∧ s.braceDepth = 0 ∧ s.bracketDepth = 0 then none
  else some s

/-- At the top level. -/
def top : Scan := ⟨.none, 0, 0, false⟩

end Scan

/-- The loop of `split_top_level`. -/
def splitFrom (delimiter : Char) : Scan → Text → Text → List Text
  | _, current, [] => if (trim current).isEmpty then [] else [trim current]
  | s, current, c :: text =>
    match s.next delimiter c with
    | some s => splitFrom delimiter s (current ++ [c]) text
    | none => trim current :: splitFrom delimiter s [] text

def splitTopLevel (delimiter : Char) (input : Text) : List Text := splitFrom delimiter .top [] input

/-- The loop of `split_arrow`. -/
def splitArrowFrom (quotes : Quotes) : Text → Option (Text × Text)
  | c :: d :: text =>
    if c = '=' ∧ quotes = .none ∧ d = '>' then some ([], text)
    else (splitArrowFrom (quotes.next c) (d :: text)).map fun parts => (c :: parts.1, parts.2)
  | _ => none

def splitArrow (input : Text) : Option (Text × Text) := splitArrowFrom .none input

/-- The replacements of `strip_quotes`. -/
def unescape (text : Text) : Text :=
  replaceEscape '\\' 't' '\t' (replaceEscape '\\' 'n' '\n' (replaceEscape '\\' '"' '"'
    (replaceEscape '\\' '\'' '\'' text)))

/-- A text that starts and ends with a quote. -/
def IsQuoted (text : Text) : Prop :=
  (text.head? = some '\'' ∧ text.getLast? = some '\'' ∨ text.head? = some '"' ∧ text.getLast? = some '"') ∧
    2 ≤ text.length

instance (text : Text) : Decidable (IsQuoted text) := inferInstanceAs (Decidable (_ ∧ _))

def stripQuotes (input : Text) : Text :=
  let trimmed := trim input
  if IsQuoted trimmed then unescape trimmed.tail.dropLast else trimmed

/-! ## The parser -/

def splitCommandName (value : Text) : Except ShellFailure (Text × Text) :=
  match value.dropWhile fun c => !isWhitespace c with
  | [] => .ok (value, [])
  | c :: rest => if c.utf8Size = 1 then .ok (value.takeWhile fun c => !isWhitespace c, rest) else .error .panic

def refuse {α : Type} (text : Text) : Except ShellFailure α := .error (.refused text)

def requiredArg (args : List Text) (index : ℕ) (label : String) : Except ShellFailure Text :=
  match (args[index]?.map stripQuotes).filter fun value => !value.isEmpty with
  | some value => .ok value
  | none => refuse ("Missing ".toList ++ label.toList ++ " argument".toList)

/-- A text in brackets. -/
def IsBracketed (opening closing : Char) (text : Text) : Prop :=
  text.head? = some opening ∧ text.getLast? = some closing

instance (opening closing : Char) (text : Text) : Decidable (IsBracketed opening closing text) :=
  inferInstanceAs (Decidable (_ ∧ _))

def parseOptions (input : Text) : Except ShellFailure Options :=
  let trimmed := trim input
  if IsBracketed '{' '}' trimmed then
    .ok ((splitTopLevel ',' trimmed.tail.dropLast).foldl (fun out item =>
      match splitArrow item with
      | some (key, value) => out.insert ((stripQuotes key).map Char.toUpper) (stripQuotes value)
      | none => out) [])
  else refuse ("Expected option map, got ".toList ++ trimmed)

def parseFamilySpec (input : Text) : Except ShellFailure FamilySpec :=
  let trimmed := trim input
  if trimmed.head? = some '{' then do
    let opts ← parseOptions trimmed
    match opts.get "NAME".toList with
    | some name => return ⟨name, opts.filter fun entry => entry.1 ≠ "NAME".toList⟩
    | none => refuse "column family map requires NAME".toList
  else return ⟨stripQuotes trimmed, []⟩

def parseColumnsValue (value : Text) : List Text :=
  let trimmed := trim value
  if IsBracketed '[' ']' trimmed then
    ((splitTopLevel ',' trimmed.tail.dropLast).map stripQuotes).filter fun column => !column.isEmpty
  else [stripQuotes trimmed]

/-- The column of `get`, in an option map or as it is. -/
def getColumn (third : Text) : Except ShellFailure (Option Text) :=
  if third.head? = some '{' then (parseOptions third).map (·.get "COLUMN".toList)
  else if third.isEmpty then .ok none
  else .ok (some (stripQuotes third))

/-- The commands by name. -/
def runCommand (name : Text) (args : List Text) : Except ShellFailure ShellCommand :=
  if name = "help".toList ∨ name = "?".toList then return .help
  else if name = "list".toList then return .list
  else if name = "status".toList then return .status
  else if name = "version".toList then return .version
  else if name = "describe".toList ∨ name = "desc".toList then return .describe (← requiredArg args 0 "describe table")
  else if name = "create".toList then do
    let table ← requiredArg args 0 "create table"
    let families ← (args.drop 1).mapM parseFamilySpec
    if families.isEmpty then refuse "create requires at least one column family".toList
    else return .create table families
  else if name = "drop".toList then return .drop (← requiredArg args 0 "drop table")
  else if name = "get".toList then do
    let table ← requiredArg args 0 "get table"
    let row ← requiredArg args 1 "get row"
    return .get table row (← getColumn ((args[2]?.map trim).getD []))
  else if name = "scan".toList then do
    let table ← requiredArg args 0 "scan table"
    let opts ← (args[1]?.map parseOptions).getD (.ok [])
    let limit := max 1 (min 10000 (((opts.get "LIMIT".toList).bind parseUsize).getD 100))
    let columns := (((opts.get "COLUMNS".toList).or (opts.get "COLUMN".toList)).map parseColumnsValue).getD []
    return .scan table limit (opts.get "STARTROW".toList)
      ((opts.get "STOPROW".toList).or (opts.get "ENDROW".toList)) columns
  else if name = "put".toList then do
    let table ← requiredArg args 0 "put table"
    let row ← requiredArg args 1 "put row"
    let column ← requiredArg args 2 "put column"
    return .put table row column (← requiredArg args 3 "put value")
  else if name = "delete".toList then do
    let table ← requiredArg args 0 "delete table"
    let row ← requiredArg args 1 "delete row"
    return .delete table row (← requiredArg args 2 "delete column")
  else if name = "deleteall".toList then do
    let table ← requiredArg args 0 "deleteall table"
    return .deleteAll table (← requiredArg args 1 "deleteall row")
  else if name = "count".toList then return .count (← requiredArg args 0 "count table")
  else if name = "exists".toList then return .exists (← requiredArg args 0 "exists table")
  else if name = "enable".toList then return .enable (← requiredArg args 0 "enable table")
  else if name = "disable".toList then return .disable (← requiredArg args 0 "disable table")
  else if name = "alter".toList then do
    let table ← requiredArg args 0 "alter table"
    let families ← (args.drop 1).mapM parseFamilySpec
    if families.isEmpty then refuse "alter requires at least one column family specification".toList
    else return .alter table families
  else refuse ("Unsupported HBase shell command: ".toList ++ name)

def parseShellCommand (input : Text) : Except ShellFailure ShellCommand :=
  let trimmed := trim ((trim input).rdropWhile (· == ';'))
  if trimmed.isEmpty then refuse "Enter an HBase shell command".toList
  else do
    let (name, rest) ← splitCommandName trimmed
    runCommand (name.map Char.toLower) ((splitTopLevel ',' (trim rest)).filter fun arg => !(trim arg).isEmpty)

/-! ## Written commands -/

inductive Quote where
  | single
  | double
deriving DecidableEq

namespace Quote

def char : Quote → Char
  | single => '\''
  | double => '"'

def other : Quote → Quote
  | single => double
  | double => single

end Quote

structure Literal where
  quote : Quote
  text : Text
deriving DecidableEq

/-- `shellQuote`, with either quote. -/
def Literal.write (l : Literal) : Text := l.quote.char :: (escaped '\\' l.quote.char l.text ++ [l.quote.char])

/-- The columns of a scan: none, one, or a list. -/
inductive Columns where
  | all
  | one (column : Literal)
  | list (columns : List Literal)

structure ScanOptions where
  startRow : Option Literal
  stopRow : Option Literal
  columns : Columns

/-- A command with literals. The column of `get` is written as a literal or in a map. -/
inductive Written where
  | put (table row column value : Literal)
  | delete (table row column : Literal)
  | get (table row : Literal) (column : Option Literal)
  | getMap (table row column : Literal)
  | scan (table : Literal) (options : ScanOptions)

def Columns.write : Columns → List Text
  | all => []
  | one column => ["COLUMN => ".toList ++ column.write]
  | list columns => ["COLUMNS => [".toList ++ ", ".toList.intercalate (columns.map Literal.write) ++ "]".toList]

def ScanOptions.write (options : ScanOptions) : Text :=
  let parts := (options.startRow.map fun row => "STARTROW => ".toList ++ row.write).toList ++
    (options.stopRow.map fun row => "STOPROW => ".toList ++ row.write).toList ++ options.columns.write
  if parts.isEmpty then [] else ", \x7b".toList ++ ", ".toList.intercalate parts ++ "\x7d".toList

/-- `putStatement`, `deleteStatement`, `getStatement` and `scanStatement`. -/
def Written.write : Written → Text
  | put table row column value =>
    "put ".toList ++ ", ".toList.intercalate [table.write, row.write, column.write, value.write]
  | delete table row column => "delete ".toList ++ ", ".toList.intercalate [table.write, row.write, column.write]
  | get table row column =>
    "get ".toList ++ ", ".toList.intercalate ([table.write, row.write] ++ (column.map Literal.write).toList)
  | getMap table row column =>
    "get ".toList ++ ", ".toList.intercalate
      [table.write, row.write, "\x7bCOLUMN => ".toList ++ column.write ++ "\x7d".toList]
  | scan table options => "scan ".toList ++ table.write ++ options.write

def Columns.texts : Columns → List Text
  | all => []
  | one column => [column.text]
  | list columns => columns.map Literal.text

/-- The command that is meant. -/
def Written.meant : Written → ShellCommand
  | put table row column value => .put table.text row.text column.text value.text
  | delete table row column => .delete table.text row.text column.text
  | get table row column => .get table.text row.text (column.map Literal.text)
  | getMap table row column => .get table.text row.text (some column.text)
  | scan table options =>
    .scan table.text 100 (options.startRow.map Literal.text) (options.stopRow.map Literal.text) options.columns.texts

/-- The letters after which a scanner is in no quotes for the first time. -/
def literalEnd {σ : Type} (next : σ → Char → σ) (outside : σ → Bool) : σ → Text → Option ℕ
  | _, [] => none
  | s, c :: text => if outside (next s c) then some 1 else (literalEnd next outside (next s c) text).map (· + 1)

/-- Where `split_top_level` sees the end of a literal. -/
def topLevelEnd (text : Text) : Option ℕ :=
  literalEnd (fun s c => (Scan.next ',' s c).getD s) (fun s => s.quotes = .none && !s.escaped) Scan.top text

/-- Where `split_arrow` sees it. -/
def arrowEnd (text : Text) : Option ℕ := literalEnd Quotes.next (· = .none) Quotes.none text

end Taomni.Hbase.Shell
