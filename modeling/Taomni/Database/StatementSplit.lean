import Taomni.Common.Words
import Taomni.Save.SaveBytes

/-!
# SQL statements and dangerous ones

The scanner that cuts a text into statements, and the guard that asks before a statement removes data. Each has lexical
rules of its own.

Reference: `src/lib/sqlStatements.ts` and `src/lib/sqlDangerousStatements.ts`.
-/

namespace Taomni.Database.Sql

open List
open JsString (lf ascii)
open Save (isJsSpace lowerAscii)
open Words (words)

/-- The code unit of an ASCII character. -/
def unit (c : Char) : UInt16 := c.toNat.toUInt16

/-! ## The scanner -/

/-- The flags of the scanner. At most one of them is set. -/
inductive Mode where
  | code
  | quoted (closing : UInt16)
  | dollarQuoted (name : JsString)
  | lineComment
  | blockComment
deriving DecidableEq

def isLetter (u : UInt16) : Bool := (0x41 ≤ u && u ≤ 0x5A) || (0x61 ≤ u && u ≤ 0x7A)

def isDigit (u : UInt16) : Bool := 0x30 ≤ u && u ≤ 0x39

/-- `\w`. -/
def isWordUnit (u : UInt16) : Bool := isLetter u || isDigit u || u = unit '_'

/-- A tag, with its name between dollar signs. -/
def tag (name : JsString) : JsString := unit '$' :: (name ++ [unit '$'])

/-- The name of the tag at the front of a text. -/
def dollarQuoteTagAt (text : JsString) : Option JsString :=
  let name := text.tail.takeWhile isWordUnit
  if text.head? = some (unit '$') ∧ (text.tail.dropWhile isWordUnit).head? = some (unit '$') ∧
      !name.head?.any isDigit then some name
  else none

/-- The quote that closes what a quote opens. -/
def closingOf (u : UInt16) : Option UInt16 :=
  if u = unit '\'' ∨ u = unit '"' ∨ u = unit '`' then some u
  else if u = unit '[' then some (unit ']')
  else none

/-- The mode after a step and the units of the step, but for statements and batches. -/
def step : Mode → JsString → Mode × ℕ
  | .dollarQuoted name, text =>
    if (tag name).isPrefixOf text then (.code, (tag name).length) else (.dollarQuoted name, 1)
  | .lineComment, text => (if text.head? = some lf then .code else .lineComment, 1)
  | .blockComment, text => if (ascii "*/").isPrefixOf text then (.code, 2) else (.blockComment, 1)
  | .quoted closing, text =>
    if [closing, closing].isPrefixOf text then (.quoted closing, 2)
    else (if text.head? = some closing then .code else .quoted closing, 1)
  | .code, text =>
    if (ascii "--").isPrefixOf text then (.lineComment, 2)
    else if (ascii "/*").isPrefixOf text then (.blockComment, 2)
    else
      match text.head?.bind closingOf with
      | some closing => (.quoted closing, 1)
      | none =>
        match dollarQuoteTagAt text with
        | some name => (.dollarQuoted name, (tag name).length)
        | none => (.code, 1)

theorem step_pos (mode : Mode) (text : JsString) : 0 < (step mode text).2 := by
  cases mode with
  | code =>
    rw [step]
    split
    · exact Nat.two_pos
    · split
      · exact Nat.two_pos
      · split
        · exact Nat.one_pos
        · split
          · exact Nat.succ_pos _
          · exact Nat.one_pos
  | quoted closing =>
    rw [step]
    split
    · exact Nat.two_pos
    · exact Nat.one_pos
  | dollarQuoted name =>
    rw [step]
    split
    · exact Nat.succ_pos _
    · exact Nat.one_pos
  | lineComment => exact Nat.one_pos
  | blockComment =>
    rw [step]
    split
    · exact Nat.two_pos
    · exact Nat.one_pos

theorem length_drop_step (mode : Mode) (u : UInt16) (text : JsString) :
    ((u :: text).drop (step mode (u :: text)).2).length < (u :: text).length := by
  have hpos := step_pos mode (u :: text)
  rw [length_drop, length_cons]
  omega

/-! ## Statements -/

structure SqlStatementRange where
  sql : JsString
  start : ℕ
  stop : ℕ
deriving DecidableEq

/-- `trim`. -/
def trim (text : JsString) : JsString := (text.dropWhile isJsSpace).rdropWhile isJsSpace

/-- A range of a text without the blanks at its ends. -/
def trimRange (sql : JsString) (start stop : ℕ) : SqlStatementRange :=
  let text := (sql.take stop).drop start
  let start := start + (text.takeWhile isJsSpace).length
  ⟨trim text, start, start + (trim text).length⟩

/-- The text from the end of a line. -/
def afterLine (text : JsString) : JsString := text.dropWhile (· != lf)

/-- The text after a block comment. -/
def afterBlock : JsString → JsString
  | [] => []
  | u :: text => if (ascii "*/").isPrefixOf (u :: text) then text.tail else afterBlock text

theorem length_afterLine_le (text : JsString) : (afterLine text).length ≤ text.length :=
  (dropWhile_suffix _).length_le

theorem length_afterBlock_le (text : JsString) : (afterBlock text).length ≤ text.length := by
  induction text with
  | nil => exact Nat.le_refl _
  | cons u text ih =>
    rw [afterBlock]
    split
    · rw [length_tail, length_cons]
      omega
    · rw [length_cons]
      omega

/-- Whether there is more than blanks and comments. -/
def hasExecutableSql : JsString → Bool
  | [] => false
  | u :: text =>
    if isJsSpace u then hasExecutableSql text
    else if (ascii "--").isPrefixOf (u :: text) then hasExecutableSql (afterLine text.tail)
    else if (ascii "/*").isPrefixOf (u :: text) then hasExecutableSql (afterBlock text.tail)
    else true
termination_by text => text.length
decreasing_by
  · exact Nat.lt_succ_self _
  · have hlength := (length_afterLine_le text.tail).trans (tail_sublist text).length_le
    rw [length_cons]
    omega
  · have hlength := (length_afterBlock_le text.tail).trans (tail_sublist text).length_le
    rw [length_cons]
    omega

/-- `pushStatement`. -/
def pushStatement (sql : JsString) (start stop : ℕ) : List SqlStatementRange :=
  let trimmed := trimRange sql start stop
  if !trimmed.sql.isEmpty && hasExecutableSql trimmed.sql then [trimmed] else []

/-- Where the line starts after some units that were read from `i`. -/
def lineStartAfter (lineStart i : ℕ) : JsString → ℕ
  | [] => lineStart
  | u :: units => lineStartAfter (if u = lf then i + 1 else lineStart) (i + 1) units

def isSpaceOrTab (u : UInt16) : Bool := u = unit ' ' || u = unit '\t'

/-- `isGoBatchSeparatorAt`, with the text from the index. -/
def isGoBatchSeparatorAt (sql : JsString) (lineStart i : ℕ) (text : JsString) : Bool :=
  (text.take 2).map lowerAscii = ascii "go" && ((sql.take i).drop lineStart).all isSpaceOrTab &&
    ((text.drop 2).takeWhile (· != lf)).all isSpaceOrTab

/-- The loop of `splitSqlStatementRanges`, with the text from `i`. -/
def splitFrom (sql : JsString) (splitGo : Bool) (segmentStart i lineStart : ℕ) (mode : Mode) :
    JsString → List SqlStatementRange
  | [] => pushStatement sql segmentStart sql.length
  | u :: text =>
    if mode = .code ∧ splitGo ∧ isGoBatchSeparatorAt sql lineStart i (u :: text) then
      let rest := (afterLine (u :: text)).drop 1
      let next := i + ((u :: text).length - rest.length)
      pushStatement sql segmentStart lineStart ++ splitFrom sql splitGo next next next .code rest
    else if mode = .code ∧ u = unit ';' then
      pushStatement sql segmentStart i ++ splitFrom sql splitGo (i + 1) (i + 1) lineStart .code text
    else
      let next := step mode (u :: text)
      splitFrom sql splitGo segmentStart (i + next.2) (lineStartAfter lineStart i ((u :: text).take next.2)) next.1
        ((u :: text).drop next.2)
termination_by text => text.length
decreasing_by
  · have hlength := length_afterLine_le (u :: text)
    rw [length_cons] at hlength
    rw [length_drop, length_cons]
    omega
  · exact Nat.lt_succ_self _
  · exact length_drop_step mode u text

def splitSqlStatementRanges (sql : JsString) (splitGo : Bool) : List SqlStatementRange :=
  splitFrom sql splitGo 0 0 0 .code sql

/-! ## The guard -/

/-- The text after a literal or a quoted identifier. -/
def afterQuoted (quote : UInt16) : JsString → JsString
  | [] => []
  | u :: text =>
    if u = quote then if text.head? = some quote then afterQuoted quote text.tail else text
    else if u = unit '\\' ∧ quote = unit '\'' then afterQuoted quote text.tail
    else afterQuoted quote text
termination_by text => text.length
decreasing_by
  · exact Nat.lt_succ_of_le (tail_sublist text).length_le
  · exact Nat.lt_succ_of_le (tail_sublist text).length_le
  · exact Nat.lt_succ_self _

theorem length_afterQuoted_le (quote : UInt16) (text : JsString) : (afterQuoted quote text).length ≤ text.length := by
  induction text using afterQuoted.induct quote with
  | case1 => rw [afterQuoted]
  | case2 text hpair ih =>
    rw [afterQuoted, if_pos rfl, if_pos hpair]
    exact (ih.trans (tail_sublist text).length_le).trans (Nat.le_succ _)
  | case3 text hpair =>
    rw [afterQuoted, if_pos rfl, if_neg hpair]
    exact Nat.le_succ _
  | case4 u text hquote hescape ih =>
    rw [afterQuoted, if_neg hquote, if_pos hescape]
    exact (ih.trans (tail_sublist text).length_le).trans (Nat.le_succ _)
  | case5 u text hquote hescape ih =>
    rw [afterQuoted, if_neg hquote, if_neg hescape]
    exact ih.trans (Nat.le_succ _)

def stripSqlCommentsAndLiterals : JsString → JsString
  | [] => []
  | u :: text =>
    if (ascii "--").isPrefixOf (u :: text) then unit ' ' :: stripSqlCommentsAndLiterals (afterLine text)
    else if u = unit '#' then unit ' ' :: stripSqlCommentsAndLiterals (afterLine text)
    else if (ascii "/*").isPrefixOf (u :: text) then unit ' ' :: stripSqlCommentsAndLiterals (afterBlock text.tail)
    else if u = unit '\'' ∨ u = unit '"' ∨ u = unit '`' then
      unit ' ' :: stripSqlCommentsAndLiterals (afterQuoted u text)
    else u :: stripSqlCommentsAndLiterals text
termination_by text => text.length
decreasing_by
  · exact Nat.lt_succ_of_le (length_afterLine_le text)
  · exact Nat.lt_succ_of_le (length_afterLine_le text)
  · exact Nat.lt_succ_of_le ((length_afterBlock_le text.tail).trans (tail_sublist text).length_le)
  · exact Nat.lt_succ_of_le (length_afterQuoted_le u text)
  · exact Nat.lt_succ_self _

/-- `/\bwhere\b/i`, after a unit. -/
def hasWhere : Option UInt16 → JsString → Bool
  | _, [] => false
  | before, u :: text =>
    (!before.any isWordUnit && ((u :: text).take 5).map lowerAscii = ascii "where" &&
      !((u :: text).drop 5).head?.any isWordUnit) || hasWhere (some u) text

inductive DangerousStatementReason where
  | drop
  | truncate
  | deleteWithoutWhere
  | updateWithoutWhere
deriving DecidableEq

def upperAscii (u : UInt16) : UInt16 := if 0x61 ≤ u && u ≤ 0x7A then u - 0x20 else u

def dangerousStatementReason (sql : JsString) : Option DangerousStatementReason :=
  let text := trim (stripSqlCommentsAndLiterals sql)
  let keyword := (text.takeWhile isLetter).map upperAscii
  if keyword = ascii "DROP" then some .drop
  else if keyword = ascii "TRUNCATE" then some .truncate
  else if keyword = ascii "DELETE" then if hasWhere none text then none else some .deleteWithoutWhere
  else if keyword = ascii "UPDATE" then if hasWhere none text then none else some .updateWithoutWhere
  else none

/-! ## Code by the rules of the scanner -/

/-- The units of a text that are read and left in modes to keep, with a blank for each other step. -/
def keptFrom (keep : Mode → Bool) (mode : Mode) : JsString → JsString
  | [] => []
  | u :: text =>
    (if keep mode && keep (step mode (u :: text)).1 then (u :: text).take (step mode (u :: text)).2 else [unit ' ']) ++
      keptFrom keep (step mode (u :: text)).1 ((u :: text).drop (step mode (u :: text)).2)
termination_by text => text.length
decreasing_by exact length_drop_step mode u text

def Mode.isCode (mode : Mode) : Bool := mode = .code

def code (sql : JsString) : JsString := keptFrom Mode.isCode .code sql

/-- The first code word is one of some words. -/
def Begins (sql : JsString) (keywords : List JsString) : Prop :=
  ∃ word, (words isWordUnit (code sql)).head? = some word ∧ word.map upperAscii ∈ keywords

def HasWhere (text : JsString) : Prop := ∃ word ∈ words isWordUnit text, word.map upperAscii = ascii "WHERE"

/-- A statement that drops, truncates, or deletes or updates without `WHERE`. -/
def Dangerous (sql : JsString) : Prop :=
  Begins sql [ascii "DROP", ascii "TRUNCATE"] ∨ Begins sql [ascii "DELETE", ascii "UPDATE"] ∧ ¬HasWhere (code sql)

/-- No dangerous statement of a text goes unnoticed. -/
def GuardAgrees (sql : JsString) (splitGo : Bool) : Prop :=
  ∀ statement ∈ splitSqlStatementRanges sql splitGo, Dangerous statement.sql →
    dangerousStatementReason statement.sql ≠ none

/-! ## Where the two readings differ -/

/-- The modes that the guard does not know and reads as code. -/
def Mode.isExposed : Mode → Bool
  | .code => true
  | .quoted closing => closing = unit ']'
  | .dollarQuoted _ => true
  | .lineComment => false
  | .blockComment => false

/-- The code together with the text in brackets and between tags. -/
def exposed (sql : JsString) : JsString := keptFrom Mode.isExposed .code sql

/-- A comment or a quote opens here for the guard. -/
def opensForGuard (text : JsString) : Bool :=
  (ascii "--").isPrefixOf text || (ascii "/*").isPrefixOf text ||
    text.head?.any fun u => u = unit '#' || u = unit '\'' || u = unit '"' || u = unit '`'

/-- The guard opens and closes its comments and literals where the scanner does: there is no number sign in the code,
nothing opens in brackets or between tags, and no backslash takes a quote in single quotes. -/
def alignedFrom (mode : Mode) : JsString → Bool
  | [] => true
  | u :: text =>
    if mode = .quoted (unit '\'') ∧ u = unit '\\' then
      (text.head? != some (unit '\'')) && alignedFrom mode text.tail
    else
      (if mode = .code then u != unit '#' else !(mode.isExposed && opensForGuard (u :: text))) &&
        alignedFrom (step mode (u :: text)).1 ((u :: text).drop (step mode (u :: text)).2)
termination_by text => text.length
decreasing_by
  · exact Nat.lt_succ_of_le (tail_sublist text).length_le
  · exact length_drop_step mode u text

def Aligned (sql : JsString) : Prop := alignedFrom .code sql = true

/-- Apart from blanks, a text begins with a letter. -/
def BeginsWithLetter (text : JsString) : Prop := ∃ u, (text.dropWhile isJsSpace).head? = some u ∧ isLetter u = true

end Taomni.Database.Sql
