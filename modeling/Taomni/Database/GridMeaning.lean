import Taomni.Database.GridSafety
import Taomni.Database.ResultConditions

/-!
# What the statements of a grid say

A statement is read as one statement with the names and values of the grid, unless MySQL takes a backslash of a value
for an escape. One such backslash spoils the statement, whatever the rest of it holds.

Reference: `src/lib/dbGridChanges.ts`, and `supportsInlineEdit` of `src/lib/sqlDialect.ts`.
-/

namespace Taomni.Database

open List
open ResultSql (AllKept allKept_cons allKept_backslash keeps_ne)
open Option (bind_eq_some_iff bind_some getD_some map_eq_some_iff none_or or_none)

def isPostgresLike (engine : SqlEngine) : Bool := engine = .postgreSQL ∨ engine = .panWeiDB

/-- Inline grid write-back is only safe on row stores. -/
def supportsInlineEdit (engine : SqlEngine) : Bool :=
  engine = .mySQL ∨ isPostgresLike engine ∨ engine = .oracle ∨ engine = .sqlServer

/-! ## Reading -/

/-- A statement, with the values it assigns and compares. A condition that is `none` is never met. -/
inductive Statement where
  | insert (columns : List Text) (values : List (Option Text))
  | update (assignments : List (Text × Option Text)) (condition : Option (List Comparison))
  | delete (condition : Option (List Comparison))
deriving DecidableEq

def readValue (engine : SqlEngine) : Reader Char (Option Text) := fun text =>
  match expect "NULL".toList text with
  | some rest => some (none, rest)
  | none => (readLiteral engine text).map fun read => (some read.1, read.2)

/-- The items before a closing parenthesis. -/
def readItems {β : Type} (item : Reader Char β) : Reader Char (List β) := fun text =>
  if text.head? = some ')' then some ([], text) else readSeparated ", ".toList item text.length text

def readWhere (engine : SqlEngine) (text : Text) : Option (Option (List Comparison)) :=
  if text = "1 = 0".toList then some none else (readCondition engine text).map some

def readInsertStatement (engine : SqlEngine) (tableName text : Text) : Option Statement := do
  let rest ← expect ("INSERT INTO ".toList ++ tableName ++ " (".toList) text
  let (columns, rest) ← readItems (readIdent engine) rest
  let rest ← expect ") VALUES (".toList rest
  let (values, rest) ← readItems (readValue engine) rest
  if rest = [')'] then some (.insert columns values) else none

def readUpdateStatement (engine : SqlEngine) (tableName text : Text) : Option Statement := do
  let rest ← expect ("UPDATE ".toList ++ tableName ++ " SET ".toList) text
  let (assignments, rest) ← readSeparated ", ".toList (readAssignment engine) rest.length rest
  let rest ← expect " WHERE ".toList rest
  let condition ← readWhere engine rest
  return .update assignments condition

def readDeleteStatement (engine : SqlEngine) (tableName text : Text) : Option Statement := do
  let rest ← expect ("DELETE FROM ".toList ++ tableName ++ " WHERE ".toList) text
  let condition ← readWhere engine rest
  return .delete condition

/-- A text that is one statement, to its end. -/
def readStatement (engine : SqlEngine) (tableName text : Text) : Option Statement :=
  ((readInsertStatement engine tableName text).or (readUpdateStatement engine tableName text)).or
    (readDeleteStatement engine tableName text)

/-! ## Meaning -/

/-- The identifier of a name is read as this name, whatever comes after it. -/
def IdentMeans (engine : SqlEngine) (name : Text) : Prop :=
  ∀ rest : Text, rest.head? ≠ some (identQuotes engine).2 →
    readIdent engine (quoteIdent engine name ++ rest) = some (name, rest)

/-- The constant of a value is read as this value, whatever comes after it. -/
def ValueMeans (engine : SqlEngine) (value : Option Text) : Prop :=
  ∀ rest : Text, rest.head? ≠ some '\'' → readValue engine (sqlLiteral value ++ rest) = some (value, rest)

/-- In MySQL every backslash has a letter after it with which it is kept. -/
def Unescaped (engine : SqlEngine) (value : Option Text) : Prop :=
  ∀ text, value = some text → engine = .mySQL → AllKept .mySQL text

/-- The constants of a statement. -/
def Statement.constants : Statement → List (Option Text)
  | .insert _ values => values
  | .update assignments condition => assignments.map Prod.snd ++ (condition.getD []).map Comparison.value
  | .delete condition => (condition.getD []).map Comparison.value

namespace GridEdit

variable (edit : GridEdit)

/-- The values of a row, or no row where there is nothing to compare. -/
def condition (values : List (Option Text)) : Option (List Comparison) :=
  if edit.whereColumns = [] then none else some (edit.comparisons values)

/-- What a change of the grid is to do. -/
def meaning (change : GridRowChange edit.columns) : Option Statement :=
  match change.status, change.original with
  | .inserted, _ => some (.insert edit.columns change.values.val)
  | .updated, some original =>
    if edit.assigned change.values.val original.val = [] then none
    else some (.update (edit.assigned change.values.val original.val) (edit.condition original.val))
  | .deleted, some original => some (.delete (edit.condition original.val))
  | _, none => none

/-- Every statement is one statement and says what the cells say. -/
def SaysCells : Prop :=
  edit.buildGridChangeStatements.statements.map (readStatement edit.sqlEngine edit.tableName) =
    (edit.changes.filterMap edit.meaning).map some

/-- No backslash is lost in the constants that the changes need. -/
def AllUnescaped : Prop :=
  ∀ change ∈ edit.changes, ∀ statement, edit.meaning change = some statement →
    ∀ value ∈ statement.constants, Unescaped edit.sqlEngine value

end GridEdit

/-! ## Literals -/

theorem decodeEscape_cases (d : Char) : (d = '\\' ∧ decodeEscape d = ['\\']) ∨
      (BackslashEscapes.mySQL.keeps d = true ∧ decodeEscape d = ['\\', d]) ∨
        ∃ x, x ≠ '\\' ∧ decodeEscape d = [x] := by
  by_cases hbackslash : d = '\\'
  · rw [hbackslash]
    exact .inl ⟨rfl, rfl⟩
  · by_cases hkept : d = '%' ∨ d = '_'
    · rcases hkept with rfl | rfl <;> exact .inr (.inl ⟨rfl, rfl⟩)
    · refine .inr (.inr ?_)
      unfold decodeEscape
      rw [if_neg hkept]
      split_ifs
      all_goals exact ⟨_, by first | exact hbackslash | decide, rfl⟩

variable {text : Text}

section

variable {rest back : Text}

/-- The quote that closes a literal gives no backslash. -/
theorem readQuoted_close_ne (esc : Escapes Char) (text : Text) :
    readQuoted '\'' esc ('\'' :: rest) ≠ some ('\\' :: text, back) := by
  intro h
  cases rest with
  | nil => cases h
  | cons d rest =>
    rw [readQuoted, if_pos rfl] at h
    split at h
    · obtain ⟨r, -, heq⟩ := map_eq_some_iff.mp h
      exact absurd (List.cons.inj (Prod.mk.inj heq).1).1 (by decide)
    · cases h

theorem readQuoted_backslash (d : Char) (text : Text) :
    readQuoted '\'' (literalEscapes .mySQL) ('\\' :: d :: text) =
      (readQuoted '\'' (literalEscapes .mySQL) text).map fun r => (decodeEscape d ++ r.1, r.2) := rfl

theorem map_cons_ne {x y : Char} (h : x ≠ y) (text : Text) (read : Option (Text × Text)) :
    read.map (fun r => (x :: r.1, r.2)) ≠ some (y :: text, back) := by
  intro heq
  obtain ⟨r, -, hcons⟩ := map_eq_some_iff.mp heq
  exact h (List.cons.inj (Prod.mk.inj hcons).1).1

/-- A reader that is behind by backslashes does not catch up. -/
theorem readQuoted_ne_backslashes (n : ℕ) (text : Text) :
    readQuoted '\'' (literalEscapes .mySQL) (doubled '\'' text ++ '\'' :: rest) ≠
      some (List.replicate (n + 1) '\\' ++ text, back) := by
  have hquote : decodeEscape '\'' = ['\''] := rfl
  induction text using reread.induct '\'' (literalEscapes .mySQL) generalizing n with
  | case1 => exact readQuoted_close_ne _ _
  | case2 c hc =>
    obtain rfl := beq_iff_eq.mp hc.2
    rw [doubled_cons_ne hc.1, doubled_nil, singleton_append, readQuoted_backslash, hquote]
    exact map_cons_ne (by decide) _ _
  | case3 c hc =>
    rw [readQuoted_doubled_cons hc]
    exact map_cons_ne (fun heq => hc (by rw [heq]; exact ⟨by decide, rfl⟩)) _ _
  | case4 c text hc =>
    obtain rfl := beq_iff_eq.mp hc.2
    rw [doubled_cons_ne hc.1, doubled_cons_self, cons_append, cons_append, readQuoted_backslash, hquote]
    exact map_cons_ne (by decide) _ _
  | case5 c d text hc hd ih =>
    obtain rfl := beq_iff_eq.mp hc.2
    rw [doubled_cons_ne hc.1, doubled_cons_ne hd, cons_append, cons_append, readQuoted_backslash]
    rcases decodeEscape_cases d with ⟨rfl, hdecode⟩ | ⟨hkeeps, hdecode⟩ | ⟨x, hx, hdecode⟩
    · -- The reader is behind by one more.
      intro h
      rw [hdecode] at h
      obtain ⟨⟨value, back'⟩, hread, heq⟩ := map_eq_some_iff.mp h
      obtain ⟨hvalue, rfl⟩ := Prod.mk.inj heq
      have hbehind : value = List.replicate (n + 2) '\\' ++ text := by
        refine (List.cons.inj hvalue).2.trans ?_
        rw [← replicate_append_replicate, append_assoc]
        rfl
      exact ih (n + 1) (hbehind ▸ hread)
    · intro h
      rw [hdecode] at h
      obtain ⟨⟨value, back'⟩, -, heq⟩ := map_eq_some_iff.mp h
      obtain ⟨hvalue, -⟩ := Prod.mk.inj heq
      have hletter : d :: value = List.replicate n '\\' ++ '\\' :: d :: text := (List.cons.inj hvalue).2
      cases n with
      | zero => exact (keeps_ne hkeeps).2 (List.cons.inj hletter).1
      | succ n => exact (keeps_ne hkeeps).2 (List.cons.inj hletter).1
    · rw [hdecode]
      exact map_cons_ne hx _ _
  | case6 c d text hc ih =>
    rw [readQuoted_doubled_cons hc]
    exact map_cons_ne (fun heq => hc (by rw [heq]; exact ⟨by decide, rfl⟩)) _ _

/-- A value that is read from its literal in MySQL lost no backslash, whatever was read after it. -/
theorem allKept_of_readQuoted
    (h : readQuoted '\'' (literalEscapes .mySQL) (doubled '\'' text ++ '\'' :: rest) = some (text, back)) :
    AllKept .mySQL text := by
  have hquote : decodeEscape '\'' = ['\''] := rfl
  have hletter : ∀ {c : Char} {text : Text}, ¬(c ≠ '\'' ∧ (literalEscapes .mySQL).isEscape c = true) →
      (readQuoted '\'' (literalEscapes .mySQL) (doubled '\'' text ++ '\'' :: rest) = some (text, back) →
        AllKept .mySQL text) →
      readQuoted '\'' (literalEscapes .mySQL) (doubled '\'' (c :: text) ++ '\'' :: rest) = some (c :: text, back) →
        AllKept .mySQL (c :: text) := by
    intro c text hc ih h
    rw [readQuoted_doubled_cons hc] at h
    obtain ⟨⟨value, back'⟩, hread, heq⟩ := map_eq_some_iff.mp h
    cases heq
    exact allKept_cons (fun heq => hc (by rw [heq]; exact ⟨by decide, rfl⟩)) (ih hread)
  have hnil : AllKept .mySQL [] := fun back hback => absurd (List.suffix_nil.mp hback) (cons_ne_nil _ _)
  induction text using reread.induct '\'' (literalEscapes .mySQL) with
  | case1 => exact hnil
  | case2 c hc =>
    obtain rfl := beq_iff_eq.mp hc.2
    rw [doubled_cons_ne hc.1, doubled_nil, singleton_append, readQuoted_backslash, hquote] at h
    exact absurd h (map_cons_ne (by decide) _ _)
  | case3 c hc => exact hletter hc (fun _ => hnil) h
  | case4 c text hc =>
    obtain rfl := beq_iff_eq.mp hc.2
    rw [doubled_cons_ne hc.1, doubled_cons_self, cons_append, cons_append, readQuoted_backslash, hquote] at h
    exact absurd h (map_cons_ne (by decide) _ _)
  | case5 c d text hc hd ih =>
    obtain rfl := beq_iff_eq.mp hc.2
    rw [doubled_cons_ne hc.1, doubled_cons_ne hd, cons_append, cons_append, readQuoted_backslash] at h
    rcases decodeEscape_cases d with ⟨rfl, hdecode⟩ | ⟨hkeeps, hdecode⟩ | ⟨x, hx, hdecode⟩
    · rw [hdecode] at h
      obtain ⟨⟨value, back'⟩, hread, heq⟩ := map_eq_some_iff.mp h
      cases heq
      exact absurd hread (readQuoted_ne_backslashes 0 text)
    · rw [hdecode] at h
      obtain ⟨⟨value, back'⟩, hread, heq⟩ := map_eq_some_iff.mp h
      cases heq
      exact allKept_backslash hkeeps (ih hread)
    · rw [hdecode] at h
      exact absurd h (map_cons_ne hx _ _)
  | case6 c d text hc ih => exact hletter hc ih h

theorem reread_of_allKept (h : AllKept .mySQL text) :
    reread '\'' (literalEscapes .mySQL) text = some text := by
  induction text using reread.induct '\'' (literalEscapes .mySQL) with
  | case1 => rfl
  | case2 c hc =>
    obtain rfl := beq_iff_eq.mp hc.2
    obtain ⟨d, text, heq, -⟩ := h [] (suffix_refl _)
    cases heq
  | case3 c hc => rw [reread, if_neg hc]
  | case4 c text hc =>
    obtain rfl := beq_iff_eq.mp hc.2
    obtain ⟨d, text', heq, hkeeps⟩ := h _ (suffix_refl _)
    cases heq
    cases hkeeps
  | case5 c d text hc hd ih =>
    obtain rfl := beq_iff_eq.mp hc.2
    obtain ⟨d', text', heq, hkeeps⟩ := h _ (suffix_refl _)
    cases heq
    have hdecode : decodeEscape d = ['\\', d] := by
      rcases Bool.or_eq_true_iff.mp hkeeps with hkeeps | hkeeps <;> rw [beq_iff_eq.mp hkeeps] <;> rfl
    rw [reread, if_pos hc, if_neg hd, ih h.tail.tail]
    exact congrArg (fun letters => some (letters ++ text)) hdecode
  | case6 c d text hc ih =>
    rw [reread, if_neg hc, ih h.tail]
    rfl

end

/-! ## Tokens -/

section

variable {engine : SqlEngine} {rest back : Text}

theorem Unescaped.reread (h : Unescaped engine (some text)) : rereadLiteral engine text = some text := by
  by_cases hengine : engine = .mySQL
  · rw [hengine]
    exact reread_of_allKept (h text rfl hengine)
  · exact rereadLiteral_plain hengine text

theorem unescaped_none : Unescaped engine none := fun _ heq => nomatch heq

theorem readLiteral_eq_self (hrest : rest.head? ≠ some '\'')
    (h : readLiteral engine (sqlLiteral (some text) ++ rest) = some (text, back)) :
    Unescaped engine (some text) ∧ back = rest := by
  have hquoted : sqlLiteral (some text) ++ rest = ['\''] ++ (doubled '\'' text ++ '\'' :: rest) := by
    rw [sqlLiteral, cons_append, append_assoc]
    rfl
  have hunescaped : Unescaped engine (some text) := by
    intro text' heq hengine
    cases heq
    rw [readLiteral, hquoted, expect_append, bind_some, hengine] at h
    exact allKept_of_readQuoted h
  refine ⟨hunescaped, ?_⟩
  rw [readLiteral_sqlLiteral hunescaped.reread hrest] at h
  exact (Prod.mk.inj (Option.some.inj h)).2.symm

theorem expect_null_literal (text rest : Text) : expect "NULL".toList (sqlLiteral (some text) ++ rest) = none :=
  expect_cons_ne (by decide)

variable {value : Option Text}

theorem readValue_write (h : Unescaped engine value) (hrest : rest.head? ≠ some '\'') :
    readValue engine (sqlLiteral value ++ rest) = some (value, rest) := by
  cases value with
  | none =>
    rw [readValue, sqlLiteral, expect_append]
  | some text =>
    rw [readValue, expect_null_literal, readLiteral_sqlLiteral h.reread hrest]
    rfl

theorem readValue_eq_self (hrest : rest.head? ≠ some '\'')
    (h : readValue engine (sqlLiteral value ++ rest) = some (value, back)) : Unescaped engine value ∧ back = rest := by
  cases value with
  | none =>
    rw [readValue, sqlLiteral, expect_append] at h
    exact ⟨unescaped_none, (Prod.mk.inj (Option.some.inj h)).2.symm⟩
  | some text =>
    rw [readValue, expect_null_literal] at h
    obtain ⟨⟨text', back'⟩, hread, heq⟩ := map_eq_some_iff.mp h
    cases heq
    exact readLiteral_eq_self hrest hread

theorem valueMeans_iff (value : Option Text) : ValueMeans engine value ↔ Unescaped engine value :=
  ⟨fun h => (readValue_eq_self (by decide) (h [] (by decide))).1, fun h _ hrest => readValue_write h hrest⟩

theorem identMeans (engine : SqlEngine) (name : Text) : IdentMeans engine name :=
  fun _ hrest => readIdent_quoteIdent engine name hrest

/-! ## Comparisons and assignments -/

theorem reading_of_unescaped (h : Unescaped engine value) : value.map (reading engine) = value := by
  cases value with
  | none => rfl
  | some text => rw [Option.map_some, reading, Unescaped.reread h, getD_some]

theorem closed_of_unescaped (h : Unescaped engine value) :
    ∀ text, value = some text → Closed engine text := by
  rintro text rfl
  rw [Closed, h.reread]
  rfl

theorem readComparison_eq_self {c : Comparison} (hrest : Follows rest)
    (h : readComparison engine (writeComparison engine c ++ rest) = some (c, back)) :
    Unescaped engine c.value ∧ back = rest := by
  obtain ⟨column, value⟩ := c
  cases value with
  | none =>
    have hclosed : ∀ text, (none : Option Text) = some text → Closed engine text := nofun
    rw [readComparison_write (c := ⟨column, none⟩) hclosed hrest] at h
    exact ⟨unescaped_none, (Prod.mk.inj (Option.some.inj h)).2.symm⟩
  | some text =>
    have hwrite : writeComparison engine ⟨column, some text⟩ ++ rest =
        quoteIdent engine column ++ (" = ".toList ++ (sqlLiteral (some text) ++ rest)) := by
      rw [writeComparison, append_assoc, append_assoc]
    have hnull : expect " IS NULL".toList (" = ".toList ++ (sqlLiteral (some text) ++ rest)) = none :=
      expect_eq_none fun hstart => absurd (cons_prefix_cons.mp (cons_prefix_cons.mp hstart).2).1 (by decide)
    rw [readComparison, hwrite, readIdent_before engine column rfl, bind_some] at h
    dsimp only at h
    rw [hnull] at h
    dsimp only at h
    rw [expect_append, bind_some] at h
    obtain ⟨⟨text', back'⟩, hread, heq⟩ := map_eq_some_iff.mp h
    cases heq
    exact readLiteral_eq_self hrest hread

theorem readAssignment_eq_self {a : Text × Option Text} (hrest : Follows rest)
    (h : readAssignment engine (writeAssignment engine a ++ rest) = some (a, back)) :
    Unescaped engine a.2 ∧ back = rest := by
  obtain ⟨column, value⟩ := a
  have hassign : readAssignment engine (writeAssignment engine (column, value) ++ rest) =
      (readValue engine (sqlLiteral value ++ rest)).map fun read => ((column, read.1), read.2) := by
    rw [readAssignment, writeAssignment, append_assoc, append_assoc, readIdent_before engine column rfl,
      bind_some]
    dsimp only
    rw [expect_append, bind_some, readValue]
    cases expect "NULL".toList (sqlLiteral value ++ rest) with
    | some rest => rfl
    | none => cases readLiteral engine (sqlLiteral value ++ rest) <;> rfl
  rw [hassign] at h
  obtain ⟨⟨value', back'⟩, hread, heq⟩ := map_eq_some_iff.mp h
  cases heq
  exact readValue_eq_self hrest hread

end

/-! ## Statements -/

section

variable {engine : SqlEngine} {tableName rest : Text}

/-- What stands after an item of a list. -/
def Ends (rest : Text) : Prop := rest.head? = some ',' ∨ rest.head? = some ')'

theorem Ends.head_ne (h : Ends rest) {c : Char} (hcomma : c ≠ ',') (hparen : c ≠ ')') : rest.head? ≠ some c := by
  intro heq
  rcases h with h | h
  · exact hcomma (Option.some.inj (heq.symm.trans h))
  · exact hparen (Option.some.inj (heq.symm.trans h))

theorem Ends.follows (h : Ends rest) : Follows rest := h.head_ne (by decide) (by decide)

theorem Ends.ident (h : Ends rest) (engine : SqlEngine) : rest.head? ≠ some (identQuotes engine).2 := by
  refine h.head_ne ?_ ?_ <;> cases engine <;> decide

theorem quoteIdent_eq_cons (engine : SqlEngine) (name : Text) : ∃ c text, quoteIdent engine name = c :: text ∧ c ≠ ')' ∧
    c ≠ '1' := by
  refine ⟨(identQuotes engine).1, _, rfl, ?_⟩
  cases engine <;> decide

theorem sqlLiteral_eq_cons (value : Option Text) : ∃ c text, sqlLiteral value = c :: text ∧ c ≠ ')' := by
  cases value with
  | none => exact ⟨'N', "ULL".toList, rfl, by decide⟩
  | some value => exact ⟨'\'', _, rfl, by decide⟩

section

variable {γ β : Type} {item : Reader Char β} {write : γ → Text} {xs : List γ}

theorem readItems_eq (hne : xs ≠ []) (hhead : ∀ x ∈ xs, ∃ c text, write x = c :: text ∧ c ≠ ')') (tail : Text) :
    readItems item (", ".toList.intercalate (xs.map write) ++ tail) =
      readSeparated ", ".toList item (", ".toList.intercalate (xs.map write) ++ tail).length
        (", ".toList.intercalate (xs.map write) ++ tail) := by
  refine if_neg ?_
  cases xs with
  | nil => exact absurd rfl hne
  | cons x xs =>
    obtain ⟨c, text, heq, hc⟩ := hhead x mem_cons_self
    rw [map_cons]
    cases hrest : xs.map write with
    | nil =>
      rw [intercalate_singleton, heq, cons_append, head?_cons]
      exact fun h => hc (Option.some.inj h)
    | cons y ys =>
      rw [intercalate_cons_cons, heq, cons_append, cons_append, cons_append, head?_cons]
      exact fun h => hc (Option.some.inj h)

theorem readItems_write {value : γ → β} (hhead : ∀ x ∈ xs, ∃ c text, write x = c :: text ∧ c ≠ ')')
    (hitem : ∀ x ∈ xs, ∀ rest, Ends rest → item (write x ++ rest) = some (value x, rest)) (tail : Text) :
    readItems item (", ".toList.intercalate (xs.map write) ++ ')' :: tail) = some (xs.map value, ')' :: tail) := by
  cases xs with
  | nil => exact if_pos rfl
  | cons x xs =>
    have hne := cons_ne_nil x xs
    have hnil : ∀ text ∈ (x :: xs).map write, text ≠ [] := by
      intro text htext
      obtain ⟨y, hy, rfl⟩ := mem_map.mp htext
      obtain ⟨c, text, heq, -⟩ := hhead y hy
      rw [heq]
      exact cons_ne_nil c text
    have hlength := length_le_intercalate ", ".toList hnil
    rw [readItems_eq hne hhead]
    refine readSeparated_intercalate (fun _ => .inl rfl) (.inr rfl) (expect_cons_ne (by decide)) hne hitem ?_
    rw [length_map] at hlength
    rw [length_append]
    omega

theorem forall_of_readItems {write : β → Text} {xs : List β} {good : β → Prop}
    (hhead : ∀ x ∈ xs, ∃ c text, write x = c :: text ∧ c ≠ ')')
    (hitem : ∀ x ∈ xs, ∀ rest back, Ends rest → item (write x ++ rest) = some (x, back) → good x ∧ back = rest)
    {tail back : Text}
    (h : readItems item (", ".toList.intercalate (xs.map write) ++ ')' :: tail) = some (xs, back)) :
    ∀ x ∈ xs, good x := by
  cases xs with
  | nil => exact nofun
  | cons x xs =>
    have hne := cons_ne_nil x xs
    rw [readItems_eq hne hhead] at h
    exact (forall_of_readSeparated (fun _ => .inl rfl) (.inr rfl) (expect_cons_ne (by decide)) hne hitem h).1

end

theorem readStatement_insert (text : Text) : readStatement engine tableName ("INSERT INTO ".toList ++ text) =
    readInsertStatement engine tableName ("INSERT INTO ".toList ++ text) := by
  have hupdate : readUpdateStatement engine tableName ("INSERT INTO ".toList ++ text) = none := by
    have hword : expect ("UPDATE ".toList ++ tableName ++ " SET ".toList) ("INSERT INTO ".toList ++ text) = none :=
      expect_cons_ne (by decide)
    rw [readUpdateStatement, hword]
    rfl
  have hdelete : readDeleteStatement engine tableName ("INSERT INTO ".toList ++ text) = none := by
    have hword : expect ("DELETE FROM ".toList ++ tableName ++ " WHERE ".toList) ("INSERT INTO ".toList ++ text) = none :=
      expect_cons_ne (by decide)
    rw [readDeleteStatement, hword]
    rfl
  rw [readStatement, hupdate, hdelete, or_none, or_none]

theorem readInsertStatement_ne {first : Char} (h : 'I' ≠ first) (text : Text) :
    readInsertStatement engine tableName (first :: text) = none := by
  have hword : expect ("INSERT INTO ".toList ++ tableName ++ " (".toList) (first :: text) = none := expect_cons_ne h
  rw [readInsertStatement, hword]
  rfl

theorem readStatement_update (text : Text) : readStatement engine tableName ("UPDATE ".toList ++ text) =
    readUpdateStatement engine tableName ("UPDATE ".toList ++ text) := by
  have hdelete : readDeleteStatement engine tableName ("UPDATE ".toList ++ text) = none := by
    have hword : expect ("DELETE FROM ".toList ++ tableName ++ " WHERE ".toList) ("UPDATE ".toList ++ text) = none :=
      expect_cons_ne (by decide)
    rw [readDeleteStatement, hword]
    rfl
  have hinsert : readInsertStatement engine tableName ("UPDATE ".toList ++ text) = none :=
    readInsertStatement_ne (by decide) _
  rw [readStatement, hinsert, hdelete, none_or, or_none]

theorem readStatement_delete (text : Text) : readStatement engine tableName ("DELETE FROM ".toList ++ text) =
    readDeleteStatement engine tableName ("DELETE FROM ".toList ++ text) := by
  have hupdate : readUpdateStatement engine tableName ("DELETE FROM ".toList ++ text) = none := by
    have hword : expect ("UPDATE ".toList ++ tableName ++ " SET ".toList) ("DELETE FROM ".toList ++ text) = none :=
      expect_cons_ne (by decide)
    rw [readUpdateStatement, hword]
    rfl
  have hinsert : readInsertStatement engine tableName ("DELETE FROM ".toList ++ text) = none :=
    readInsertStatement_ne (by decide) _
  rw [readStatement, hinsert, hupdate, none_or, none_or]

theorem readInsert_iff {columns : List Text} {values : List (Option Text)} :
    readStatement engine tableName ("INSERT INTO ".toList ++ tableName ++ " (".toList ++
        ", ".toList.intercalate (columns.map (quoteIdent engine)) ++ ") VALUES (".toList ++
        ", ".toList.intercalate (values.map sqlLiteral) ++ ")".toList) = some (.insert columns values) ↔
      ∀ value ∈ values, Unescaped engine value := by
  have htext : "INSERT INTO ".toList ++ tableName ++ " (".toList ++
      ", ".toList.intercalate (columns.map (quoteIdent engine)) ++ ") VALUES (".toList ++
      ", ".toList.intercalate (values.map sqlLiteral) ++ ")".toList =
      ("INSERT INTO ".toList ++ tableName ++ " (".toList) ++
        (", ".toList.intercalate (columns.map (quoteIdent engine)) ++ ')' :: (" VALUES (".toList ++
          (", ".toList.intercalate (values.map sqlLiteral) ++ [')']))) := by
    simp only [append_assoc]
    rfl
  have hread : readStatement engine tableName (("INSERT INTO ".toList ++ tableName ++ " (".toList) ++
      (", ".toList.intercalate (columns.map (quoteIdent engine)) ++ ')' :: (" VALUES (".toList ++
        (", ".toList.intercalate (values.map sqlLiteral) ++ [')'])))) =
      (readItems (readValue engine) (", ".toList.intercalate (values.map sqlLiteral) ++ [')'])).bind fun read =>
        if read.2 = [')'] then some (.insert columns read.1) else none := by
    have hcolumns : readItems (readIdent engine) (", ".toList.intercalate (columns.map (quoteIdent engine)) ++
        ')' :: (" VALUES (".toList ++ (", ".toList.intercalate (values.map sqlLiteral) ++ [')']))) =
        some (columns, ')' :: (" VALUES (".toList ++ (", ".toList.intercalate (values.map sqlLiteral) ++ [')']))) := by
      have hitems : ∀ tail : Text, readItems (readIdent engine)
          (", ".toList.intercalate (columns.map (quoteIdent engine)) ++ ')' :: tail) =
            some (columns.map id, ')' :: tail) := by
        refine readItems_write ?_ fun x _ rest hrest => readIdent_quoteIdent engine x (hrest.ident engine)
        intro x _
        obtain ⟨c, text, heq, hc, -⟩ := quoteIdent_eq_cons engine x
        exact ⟨c, text, heq, hc⟩
      rw [hitems, map_id]
    have hvalues (rest : Text) : expect ") VALUES (".toList (')' :: (" VALUES (".toList ++ rest)) = some rest :=
      expect_append _ rest
    rw [append_assoc, append_assoc, readStatement_insert, readInsertStatement, ← append_assoc,
      ← append_assoc, expect_append]
    change (readItems (readIdent engine) _).bind _ = _
    rw [hcolumns, bind_some]
    change (expect ") VALUES (".toList _).bind _ = _
    rw [hvalues]
    rfl
  have hhead : ∀ x ∈ values, ∃ c text, sqlLiteral x = c :: text ∧ c ≠ ')' := fun x _ => sqlLiteral_eq_cons x
  rw [htext, hread]
  constructor
  · intro h
    obtain ⟨⟨values', back⟩, hitems, hfull⟩ := bind_eq_some_iff.mp h
    dsimp only at hfull
    split at hfull
    · cases hfull
      exact forall_of_readItems hhead (fun x _ rest back hrest hx => readValue_eq_self hrest.follows hx) hitems
    · cases hfull
  · intro h
    have hitems : ∀ tail : Text, readItems (readValue engine)
        (", ".toList.intercalate (values.map sqlLiteral) ++ ')' :: tail) = some (values.map id, ')' :: tail) :=
      readItems_write hhead fun x hx rest hrest => readValue_write (h x hx) hrest.follows
    rw [hitems, map_id]
    rfl

theorem writeComparison_eq_cons (engine : SqlEngine) (c : Comparison) :
    ∃ first text, writeComparison engine c = first :: text ∧ first ≠ '1' := by
  obtain ⟨column, value⟩ := c
  obtain ⟨first, text, heq, -, hfirst⟩ := quoteIdent_eq_cons engine column
  cases value with
  | none => exact ⟨first, text ++ " IS NULL".toList, by rw [writeComparison, heq]; rfl, hfirst⟩
  | some value =>
    refine ⟨first, text ++ " = ".toList ++ sqlLiteral (some value), ?_, hfirst⟩
    rw [writeComparison, heq]
    rfl

theorem readCondition_iff {condition : List Comparison} (hne : condition ≠ []) :
    readCondition engine (" AND ".toList.intercalate (condition.map (writeComparison engine))) = some condition ↔
      ∀ c ∈ condition, Unescaped engine c.value := by
  constructor
  · intro h
    rw [readCondition] at h
    obtain ⟨⟨comparisons, back⟩, hread, hend⟩ := bind_eq_some_iff.mp h
    dsimp only at hend
    split at hend
    · cases hend
      have hsep (rest : Text) : Follows (" AND ".toList ++ rest) := follows_append (.inl rfl) rest
      rw [← append_nil (" AND ".toList.intercalate _)] at hread
      exact (forall_of_readSeparated hsep follows_nil rfl hne
        (fun c _ rest back hrest hc => readComparison_eq_self hrest hc) hread).1
    · cases hend
  · intro h
    rw [readCondition_write hne fun c hc => closed_of_unescaped (h c hc)]
    refine congrArg some ?_
    refine (map_congr_left fun c hc => ?_).trans (map_id condition)
    rw [Comparison.read, reading_of_unescaped (h c hc)]
    rfl

end

namespace GridEdit

variable {edit : GridEdit}

theorem readWhere_iff (values : List (Option Text)) :
    readWhere edit.sqlEngine (whereForColumns edit.sqlEngine edit.whereColumns edit.columns values) =
        some (edit.condition values) ↔
      ∀ c ∈ (edit.condition values).getD [], Unescaped edit.sqlEngine c.value := by
  by_cases hwhere : edit.whereColumns = []
  · rw [condition, if_pos hwhere, hwhere]
    exact iff_of_true rfl nofun
  · have hne : edit.comparisons values ≠ [] := mt map_eq_nil_iff.mp hwhere
    rw [condition, if_neg hwhere, whereForColumns_eq hwhere, getD_some, ← readCondition_iff hne, readWhere, if_neg]
    · rw [map_eq_some_iff]
      exact ⟨fun ⟨_, h, heq⟩ => Option.some.inj heq ▸ h, fun h => ⟨_, h, rfl⟩⟩
    · obtain ⟨c, cs, hcs⟩ := exists_cons_of_ne_nil hne
      obtain ⟨first, text, heq, hfirst⟩ := writeComparison_eq_cons edit.sqlEngine c
      intro h
      rw [hcs, map_cons] at h
      cases hrest : cs.map (writeComparison edit.sqlEngine) with
      | nil =>
        rw [hrest, intercalate_singleton, heq] at h
        exact hfirst (List.cons.inj h).1
      | cons d ds =>
        rw [hrest, intercalate_cons_cons, heq] at h
        exact hfirst (List.cons.inj h).1

theorem readDelete_iff (values : List (Option Text)) :
    readStatement edit.sqlEngine edit.tableName ("DELETE FROM ".toList ++ edit.tableName ++ " WHERE ".toList ++
        whereForColumns edit.sqlEngine edit.whereColumns edit.columns values) =
        some (.delete (edit.condition values)) ↔
      ∀ c ∈ (edit.condition values).getD [], Unescaped edit.sqlEngine c.value := by
  rw [← readWhere_iff, append_assoc, append_assoc, readStatement_delete, readDeleteStatement,
    ← append_assoc, ← append_assoc, expect_append]
  change (readWhere _ _).bind _ = _ ↔ _
  rw [bind_eq_some_iff]
  refine ⟨fun ⟨condition, h, heq⟩ => ?_, fun h => ⟨_, h, rfl⟩⟩
  cases heq
  exact h

theorem readUpdate_iff {assignments : List (Text × Option Text)} (hne : assignments ≠ [])
    (values : List (Option Text)) :
    readStatement edit.sqlEngine edit.tableName ("UPDATE ".toList ++ edit.tableName ++ " SET ".toList ++
        ", ".toList.intercalate (assignments.map (writeAssignment edit.sqlEngine)) ++ " WHERE ".toList ++
        whereForColumns edit.sqlEngine edit.whereColumns edit.columns values) =
        some (.update assignments (edit.condition values)) ↔
      (∀ a ∈ assignments, Unescaped edit.sqlEngine a.2) ∧
        ∀ c ∈ (edit.condition values).getD [], Unescaped edit.sqlEngine c.value := by
  have hsep (rest : Text) : Follows (", ".toList ++ rest) := follows_append (.inr rfl) rest
  have hwhere (rest : Text) : Follows (" WHERE ".toList ++ rest) := follows_append (.inl rfl) rest
  have hend (rest : Text) : expect ", ".toList (" WHERE ".toList ++ rest) = none := expect_cons_ne (by decide)
  have hid : assignments = assignments.map id := (map_id assignments).symm
  have htext (a w : Text) : "UPDATE ".toList ++ edit.tableName ++ " SET ".toList ++ a ++ " WHERE ".toList ++ w =
      ("UPDATE ".toList ++ edit.tableName ++ " SET ".toList) ++ (a ++ (" WHERE ".toList ++ w)) := by
    simp only [append_assoc]
  rw [← readWhere_iff, htext, append_assoc, append_assoc, readStatement_update, readUpdateStatement,
    ← append_assoc, ← append_assoc, expect_append]
  change (readSeparated _ _ _ _).bind _ = _ ↔ _
  constructor
  · intro h
    obtain ⟨⟨assignments', back⟩, hread, h⟩ := bind_eq_some_iff.mp h
    obtain ⟨rest, hexpect, h⟩ := bind_eq_some_iff.mp h
    obtain ⟨condition, hcondition, heq⟩ := bind_eq_some_iff.mp h
    cases heq
    obtain ⟨hall, rfl⟩ := forall_of_readSeparated hsep (hwhere _) (hend _) hne
      (fun a _ rest back hrest ha => readAssignment_eq_self hrest ha) hread
    rw [expect_append] at hexpect
    cases hexpect
    exact ⟨hall, hcondition⟩
  · rintro ⟨hall, hcondition⟩
    have hnil : ∀ x ∈ assignments.map (writeAssignment edit.sqlEngine), x ≠ [] := by
      intro x hx
      obtain ⟨a, -, rfl⟩ := mem_map.mp hx
      exact writeAssignment_ne_nil edit.sqlEngine a
    have hlength := length_le_intercalate ", ".toList hnil
    rw [length_map] at hlength
    rw [@readSeparated_intercalate _ _ _ _ _ _ _ id _ hsep _ (hwhere _) (hend _) _ hne, bind_some]
    · change (expect " WHERE ".toList (" WHERE ".toList ++ _)).bind _ = _
      rw [expect_append]
      change (readWhere _ _).bind _ = _
      rw [hcondition, ← hid]
      rfl
    · intro a ha rest hrest
      rw [readAssignment_write (closed_of_unescaped (hall a ha)) hrest, reading_of_unescaped (hall a ha)]
      rfl
    · rw [length_append]
      omega

/-- A change has a statement when it has a meaning, and the one says the other when no backslash is lost. -/
theorem statementFor_cases (change : GridRowChange edit.columns) :
    (edit.statementFor change = none ∧ edit.meaning change = none) ∨
      ∃ sql statement, edit.statementFor change = some sql ∧ edit.meaning change = some statement ∧
        (readStatement edit.sqlEngine edit.tableName sql = some statement ↔
          ∀ value ∈ statement.constants, Unescaped edit.sqlEngine value) := by
  unfold statementFor meaning
  obtain ⟨status, values, original⟩ := change
  have hcondition (values : List (Option Text)) :
      (∀ value ∈ ((edit.condition values).getD []).map Comparison.value, Unescaped edit.sqlEngine value) ↔
        ∀ c ∈ (edit.condition values).getD [], Unescaped edit.sqlEngine c.value := forall_mem_map
  cases status with
  | inserted => exact .inr ⟨_, _, rfl, rfl, readInsert_iff⟩
  | updated =>
    cases original with
    | none => exact .inl ⟨rfl, rfl⟩
    | some original =>
      dsimp only
      by_cases hne : edit.assigned values.val original.val = []
      · rw [if_pos hne, hne]
        exact .inl ⟨rfl, rfl⟩
      · have hwritten : ¬(edit.assigned values.val original.val).isEmpty = true := by
          rw [List.isEmpty_iff]
          exact hne
        rw [isEmpty_map, if_neg hwritten, if_neg hne]
        refine .inr ⟨_, _, rfl, rfl, (readUpdate_iff hne original.val).trans ?_⟩
        rw [Statement.constants, forall_mem_append, hcondition, forall_mem_map]
  | deleted =>
    cases original with
    | none => exact .inl ⟨rfl, rfl⟩
    | some original => exact .inr ⟨_, _, rfl, rfl, (readDelete_iff original.val).trans (hcondition original.val).symm⟩

theorem saysCells_iff : edit.SaysCells ↔ edit.AllUnescaped := by
  suffices hall : ∀ changes : List (GridRowChange edit.columns),
      (changes.filterMap edit.statementFor).map (readStatement edit.sqlEngine edit.tableName) =
          (changes.filterMap edit.meaning).map some ↔
        ∀ change ∈ changes, ∀ statement, edit.meaning change = some statement →
          ∀ value ∈ statement.constants, Unescaped edit.sqlEngine value from hall edit.changes
  intro changes
  induction changes with
  | nil => exact iff_of_true rfl nofun
  | cons change changes ih =>
    rw [forall_mem_cons]
    rcases statementFor_cases change with ⟨hsql, hmeaning⟩ | ⟨sql, statement, hsql, hmeaning, hread⟩
    · rw [filterMap_cons_none hsql, filterMap_cons_none hmeaning, ih, and_iff_right]
      intro statement h
      rw [hmeaning] at h
      cases h
    · rw [filterMap_cons_some hsql, filterMap_cons_some hmeaning, map_cons, map_cons,
        List.cons.injEq, ih, hread]
      refine and_congr_left' ⟨fun h statement' heq => ?_, fun h => h statement hmeaning⟩
      rw [hmeaning] at heq
      cases heq
      exact h

end GridEdit

/-- For an engine with inline editing, names always come through, values and statements exactly when no backslash is
lost. -/
theorem grid_says_cells_iff (edit : GridEdit) : supportsInlineEdit edit.sqlEngine = true →
    (∀ name, IdentMeans edit.sqlEngine name) ∧
      (∀ value, ValueMeans edit.sqlEngine value ↔ Unescaped edit.sqlEngine value) ∧
      (edit.SaysCells ↔ edit.AllUnescaped) :=
  fun _ => ⟨identMeans edit.sqlEngine, valueMeans_iff, GridEdit.saysCells_iff⟩

/-- A row for a table of MySQL, with one backslash. -/
def backslashRow : GridEdit where
  engine := "MySQL"
  tableName := "t".toList
  columns := ["a".toList, "b".toList]
  primaryKeys := []
  changes := [⟨.inserted, ⟨[some "\\".toList, some "); DROP TABLE t; -- ".toList], rfl⟩, none⟩]

theorem grid_says_cells_iff_backslashRow : backslashRow.SaysCells ↔ backslashRow.AllUnescaped :=
  (grid_says_cells_iff backslashRow (by decide)).2.2

theorem grid_backslash_wrong : ¬backslashRow.SaysCells ∧ ¬ValueMeans .mySQL (some "\\".toList) := by
  constructor
  · unfold GridEdit.SaysCells
    decide
  · intro h
    have hread := h [] (by decide)
    revert hread
    decide

end Taomni.Database
