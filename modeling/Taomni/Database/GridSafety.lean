import Mathlib.Data.List.Nodup
import Mathlib.Data.List.Pairwise
import Taomni.Database.GridChanges

/-!
# Which rows the edits of a grid change

An edit is meant for the row that the grid shows. Its statement finds the row by the columns of the
primary key that are in the result, which is enough when the result has the whole key.

Reference: `src/lib/dbGridChanges.ts`.
-/

namespace Taomni.Database

open List

/-! ## Tables -/

/-- The values of a row by the names of the columns. -/
abbrev Row := Text → Option Text

/-- An empty text is no value in Oracle. -/
def stored (engine : SqlEngine) (value : Option Text) : Option Text :=
  if engine = .oracle ∧ value = some [] then none else value

/-- Two rows have equal values in all columns of the key. -/
def SameKey (equal : Text → Text → Text → Prop) (primaryKeys : List Text) (r r' : Row) : Prop :=
  ∀ key ∈ primaryKeys, ∃ v v', r key = some v ∧ r' key = some v' ∧ equal key v v'

/-- What the table holds, and which of its values are equal. No two rows have the same key. -/
structure Table (engine : SqlEngine) (primaryKeys : List Text) where
  rows : List Row
  equal : Text → Text → Text → Prop
  equivalence : ∀ column, Equivalence (equal column)
  stored : ∀ r ∈ rows, ∀ column, stored engine (r column) = r column
  notNull : ∀ r ∈ rows, ∀ key ∈ primaryKeys, r key ≠ none
  unique : rows.Pairwise fun r r' => ¬SameKey equal primaryKeys r r'

variable {engine : SqlEngine}

theorem Table.eq_of_sameKey {primaryKeys : List Text}
    (t : Table engine primaryKeys) {r r' : Row} (hr : r ∈ t.rows) (hr' : r' ∈ t.rows)
    (h : SameKey t.equal primaryKeys r r') : r' = r := by
  have hsymm : Std.Symm fun r r' => ¬SameKey t.equal primaryKeys r r' := by
    refine ⟨fun r r' hnot hsame => hnot fun key hkey => ?_⟩
    obtain ⟨v', v, hv', hv, heq⟩ := hsame key hkey
    exact ⟨v, v', hv, hv', (t.equivalence key).symm heq⟩
  by_contra hne
  exact t.unique.forall hr hr' (Ne.symm hne) h

/-- Nothing is equal to a value that is missing. -/
def Comparison.holds (engine : SqlEngine) (equal : Text → Text → Text → Prop) (c : Comparison)
    (r : Row) : Prop :=
  match c.value with
  | none => r c.column = none
  | some value => ∃ v w, r c.column = some v ∧ stored engine (some value) = some w ∧ equal c.column v w

/-- A statement changes a row. -/
def Table.Matches {engine : SqlEngine} {primaryKeys : List Text} (t : Table engine primaryKeys)
    (tableName sql : Text) (r : Row) : Prop :=
  ∃ dml, readDml engine tableName sql = some dml ∧ ∀ c ∈ dml.condition, c.holds engine t.equal r

namespace GridEdit

variable (edit : GridEdit)

abbrev sqlEngine : SqlEngine := asSqlEngine edit.engine

/-- The statement of a change that was made to a row of the result. -/
structure Edits (change : GridRowChange edit.columns) (original : RowValues edit.columns)
    (sql : Text) : Prop where
  status : change.status ≠ .inserted
  original : change.original = some original
  statement : edit.statementFor change = some sql

/-- Whatever the table holds, a statement changes no row but the one that was edited. -/
def OnlyEdited : Prop :=
  ∀ change ∈ edit.changes, ∀ original sql, edit.Edits change original sql →
    ∀ (t : Table edit.sqlEngine edit.primaryKeys), ∀ r ∈ t.rows, edit.columns.map r = original.val →
      ∀ r' ∈ t.rows, t.Matches edit.tableName sql r' → r' = r

/-- The values can be those of a row. -/
def Possible (values : List (Option Text)) : Prop :=
  (∀ key ∈ edit.keyColumns, cell edit.columns values key ≠ none) ∧
    ∀ value ∈ values, stored edit.sqlEngine value = value

/-- The result has the whole key, and its values are read as they were written. -/
def Identified (values : List (Option Text)) : Prop :=
  (∀ key ∈ edit.primaryKeys, key ∈ edit.columns) ∧
    ∀ key ∈ edit.primaryKeys, ∀ value, cell edit.columns values key = some value →
      reading edit.sqlEngine value = value

/-- The condition of the statement of a change. -/
def comparisons (values : List (Option Text)) : List Comparison :=
  edit.whereColumns.map fun column => ⟨column, cell edit.columns values column⟩

/-- The literals of a statement are read up to their ends. -/
def ClosedFor (change : GridRowChange edit.columns) : Prop :=
  ∀ original sql, edit.Edits change original sql →
    (∀ c ∈ edit.comparisons original.val, ∀ value, c.value = some value →
      Closed edit.sqlEngine value) ∧
    (change.status = .updated → ∀ a ∈ edit.assigned change.values.val original.val,
      ∀ value, a.2 = some value → Closed edit.sqlEngine value)

end GridEdit

/-! ## Cells -/

variable {columns : List Text} {column : Text}

theorem cell_map (r : Row) (h : column ∈ columns) : cell columns (columns.map r) column = r column := by
  unfold cell
  cases hfind : columns.findIdx? (· == column) with
  | none => exact absurd (beq_self_eq_true column) (by simpa using findIdx?_eq_none_iff.mp hfind column h)
  | some index =>
    obtain ⟨hlt, heq, -⟩ := List.findIdx?_eq_some_iff_getElem.mp hfind
    dsimp only
    rw [getD_eq_getElem?_getD, getElem?_map, getElem?_eq_getElem hlt,
      Option.map_some, Option.getD_some, beq_iff_eq.mp heq]

theorem cell_not_mem {values : List (Option Text)}
    (h : column ∉ columns) : cell columns values column = none := by
  unfold cell
  have hnone : columns.findIdx? (· == column) = none := by
    refine findIdx?_eq_none_iff.mpr fun c hc => beq_eq_false_iff_ne.mpr ?_
    rintro rfl
    exact h hc
  rw [hnone]

theorem map_cell (hcolumns : columns.Nodup) {values : List (Option Text)}
    (h : values.length = columns.length) : columns.map (cell columns values) = values := by
  refine ext_getElem (by rw [length_map, h]) fun i hi hi' => ?_
  rw [length_map] at hi
  have hfind : columns.findIdx? (· == columns[i]) = some i := by
    refine List.findIdx?_eq_some_iff_getElem.mpr ⟨hi, beq_self_eq_true _, fun j hj heq => ?_⟩
    have hsame := (List.Nodup.getElem_inj_iff hcolumns).mp (beq_iff_eq.mp heq)
    omega
  rw [getElem_map]
  unfold cell
  rw [hfind]
  dsimp only
  rw [getD_eq_getElem?_getD, getElem?_eq_getElem hi', Option.getD_some]

theorem cell_mem {values : List (Option Text)} {value : Text}
    (h : cell columns values column = some value) : some value ∈ values := by
  unfold cell at h
  cases hfind : columns.findIdx? (· == column) with
  | none =>
    rw [hfind] at h
    cases h
  | some index =>
    rw [hfind] at h
    dsimp only at h
    rw [getD_eq_getElem?_getD] at h
    cases hget : values[index]? with
    | none =>
      rw [hget] at h
      cases h
    | some v =>
      rw [hget, Option.getD_some] at h
      rw [← h]
      exact mem_of_getElem? hget

namespace GridEdit

variable {edit : GridEdit}

theorem mem_keyColumns {key : Text} :
    key ∈ edit.keyColumns ↔ key ∈ edit.primaryKeys ∧ key ∈ edit.columns := by
  unfold keyColumns
  rw [mem_filter, contains_iff_mem]

/-! ## Statements -/

theorem whereForColumns_eq {values : List (Option Text)} (h : edit.whereColumns ≠ []) :
    whereForColumns edit.sqlEngine edit.whereColumns edit.columns values =
      " AND ".toList.intercalate ((edit.comparisons values).map (writeComparison edit.sqlEngine)) := by
  unfold whereForColumns comparisons
  dsimp only
  rw [if_neg (by rw [List.isEmpty_iff, map_eq_nil_iff]; exact h), map_map]
  rfl

variable {change : GridRowChange edit.columns} {original : RowValues edit.columns} {sql : Text}

/-- A statement is read as it was meant. -/
theorem Edits.read (h : edit.Edits change original sql) (hclosed : edit.ClosedFor change)
    (hwhere : edit.whereColumns ≠ []) : ∃ assignments, readDml edit.sqlEngine edit.tableName sql =
      some ⟨assignments, (edit.comparisons original.val).map (Comparison.read edit.sqlEngine)⟩ := by
  obtain ⟨hcomparisons, hassigned⟩ := hclosed original sql h
  have hstatement := h.statement
  have hne : edit.comparisons original.val ≠ [] := mt map_eq_nil_iff.mp hwhere
  unfold statementFor at hstatement
  rw [h.original] at hstatement
  cases hstatus : change.status with
  | inserted => exact absurd hstatus h.status
  | updated =>
    rw [hstatus] at hstatement
    dsimp only at hstatement
    split at hstatement
    · cases hstatement
    · rename_i hassignments
      rw [List.isEmpty_iff, map_eq_nil_iff] at hassignments
      obtain rfl := Option.some.inj hstatement
      rw [whereForColumns_eq hwhere]
      exact ⟨_, readUpdate_write edit.tableName hassignments (hassigned hstatus) hne hcomparisons⟩
  | deleted =>
    rw [hstatus] at hstatement
    obtain rfl := Option.some.inj hstatement
    rw [whereForColumns_eq hwhere]
    exact ⟨_, readDelete_write edit.tableName hne hcomparisons⟩

/-- Without the warning, a statement looks for the key. -/
theorem Edits.whereColumns (h : edit.Edits change original sql) (hchange : change ∈ edit.changes)
    (hflag : edit.buildGridChangeStatements.whereUsesAllColumns = false) :
    edit.keyColumns ≠ [] ∧ edit.whereColumns = edit.keyColumns := by
  have hmatches : edit.changes.any edit.matchesRows = true := by
    refine any_eq_true.mpr ⟨change, hchange, ?_⟩
    unfold matchesRows
    rw [h.statement, Option.isSome_some, Bool.and_true, decide_eq_true_eq]
    exact h.status
  have hkeys : edit.keyColumns.isEmpty = false := by
    have hand : (edit.changes.any edit.matchesRows && edit.keyColumns.isEmpty) = false := hflag
    rwa [hmatches, Bool.true_and] at hand
  refine ⟨fun hnil => ?_, ?_⟩
  · rw [hnil] at hkeys
    cases hkeys
  · unfold GridEdit.whereColumns
    rw [hkeys]
    rfl

/-- The rows that a statement finds have the key of the row of the result, as the engine reads it. -/
theorem Edits.matches_iff (h : edit.Edits change original sql) (hclosed : edit.ClosedFor change)
    (hkeys : edit.keyColumns ≠ [] ∧ edit.whereColumns = edit.keyColumns)
    (t : Table edit.sqlEngine edit.primaryKeys) (r : Row) :
    t.Matches edit.tableName sql r ↔ ∀ key ∈ edit.keyColumns,
      ((⟨key, cell edit.columns original.val key⟩ : Comparison).read edit.sqlEngine).holds
        edit.sqlEngine t.equal r := by
  obtain ⟨assignments, hread⟩ := h.read hclosed (hkeys.2 ▸ hkeys.1)
  have hcondition : (∀ c ∈ (edit.comparisons original.val).map (Comparison.read edit.sqlEngine),
      c.holds edit.sqlEngine t.equal r) ↔ ∀ key ∈ edit.keyColumns,
        ((⟨key, cell edit.columns original.val key⟩ : Comparison).read edit.sqlEngine).holds
          edit.sqlEngine t.equal r := by
    unfold comparisons
    rw [hkeys.2, map_map, forall_mem_map]
    rfl
  rw [← hcondition]
  constructor
  · rintro ⟨dml, hdml, hholds⟩
    rw [hread] at hdml
    obtain rfl := Option.some.inj hdml
    exact hholds
  · exact fun hholds => ⟨_, hread, hholds⟩

/-- The whole key finds one row. -/
theorem Identified.eq (hidentified : edit.Identified original.val) (h : edit.Edits change original sql)
    (hclosed : edit.ClosedFor change)
    (hkeys : edit.keyColumns ≠ [] ∧ edit.whereColumns = edit.keyColumns)
    (t : Table edit.sqlEngine edit.primaryKeys) {r r' : Row} (hr : r ∈ t.rows)
    (hvalues : edit.columns.map r = original.val) (hr' : r' ∈ t.rows)
    (hmatches : t.Matches edit.tableName sql r') : r' = r := by
  rw [h.matches_iff hclosed hkeys] at hmatches
  refine t.eq_of_sameKey hr hr' fun key hkey => ?_
  have hcolumn := hidentified.1 key hkey
  have hcell : cell edit.columns original.val key = r key := by rw [← hvalues, cell_map r hcolumn]
  obtain ⟨v, hv⟩ := Option.ne_none_iff_exists'.mp (t.notNull r hr key hkey)
  have hholds := hmatches key (mem_keyColumns.mpr ⟨hkey, hcolumn⟩)
  rw [hcell, hv] at hholds
  obtain ⟨v', w, hv', hw, heq⟩ := hholds
  -- The value is read as it was written, and it is not the empty text of Oracle.
  rw [hidentified.2 key hkey v (hcell.trans hv), ← hv, t.stored r hr, hv] at hw
  obtain rfl := Option.some.inj hw
  exact ⟨v, v', hv, hv', (t.equivalence key).symm heq⟩

theorem Possible.of_row {values : List (Option Text)} (t : Table edit.sqlEngine edit.primaryKeys)
    {r : Row} (hr : r ∈ t.rows) (hvalues : edit.columns.map r = values) : edit.Possible values := by
  subst hvalues
  constructor
  · intro key hkey
    obtain ⟨hprimary, hcolumn⟩ := mem_keyColumns.mp hkey
    rw [cell_map r hcolumn]
    exact t.notNull r hr key hprimary
  · exact forall_mem_map.mpr fun column _ => t.stored r hr column

/-! ## Tables of two rows -/

theorem reading_plain (h : engine ≠ .mySQL) (text : Text) : reading engine text = text := by
  unfold reading
  rw [rereadLiteral_plain h, Option.getD_some]

theorem stored_reading {value : Option Text} (h : stored engine value = value) :
    stored engine (value.map (reading engine)) = value.map (reading engine) := by
  by_cases hengine : engine = .mySQL
  · exact if_neg fun h => by rw [hengine] at h; cases h.1
  · rw [show reading engine = id from funext (reading_plain hengine), Option.map_id]
    exact h

theorem stored_letter (engine : SqlEngine) (c : Char) : stored engine (some [c]) = some [c] :=
  if_neg fun h => by cases h.2

/-- A row of the result, with some text in the columns that the result does not have. -/
def shownRow (columns : List Text) (values : List (Option Text)) : Row := fun column =>
  if columns.contains column then cell columns values column else some ['a']

theorem shownRow_mem {values : List (Option Text)}
    (h : column ∈ columns) : shownRow columns values column = cell columns values column :=
  if_pos (contains_iff_mem.mpr h)

theorem shownRow_not_mem {values : List (Option Text)}
    (h : column ∉ columns) : shownRow columns values column = some ['a'] :=
  if_neg (mt contains_iff_mem.mp h)

namespace Possible

variable {values : List (Option Text)}

theorem stored_shownRow (h : edit.Possible values) (column : Text) :
    stored edit.sqlEngine (shownRow edit.columns values column) =
      shownRow edit.columns values column := by
  by_cases hcolumn : column ∈ edit.columns
  · rw [shownRow_mem hcolumn]
    cases hcell : cell edit.columns values column with
    | none => exact if_neg fun h => by cases h.2
    | some value => exact h.2 _ (cell_mem hcell)
  · rw [shownRow_not_mem hcolumn]
    exact stored_letter _ _

theorem notNull_shownRow (h : edit.Possible values) {key : Text} (hkey : key ∈ edit.primaryKeys) :
    shownRow edit.columns values key ≠ none := by
  by_cases hcolumn : key ∈ edit.columns
  · rw [shownRow_mem hcolumn]
    exact h.1 key (mem_keyColumns.mpr ⟨hkey, hcolumn⟩)
  · rw [shownRow_not_mem hcolumn]
    exact Option.some_ne_none _

/-- The row of the result beside another one. -/
def beside (h : edit.Possible values) (other : Row)
    (hstored : ∀ column, Database.stored edit.sqlEngine (other column) = other column)
    (hnotNull : ∀ key ∈ edit.primaryKeys, other key ≠ none) {key : Text}
    (hkey : key ∈ edit.primaryKeys) (hne : shownRow edit.columns values key ≠ other key) :
    Table edit.sqlEngine edit.primaryKeys where
  rows := [shownRow edit.columns values, other]
  equal _ v w := v = w
  equivalence _ := eq_equivalence
  stored := by
    rintro r (_ | ⟨_, _ | ⟨_, hr⟩⟩)
    · exact h.stored_shownRow
    · exact hstored
    · cases hr
  notNull := by
    rintro r (_ | ⟨_, _ | ⟨_, hr⟩⟩)
    · exact fun key hkey => h.notNull_shownRow hkey
    · exact hnotNull
    · cases hr
  unique := by
    refine List.pairwise_pair.mpr fun hsame => hne ?_
    obtain ⟨v, v', hv, hv', rfl⟩ := hsame key hkey
    rw [hv, hv']

end Possible

/-! ## The exact condition -/

theorem holds_reading {value : Option Text} {r : Row}
    (hvalue : value ≠ none) (hr : r column = value.map (reading engine))
    (hstored : stored engine (r column) = r column) :
    ((⟨column, value⟩ : Comparison).read engine).holds engine (fun _ v w => v = w) r := by
  obtain ⟨v, rfl⟩ := Option.ne_none_iff_exists'.mp hvalue
  rw [hr] at hstored
  exact ⟨reading engine v, reading engine v, hr, hstored, rfl⟩

/-- Without the whole key, or when a value of the key is read as another one, some table has another row
that the statement changes. -/
theorem OnlyEdited.identified (honly : edit.OnlyEdited) (hchange : change ∈ edit.changes)
    (h : edit.Edits change original sql) (hclosed : edit.ClosedFor change)
    (hkeys : edit.keyColumns ≠ [] ∧ edit.whereColumns = edit.keyColumns)
    (hcolumns : edit.columns.Nodup) (hpossible : edit.Possible original.val) :
    edit.Identified original.val := by
  have hshown : edit.columns.map (shownRow edit.columns original.val) = original.val := by
    rw [map_congr_left fun column hcolumn => shownRow_mem hcolumn]
    exact map_cell hcolumns original.property
  -- A row that is read as the row of the result has its key.
  have hsame {other : Row}
      (hstored : ∀ column, stored edit.sqlEngine (other column) = other column)
      (hnotNull : ∀ key ∈ edit.primaryKeys, other key ≠ none)
      (hread : ∀ key ∈ edit.keyColumns,
        other key = (cell edit.columns original.val key).map (reading edit.sqlEngine))
      {key : Text} (hkey : key ∈ edit.primaryKeys) :
      shownRow edit.columns original.val key = other key := by
    by_contra hne
    let t := hpossible.beside other hstored hnotNull hkey hne
    have hmatches : t.Matches edit.tableName sql other := by
      rw [h.matches_iff hclosed hkeys]
      intro key hkey
      exact holds_reading (hpossible.1 key hkey) (hread key hkey) (hstored key)
    have heq := honly change hchange original sql h t _ mem_cons_self hshown other
      (mem_cons_of_mem _ mem_cons_self) hmatches
    exact hne (congrFun heq key).symm
  have hreading : ∀ key ∈ edit.primaryKeys, ∀ value,
      cell edit.columns original.val key = some value → reading edit.sqlEngine value = value := by
    intro key hkey value hvalue
    have hcolumn : key ∈ edit.columns := by
      by_contra hcolumn
      rw [cell_not_mem hcolumn] at hvalue
      cases hvalue
    let other : Row := fun column =>
      if edit.columns.contains column then
        (shownRow edit.columns original.val column).map (reading edit.sqlEngine)
      else shownRow edit.columns original.val column
    have hother {column : Text} (hcolumn : column ∈ edit.columns) : other column =
        (shownRow edit.columns original.val column).map (reading edit.sqlEngine) :=
      if_pos (contains_iff_mem.mpr hcolumn)
    have hrow : shownRow edit.columns original.val key = other key :=
      hsame (fun column => ?_) (fun key hkey => ?_) (fun key hkey => ?_) hkey
    · rw [hother hcolumn, shownRow_mem hcolumn, hvalue] at hrow
      exact (Option.some.inj hrow).symm
    · by_cases hcolumn : column ∈ edit.columns
      · rw [hother hcolumn]
        exact stored_reading (hpossible.stored_shownRow column)
      · rw [show other column = _ from if_neg (mt contains_iff_mem.mp hcolumn)]
        exact hpossible.stored_shownRow column
    · by_cases hcolumn : key ∈ edit.columns
      · rw [hother hcolumn]
        exact mt Option.map_eq_none_iff.mp (hpossible.notNull_shownRow hkey)
      · rw [show other key = _ from if_neg (mt contains_iff_mem.mp hcolumn)]
        exact hpossible.notNull_shownRow hkey
    · have hcolumn := (mem_keyColumns.mp hkey).2
      rw [hother hcolumn, shownRow_mem hcolumn]
  refine ⟨fun key hkey => ?_, hreading⟩
  by_contra hcolumn
  let other : Row := fun column =>
    if column = key then some ['b'] else shownRow edit.columns original.val column
  have hother {column : Text} (hne : column ≠ key) :
      other column = shownRow edit.columns original.val column := if_neg hne
  have hself : other key = some ['b'] := if_pos rfl
  have hrow : shownRow edit.columns original.val key = other key :=
    hsame (fun column => ?_) (fun column hprimary => ?_) (fun column hcolumn' => ?_) hkey
  · rw [hself, shownRow_not_mem hcolumn] at hrow
    cases hrow
  · by_cases heq : column = key
    · rw [heq, hself]
      exact stored_letter _ _
    · rw [hother heq]
      exact hpossible.stored_shownRow column
  · by_cases heq : column = key
    · rw [heq, hself]
      exact Option.some_ne_none _
    · rw [hother heq]
      exact hpossible.notNull_shownRow hprimary
  · obtain ⟨hprimary, hmem⟩ := mem_keyColumns.mp hcolumn'
    have hne : column ≠ key := fun heq => hcolumn (heq ▸ hmem)
    rw [hother hne, shownRow_mem hmem]
    cases hcell : cell edit.columns original.val column with
    | none => rfl
    | some value => rw [Option.map_some, hreading column hprimary value hcell]

/-- The statements keep to the rows that were edited exactly when each of them has the whole key, unless
the warning is shown. -/
theorem onlyEdited_iff (edit : GridEdit) (hcolumns : edit.columns.Nodup)
    (hclosed : ∀ change ∈ edit.changes, edit.ClosedFor change) :
    (edit.buildGridChangeStatements.whereUsesAllColumns = false → edit.OnlyEdited) ↔
      (edit.buildGridChangeStatements.whereUsesAllColumns = false →
        ∀ change ∈ edit.changes, ∀ original sql, edit.Edits change original sql →
          edit.Possible original.val → edit.Identified original.val) := by
  refine imp_congr_right fun hflag => ⟨?_, ?_⟩
  · intro honly change hchange original sql h hpossible
    exact honly.identified hchange h (hclosed change hchange) (h.whereColumns hchange hflag) hcolumns
      hpossible
  · intro hidentified change hchange original sql h t r hr hvalues r' hr' hmatches
    have hpossible := Possible.of_row t hr hvalues
    exact (hidentified change hchange original sql h hpossible).eq h (hclosed change hchange)
      (h.whereColumns hchange hflag) t hr hvalues hr' hmatches

/-- Every literal of an engine without escapes is read to its end. -/
theorem closedFor_of_ne (h : edit.sqlEngine ≠ .mySQL) (change : GridRowChange edit.columns) :
    edit.ClosedFor change := by
  have hclosed (text : Text) : Closed edit.sqlEngine text := by
    unfold Closed
    rw [rereadLiteral_plain h, Option.isSome_some]
  exact fun _ _ _ => ⟨fun _ _ value _ => hclosed value, fun _ _ _ value _ => hclosed value⟩

/-- The deletion of a row of the result. -/
def deletion {columns : List Text} (row : RowValues columns) : GridRowChange columns where
  status := .deleted
  values := row
  original := some row

/-- One of two key columns is in the result. -/
def partialKey : GridEdit where
  engine := "PostgreSQL"
  tableName := "t".toList
  columns := ["tenant".toList, "name".toList]
  primaryKeys := ["tenant".toList, "id".toList]
  changes := [deletion ⟨[some "1".toList, some "a".toList], rfl⟩]

theorem partial_key_changes_other_row :
    ¬(partialKey.buildGridChangeStatements.whereUsesAllColumns = false → partialKey.OnlyEdited) := by
  intro h
  have hedits : partialKey.Edits (deletion ⟨[some "1".toList, some "a".toList], rfl⟩)
      ⟨[some "1".toList, some "a".toList], rfl⟩
      "DELETE FROM t WHERE \"tenant\" = '1'".toList := ⟨by decide, rfl, by decide⟩
  have hplain : partialKey.sqlEngine ≠ .mySQL := by decide
  have hclosed := closedFor_of_ne hplain (deletion ⟨[some "1".toList, some "a".toList], rfl⟩)
  have hidentified := (h (by decide)).identified mem_cons_self hedits hclosed
    ⟨by decide, by decide⟩ (by decide) ⟨by decide, by decide⟩
  exact absurd (hidentified.1 "id".toList (by decide)) (by decide)

/-- The whole key is in the result. -/
def wholeKey : GridEdit where
  engine := "PostgreSQL"
  tableName := "t".toList
  columns := ["id".toList, "name".toList]
  primaryKeys := ["id".toList]
  changes := [deletion ⟨[some "1".toList, none], rfl⟩]

theorem onlyEdited_iff_wholeKey : wholeKey.OnlyEdited := by
  have hplain : wholeKey.sqlEngine ≠ .mySQL := by decide
  refine (onlyEdited_iff wholeKey (by decide) fun change _ => closedFor_of_ne hplain change).mpr ?_
    (by decide)
  exact fun _ _ _ _ _ _ _ => ⟨by decide, fun _ _ value _ => reading_plain hplain value⟩

end GridEdit

end Taomni.Database
