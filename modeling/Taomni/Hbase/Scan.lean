import Mathlib.Data.List.Basic
import Mathlib.Order.Nat

/-!
# Scans across regions

A table is a row of regions that share out the keys, and a region server answers a scan in batches. Cells
are reduced to their row and a value.

Reference: `src-tauri/src/hbase/native/client/scan.rs` and `src-tauri/src/hbase/native/region.rs`.
-/

namespace Taomni.Hbase

open List

abbrev Key := List UInt8

structure Cell where
  row : Key
  value : List UInt8
deriving DecidableEq

/-- A row has a cell. -/
structure Row where
  key : Key
  values : List (List UInt8)
  nonempty : values ≠ []

def Row.cells (r : Row) : List Cell := r.values.map fun value => ⟨r.key, value⟩

/-- The cells of some rows, in order. -/
def cellsOf (rows : List Row) : List Cell := rows.flatMap Row.cells

/-! ## Tables -/

/-- `RegionLocation`, with the rows of the region. -/
structure Region where
  startKey : Key
  endKey : Key
  rows : List Row

/-- The empty end key is that of the last region. -/
def Region.contains (r : Region) (key : Key) : Bool :=
  (r.startKey.isEmpty || r.startKey ≤ key) && (r.endKey.isEmpty || key < r.endKey)

/-- Regions that share out the keys from one key on. -/
def Partition (start : Key) : List Region → Prop
  | [] => False
  | [r] => r.startKey = start ∧ r.endKey = []
  | r :: rest => r.startKey = start ∧ start < r.endKey ∧ Partition r.endKey rest

structure Table where
  regions : List Region
  partition : Partition [] regions
  rows : ∀ r ∈ regions, ∀ row ∈ r.rows, r.contains row.key
  ordered : ∀ r ∈ regions, (r.rows.map Row.key).Pairwise (· < ·)

/-- `locate_region`. -/
def Table.locateRegion (t : Table) (key : Key) : Option Region := t.regions.find? (·.contains key)

/-! ## One region -/

def inRange (start : Key) (stop : Option Key) (row : Row) : Bool :=
  start ≤ row.key && stop.all (row.key < ·)

/-- A response of a region server, which has some rows left: at most as many as are requested, and
whether more remain. -/
structure Response where
  results : List (List Cell)
  moreResultsInRegion : Bool

/-- The server chooses how many rows it puts into a response. -/
def respond (rows : List Row) (size numberOfRows : ℕ) : Response × List Row :=
  let n := min size numberOfRows
  (⟨(rows.take n).map Row.cells, !(rows.drop n).isEmpty⟩, rows.drop n)

/-- `parse_scan_batch`. The key of a row is that of its first cell. -/
def parseScanBatch (response : Response) : List (Key × List Cell) :=
  response.results.map fun cells => ((cells.head?.map Cell.row).getD [], cells)

/-- The loop of `scan_once`, with the responses that are left to it. -/
def pull (numberOfRows : ℕ) (sizes : ℕ → ℕ) :
    ℕ → List (Key × List Cell) → Bool → List Row → List (Key × List Cell)
  | 0, rows, _, _ => rows
  | guard + 1, rows, more, left =>
    if more && rows.length < numberOfRows then
      let (batch, left) := respond left (sizes guard) (numberOfRows - rows.length)
      let parsed := parseScanBatch batch
      if parsed.isEmpty && !batch.moreResultsInRegion then rows
      else pull numberOfRows sizes guard (rows ++ parsed) batch.moreResultsInRegion left
    else rows

/-- `scan_once`. The server has `rows`, and `sizes` are the sizes of its responses by the rounds that are
left after them. -/
def scanOnce (rows : List Row) (numberOfRows : ℕ) (sizes : ℕ → ℕ) : List (Key × List Cell) :=
  let (first, left) := respond rows (sizes 10000) numberOfRows
  pull numberOfRows sizes 10000 (parseScanBatch first) first.moreResultsInRegion left

/-! ## The walk -/

/-- The inner loop over the cells of a row. -/
def pushCells (limit : ℕ) (out : List Cell) : List Cell → List Cell
  | [] => out
  | c :: cells =>
    if limit ≤ (out ++ [c]).length then out ++ [c] else pushCells limit (out ++ [c]) cells

/-- The loop over the rows. Its end is not that of the inner loop. -/
def pushRows (limit : ℕ) (out : List Cell) (rows : List (Key × List Cell)) : List Cell :=
  rows.foldl (fun out row => pushCells limit out row.2) out

/-- The loop over the regions, with the rounds that are left to it. -/
def walk (t : Table) (stop : Option Key) (limit : ℕ) (sizes : ℕ → ℕ → ℕ) :
    ℕ → List Cell → Key → Except String (List Cell)
  | 0, out, _ => .ok out
  | fuel + 1, out, next =>
    if limit ≤ out.length then .ok out
    else
      match t.locateRegion next with
      | none => .error "no meta entry"
      | some region =>
        let remaining := limit - out.length
        let rows :=
          scanOnce (region.rows.filter (inRange next stop)) (min remaining 1000) (sizes fuel)
        let out := pushRows limit out rows
        if region.endKey.isEmpty then .ok out
        else if stop.any (· ≤ region.endKey) then .ok out
        else walk t stop limit sizes fuel out region.endKey

/-- `scan`. The servers put `sizes` many rows into their responses. -/
def scan (t : Table) (limit : ℕ) (startRow stopRow : Option Key) (sizes : ℕ → ℕ → ℕ) :
    Except String (List Cell) :=
  walk t stopRow limit sizes 10000 [] (startRow.getD [])

/-- The cells that a scan is to return. -/
def Table.firstCells (t : Table) (limit : ℕ) (startRow stopRow : Option Key) : List Cell :=
  (cellsOf ((t.regions.flatMap Region.rows).filter (inRange (startRow.getD []) stopRow))).take limit

/-!
# What one region adds to a scan

Reference: `src-tauri/src/hbase/native/client/scan.rs`.
-/

/-! ## Batches -/

/-- Rows as the client reads them. -/
def served (rows : List Row) : List (Key × List Cell) := rows.map fun r => (r.key, r.cells)

/-- The sizes of the last responses together. -/
def total (sizes : ℕ → ℕ) : ℕ → ℕ
  | 0 => 0
  | n + 1 => sizes n + total sizes n

theorem parseScanBatch_cells (rows : List Row) (more : Bool) :
    parseScanBatch ⟨rows.map Row.cells, more⟩ = served rows := by
  unfold parseScanBatch served
  rw [map_map]
  refine map_congr_left fun r _ => Prod.ext ?_ rfl
  obtain ⟨value, values, hvalues⟩ := exists_cons_of_ne_nil r.nonempty
  show ((r.values.map _).head?.map Cell.row).getD [] = r.key
  rw [hvalues]
  rfl

/-- A batch, and what the rest of the batches take of the rest. -/
theorem take_append_batches (rows : List Row) (n size rest : ℕ) : rows.take (min size n) ++
        (rows.drop (min size n)).take (min (n - (rows.take (min size n)).length) rest) =
      rows.take (min n (size + rest)) := by
  rcases le_or_gt (min size n) rows.length with hlen | hlen
  · rw [← take_add, length_take, min_eq_left hlen]
    congr 1
    omega
  · rw [take_of_length_le hlen.le, drop_eq_nil_of_le hlen.le, take_nil,
      append_nil, take_of_length_le]
    omega

theorem pull_eq (numberOfRows : ℕ) (sizes : ℕ → ℕ) (guard : ℕ) {got left : List Row}
    (h : got.length ≤ numberOfRows) : pull numberOfRows sizes guard (served got) (!left.isEmpty) left =
      served (got ++ left.take (min (numberOfRows - got.length) (total sizes guard))) := by
  have hlength (rows : List Row) : (served rows).length = rows.length := length_map _
  induction guard generalizing got left with
  | zero => rw [pull, total, Nat.min_zero, take_zero, append_nil]
  | succ guard ih =>
    rw [pull, hlength]
    split
    · rename_i hmore
      rw [Bool.and_eq_true, Bool.not_eq_true', decide_eq_true_eq] at hmore
      obtain ⟨hleft, hlt⟩ := hmore
      unfold respond
      dsimp only
      rw [parseScanBatch_cells]
      obtain ⟨n, hn⟩ : ∃ n, n = min (sizes guard) (numberOfRows - got.length) := ⟨_, rfl⟩
      rw [← hn]
      split
      · -- An empty batch leaves rows behind.
        rename_i hlast
        rw [Bool.and_eq_true, Bool.not_not, List.isEmpty_iff, List.isEmpty_iff] at hlast
        have hnil : left = [] := by
          rw [← take_append_drop n left, hlast.2, map_eq_nil_iff.mp hlast.1, append_nil]
        rw [hnil] at hleft
        cases hleft
      · have hserved : served got ++ served (left.take n) = served (got ++ left.take n) :=
          map_append.symm
        have hle : (got ++ left.take n).length ≤ numberOfRows := by
          rw [length_append, length_take]
          omega
        rw [hserved, ih hle, append_assoc, length_append, Nat.sub_add_eq, hn,
          take_append_batches]
        rfl
    · rename_i hmore
      rw [Bool.and_eq_true, Bool.not_eq_true', decide_eq_true_eq, not_and_or] at hmore
      rcases hmore with hleft | hfull
      · rw [Bool.not_eq_false, List.isEmpty_iff] at hleft
        rw [hleft, take_nil, append_nil]
      · rw [Nat.sub_eq_zero_of_le (Nat.not_lt.mp hfull), Nat.zero_min, take_zero,
          append_nil]

/-- A region gives as many rows as are asked for, as it has, and as its responses hold. -/
theorem scanOnce_eq (rows : List Row) (numberOfRows : ℕ) (sizes : ℕ → ℕ) :
    scanOnce rows numberOfRows sizes = served (rows.take (min numberOfRows (total sizes 10001))) := by
  have hle : (rows.take (min (sizes 10000) numberOfRows)).length ≤ numberOfRows := by
    rw [length_take]
    omega
  unfold scanOnce respond
  dsimp only
  rw [parseScanBatch_cells, pull_eq numberOfRows sizes 10000 hle, take_append_batches]
  rfl

/-! ## Cells -/

theorem cellsOf_append (rows rows' : List Row) :
    cellsOf (rows ++ rows') = cellsOf rows ++ cellsOf rows' :=
  flatMap_append

theorem cells_ne_nil (r : Row) : r.cells ≠ [] := mt map_eq_nil_iff.mp r.nonempty

variable {rows : List Row}

theorem cellsOf_eq_nil : cellsOf rows = [] ↔ rows = [] := by
  unfold cellsOf
  rw [flatMap_eq_nil_iff]
  constructor
  · intro h
    refine eq_nil_iff_forall_not_mem.mpr fun r hr => cells_ne_nil r (h r hr)
  · rintro rfl r hr
    cases hr

theorem row_of_mem_cells {r : Row} {c : Cell} (h : c ∈ r.cells) : c.row = r.key := by
  obtain ⟨value, -, rfl⟩ := mem_map.mp h
  rfl

theorem mem_cellsOf {c : Cell} (h : c ∈ cellsOf rows) : ∃ r ∈ rows, c.row = r.key := by
  obtain ⟨r, hr, hc⟩ := mem_flatMap.mp h
  exact ⟨r, hr, row_of_mem_cells hc⟩

/-! ## Pushing cells -/

variable {out : List Cell}

theorem pushCells_of_lt {limit : ℕ} (cells : List Cell) (h : out.length < limit) :
    pushCells limit out cells = out ++ cells.take (limit - out.length) := by
  induction cells generalizing out with
  | nil => rw [pushCells, take_nil, append_nil]
  | cons c cells ih =>
    have hlength : (out ++ [c]).length = out.length + 1 := by
      rw [length_append, length_singleton]
    obtain ⟨n, hn⟩ : ∃ n, limit - out.length = n + 1 :=
      Nat.exists_eq_succ_of_ne_zero (Nat.sub_ne_zero_of_lt h)
    rw [pushCells, hn, take_succ_cons]
    split
    · have hzero : n = 0 := by omega
      rw [hzero, take_zero]
    · rw [ih (by omega), hlength, append_assoc, singleton_append,
        show limit - (out.length + 1) = n by omega]

/-- Some of the cells are added, and a row adds one even when the limit has been reached. -/
theorem pushCells_extends (limit : ℕ) (out cells : List Cell) :
    ∃ n, pushCells limit out cells = out ++ cells.take n ∧ (cells ≠ [] → 0 < n) := by
  induction cells generalizing out with
  | nil => exact ⟨0, by rw [pushCells, take_nil, append_nil], fun h => absurd rfl h⟩
  | cons c cells ih =>
    rw [pushCells]
    split
    · exact ⟨1, rfl, fun _ => Nat.one_pos⟩
    · obtain ⟨n, hn, -⟩ := ih (out ++ [c])
      refine ⟨n + 1, ?_, fun _ => Nat.succ_pos n⟩
      rw [hn, append_assoc, singleton_append, take_succ_cons]

theorem length_lt_pushCells (limit : ℕ) (out : List Cell) {cells : List Cell} (h : cells ≠ []) :
    out.length < (pushCells limit out cells).length := by
  obtain ⟨n, hn, hpos⟩ := pushCells_extends limit out cells
  have hn' := hpos h
  have hcells := length_pos_iff.mpr h
  rw [hn, length_append, length_take]
  omega

/-! ## Pushing rows -/

variable {limit : ℕ}

theorem pushRows_append (out : List Cell) (rows rows' : List Row) :
    pushRows limit out (served (rows ++ rows')) =
      pushRows limit (pushRows limit out (served rows)) (served rows') := by
  unfold pushRows served
  rw [map_append, foldl_append]

theorem pushRows_cons (out : List Cell) (r : Row) (rows : List Row) :
    pushRows limit out (served (r :: rows)) =
      pushRows limit (pushCells limit out r.cells) (served rows) :=
  rfl

theorem pushRows_singleton (out : List Cell) (r : Row) :
    pushRows limit out (served [r]) = pushCells limit out r.cells :=
  rfl

theorem pushRows_extends (limit : ℕ) (out : List Cell) (rows : List Row) :
    ∃ more, pushRows limit out (served rows) = out ++ more ∧ ∀ c ∈ more, c ∈ cellsOf rows := by
  induction rows generalizing out with
  | nil => exact ⟨[], (append_nil out).symm, fun _ hc => absurd hc not_mem_nil⟩
  | cons r rows ih =>
    obtain ⟨n, hn, -⟩ := pushCells_extends limit out r.cells
    obtain ⟨more, hmore, hmem⟩ := ih (out ++ r.cells.take n)
    refine ⟨r.cells.take n ++ more, ?_, fun c hc => ?_⟩
    · rw [pushRows_cons, hn, hmore, append_assoc]
    · refine mem_flatMap.mpr ?_
      rcases mem_append.mp hc with hc | hc
      · exact ⟨r, mem_cons_self, mem_of_mem_take hc⟩
      · obtain ⟨r', hr', hc⟩ := mem_flatMap.mp (hmem c hc)
        exact ⟨r', mem_cons_of_mem _ hr', hc⟩

/-- Rows that fit are pushed whole. -/
theorem pushRows_of_le (h : out.length + (cellsOf rows).length ≤ limit) :
    pushRows limit out (served rows) = out ++ cellsOf rows := by
  induction rows generalizing out with
  | nil => exact (append_nil out).symm
  | cons r rows ih =>
    have hcells : cellsOf (r :: rows) = r.cells ++ cellsOf rows := flatMap_cons
    have hpos := length_pos_iff.mpr (cells_ne_nil r)
    rw [hcells, length_append] at h
    rw [pushRows_cons, pushCells_of_lt _ (by omega), take_of_length_le (by omega), ih, hcells,
      append_assoc]
    rw [length_append]
    omega

/-- When the limit is reached in the last row, the cells are cut there. -/
theorem pushRows_of_dropLast_lt (h : out.length + (cellsOf rows.dropLast).length < limit) :
    pushRows limit out (served rows) = out ++ (cellsOf rows).take (limit - out.length) := by
  rcases eq_nil_or_concat rows with rfl | ⟨first, last, rfl⟩
  · show out = out ++ [].take _
    rw [take_nil, append_nil]
  · rw [concat_eq_append] at h ⊢
    rw [dropLast_concat] at h
    have hlast : cellsOf [last] = last.cells := flatMap_singleton _ _
    have hfirst : (cellsOf first).take (limit - out.length) = cellsOf first :=
      take_of_length_le (by omega)
    rw [pushRows_append, pushRows_of_le (Nat.le_of_lt h), pushRows_singleton,
      pushCells_of_lt _ (by rw [length_append]; exact h), cellsOf_append, hlast,
      take_append, hfirst, append_assoc, length_append, Nat.sub_add_eq]

theorem le_length_pushRows (limit : ℕ) (out : List Cell) (rows : List Row) :
    min limit (out.length + (cellsOf rows).length) ≤ (pushRows limit out (served rows)).length := by
  induction rows generalizing out with
  | nil => exact min_le_right _ _
  | cons r rows ih =>
    have hcells : cellsOf (r :: rows) = r.cells ++ cellsOf rows := flatMap_cons
    have hrest := ih (pushCells limit out r.cells)
    have hrow : min limit (out.length + r.cells.length) ≤ (pushCells limit out r.cells).length := by
      rcases lt_or_ge out.length limit with hlt | hle
      · rw [pushCells_of_lt _ hlt, length_append, length_take]
        omega
      · exact (min_le_left _ _).trans (hle.trans (length_lt_pushCells limit out (cells_ne_nil r)).le)
    rw [pushRows_cons, hcells, length_append]
    omega

/-- When the limit is reached before the last row, that row adds a cell all the same. -/
theorem limit_lt_pushRows (hne : rows ≠ []) (h : limit ≤ out.length + (cellsOf rows.dropLast).length) :
    limit < (pushRows limit out (served rows)).length := by
  rcases eq_nil_or_concat rows with rfl | ⟨first, last, rfl⟩
  · exact absurd rfl hne
  · rw [concat_eq_append] at h ⊢
    rw [dropLast_concat] at h
    have hfirst := le_length_pushRows limit out first
    rw [min_eq_left h] at hfirst
    rw [pushRows_append, pushRows_singleton]
    exact hfirst.trans_lt (length_lt_pushCells _ _ (cells_ne_nil last))

end Taomni.Hbase
