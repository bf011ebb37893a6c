import Taomni.Hbase.Scan

/-!
# What a scan returns

Reference: `src-tauri/src/hbase/native/client/scan.rs`.
-/

namespace Taomni.Hbase

open List

/-! ## Keys -/

theorem key_le_trans {a b c : Key} (h : a ≤ b) (h' : b ≤ c) : a ≤ c := Std.le_trans h h'

theorem key_not_lt {a b : Key} : ¬a < b ↔ b ≤ a := Std.not_lt

theorem nil_le (a : Key) : [] ≤ a := key_not_lt.mp (not_lt_nil a)

theorem contains_iff {r : Region} {key : Key} : r.contains key = true ↔
    r.startKey ≤ key ∧ (r.endKey = [] ∨ key < r.endKey) := by
  unfold Region.contains
  rw [Bool.and_eq_true, Bool.or_eq_true, Bool.or_eq_true, List.isEmpty_iff, List.isEmpty_iff,
    decide_eq_true_eq, decide_eq_true_eq]
  refine and_congr_left fun _ => or_iff_right_of_imp fun h => ?_
  rw [h]
  exact nil_le key

theorem inRange_iff {start : Key} {stop : Option Key} {row : Row} : inRange start stop row = true ↔
    start ≤ row.key ∧ ∀ s ∈ stop, row.key < s := by
  unfold inRange
  rw [Bool.and_eq_true, decide_eq_true_eq, Option.all_eq_true]
  simp only [decide_eq_true_eq, Option.mem_def]

theorem walk_extends (t : Table) (stop : Option Key) (limit : ℕ) (sizes : ℕ → ℕ → ℕ) :
    ∀ (fuel : ℕ) {out result : List Cell} {next : Key},
      walk t stop limit sizes fuel out next = .ok result →
      ∃ more, result = out ++ more ∧ ∀ c ∈ more, next ≤ c.row := by
  intro fuel
  induction fuel with
  | zero =>
    intro out result next h
    obtain rfl := Except.ok.inj h
    exact ⟨[], (append_nil _).symm, fun _ hc => absurd hc not_mem_nil⟩
  | succ fuel ih =>
    intro out result next h
    rw [walk] at h
    split at h
    · obtain rfl := Except.ok.inj h
      exact ⟨[], (append_nil _).symm, fun _ hc => absurd hc not_mem_nil⟩
    · split at h
      · cases h
      · rename_i region hregion
        dsimp only at h
        rw [scanOnce_eq] at h
        obtain ⟨more, hmore, hmem⟩ := pushRows_extends limit out
          ((region.rows.filter (inRange next stop)).take
            (min (min (limit - out.length) 1000) (total (sizes fuel) 10001)))
        rw [hmore] at h
        have hrows : ∀ c ∈ more, next ≤ c.row := by
          intro c hc
          obtain ⟨r, hr, hrow⟩ := mem_cellsOf (hmem c hc)
          rw [hrow]
          exact (inRange_iff.mp (mem_filter.mp (mem_of_mem_take hr)).2).1
        split at h
        · obtain rfl := Except.ok.inj h
          exact ⟨more, rfl, hrows⟩
        · split at h
          · obtain rfl := Except.ok.inj h
            exact ⟨more, rfl, hrows⟩
          · rename_i hend _
            obtain ⟨rest, rfl, hrest⟩ := ih h
            have hfound : region.contains next = true := by
              unfold Table.locateRegion at hregion
              exact find?_some (p := fun r : Region => r.contains next) hregion
            have hcontains := contains_iff.mp hfound
            have hlt : next < region.endKey := hcontains.2.resolve_left fun hnil =>
              hend (List.isEmpty_iff.mpr hnil)
            refine ⟨more ++ rest, append_assoc _ _ _, fun c hc => ?_⟩
            rcases mem_append.mp hc with hc | hc
            · exact hrows c hc
            · exact key_le_trans (Std.le_of_lt hlt) (hrest c hc)

/-! ## Partitions -/

theorem Partition.startKey {start : Key} {r : Region} {rest : List Region}
    (h : Partition start (r :: rest)) : r.startKey = start := by
  cases rest <;> exact h.1

variable {regions : List Region}

/-- The region of a key, and the regions before it. -/
theorem Partition.split {start : Key} (h : Partition start regions) {key : Key} (hkey : start ≤ key) :
    ∃ before r rest, regions = before ++ r :: rest ∧ r.contains key = true ∧
      Partition r.startKey (r :: rest) ∧ ∀ p ∈ before, p.endKey ≠ [] ∧ p.endKey ≤ key := by
  induction regions generalizing start with
  | nil => exact h.elim
  | cons r rest ih =>
    have hstart := h.startKey
    by_cases hcontains : r.contains key = true
    · exact ⟨[], r, rest, rfl, hcontains, hstart ▸ h, fun _ hp => absurd hp not_mem_nil⟩
    · rw [contains_iff, hstart, not_and_or, not_or, key_not_lt] at hcontains
      obtain ⟨hnil, hle⟩ := hcontains.resolve_left (not_not_intro hkey)
      cases rest with
      | nil => exact absurd h.2 hnil
      | cons r' rest =>
        obtain ⟨before, r'', rest', heq, hr'', hpartition, hbefore⟩ := ih h.2.2 hle
        refine ⟨r :: before, r'', rest', by rw [heq, cons_append], hr'', hpartition, ?_⟩
        intro p hp
        rcases mem_cons.mp hp with rfl | hp
        · exact ⟨hnil, hle⟩
        · exact hbefore p hp

/-- Regions that end before a key do not contain it. -/
theorem find?_region {before rest : List Region} {r : Region} {key : Key}
    (hbefore : ∀ p ∈ before, p.endKey ≠ [] ∧ p.endKey ≤ key) (hr : r.contains key = true) :
    (before ++ r :: rest).find? (·.contains key) = some r := by
  have hself : (r :: rest).find? (·.contains key) = some r := find?_cons_of_pos hr
  have hnone : before.find? (·.contains key) = none := List.find?_eq_none.mpr fun p hp hcontains => by
    obtain ⟨hnil, hle⟩ := hbefore p hp
    exact key_not_lt.mpr hle ((contains_iff.mp hcontains).2.resolve_left hnil)
  rw [find?_append, hnone, Option.none_or, hself]

theorem Partition.le_of_mem {start : Key} (h : Partition start regions)
    {r : Region} (hr : r ∈ regions) : start ≤ r.startKey := by
  induction regions generalizing start with
  | nil => cases hr
  | cons r' rest ih =>
    rcases mem_cons.mp hr with rfl | hr
    · exact Std.le_of_eq h.startKey.symm
    · cases rest with
      | nil => cases hr
      | cons r'' rest => exact key_le_trans (Std.le_of_lt h.2.1) (ih h.2.2 hr)

/-! ## The exact condition -/

/-- The rows of some regions that are in the range. -/
def rowsInRange (start : Key) (stop : Option Key) (regions : List Region) : List Row :=
  (regions.flatMap Region.rows).filter (inRange start stop)

theorem rowsInRange_cons (start : Key) (stop : Option Key) (r : Region) (rest : List Region) :
    rowsInRange start stop (r :: rest) =
      r.rows.filter (inRange start stop) ++ rowsInRange start stop rest := by
  unfold rowsInRange
  rw [flatMap_cons, filter_append]

/-- The rows that a region gives: as many as cells are wanted but at most 1000, and as its responses
hold. -/
def given (sizes : ℕ → ℕ) (wanted : ℕ) (rows : List Row) : List Row :=
  rows.take (min (min wanted 1000) (total sizes 10001))

/-- Only the last row that a region gives may reach the limit, and when it is not reached the region
gives all its rows. -/
def Suffices (sizes : ℕ → ℕ) (wanted : ℕ) (rows : List Row) : Prop :=
  (cellsOf (given sizes wanted rows).dropLast).length < wanted ∧
    ((cellsOf (given sizes wanted rows)).length < wanted → given sizes wanted rows = rows)

/-- While cells are wanted, a region with rows in the range is visited, and what it gives suffices. -/
def Fits (start : Key) (stop : Option Key) (sizes : ℕ → ℕ → ℕ) : ℕ → ℕ → List Region → Prop
  | _, _, [] => True
  | fuel, wanted, r :: rest =>
    let rows := r.rows.filter (inRange start stop)
    (0 < wanted → rows ≠ [] → 0 < fuel ∧ Suffices (sizes (fuel - 1)) wanted rows) ∧
      Fits start stop sizes (fuel - 1) (wanted - (cellsOf rows).length) rest

variable {start : Key} {stop : Option Key} {sizes : ℕ → ℕ → ℕ}

theorem fits_zero (fuel : ℕ) (regions : List Region) : Fits start stop sizes fuel 0 regions := by
  induction regions generalizing fuel with
  | nil => trivial
  | cons r rest ih =>
    refine ⟨fun h => absurd h (Nat.lt_irrefl 0), ?_⟩
    rw [Nat.zero_sub]
    exact ih (fuel - 1)

theorem fits_of_empty (h : rowsInRange start stop regions = [])
    (fuel wanted : ℕ) : Fits start stop sizes fuel wanted regions := by
  induction regions generalizing fuel wanted with
  | nil => trivial
  | cons r rest ih =>
    rw [rowsInRange_cons, append_eq_nil_iff] at h
    exact ⟨fun _ hne => absurd h.1 hne, ih h.2 _ _⟩

theorem fits_zero_fuel {wanted : ℕ} (hwanted : 0 < wanted) :
    Fits start stop sizes 0 wanted regions ↔ rowsInRange start stop regions = [] := by
  refine ⟨fun h => ?_, fun h => fits_of_empty h 0 wanted⟩
  induction regions with
  | nil => rfl
  | cons r rest ih =>
    obtain ⟨hr, hrest⟩ := h
    have hempty : r.rows.filter (inRange start stop) = [] := by
      by_contra hne
      exact Nat.lt_irrefl 0 (hr hwanted hne).1
    rw [rowsInRange_cons, hempty, nil_append]
    rw [hempty] at hrest
    exact ih hrest

theorem suffices_nil (sizes : ℕ → ℕ) {wanted : ℕ} (h : 0 < wanted) : Suffices sizes wanted [] := by
  unfold Suffices given
  rw [take_nil]
  exact ⟨h, fun _ => rfl⟩

theorem given_prefix (sizes : ℕ → ℕ) (wanted : ℕ) (rows : List Row) :
    ∃ rest, rows = given sizes wanted rows ++ rest :=
  ⟨_, (take_append_drop _ rows).symm⟩

theorem given_full {sizes : ℕ → ℕ} {wanted : ℕ} {rows : List Row} (others : List Row)
    (h : wanted ≤ (cellsOf (given sizes wanted rows)).length) :
    (cellsOf (rows ++ others)).take wanted = (cellsOf (given sizes wanted rows)).take wanted ∧
      wanted ≤ (cellsOf rows).length := by
  obtain ⟨rest, hrest⟩ := given_prefix sizes wanted rows
  generalize given sizes wanted rows = g at h hrest
  rw [hrest, append_assoc, cellsOf_append, cellsOf_append g rest, length_append]
  exact ⟨take_append_of_le_length h, Nat.le_add_right_of_le h⟩

variable {out : List Cell} {limit : ℕ}

theorem walk_full (t : Table) (h : limit ≤ out.length) (fuel : ℕ)
    (next : Key) : walk t stop limit sizes fuel out next = .ok out := by
  cases fuel with
  | zero => rfl
  | succ fuel => rw [walk, if_pos h]

/-- What follows a region that has been read: the end of the walk, or the next region. -/
def walkOn (t : Table) (stop : Option Key) (limit : ℕ) (sizes : ℕ → ℕ → ℕ) (fuel : ℕ) (r : Region)
    (out : List Cell) : Except String (List Cell) :=
  if r.endKey.isEmpty then .ok out
  else if stop.any (· ≤ r.endKey) then .ok out else walk t stop limit sizes fuel out r.endKey

variable {fuel : ℕ}

theorem walk_region (t : Table) {next : Key} {r : Region}
    (hlt : out.length < limit) (hr : t.locateRegion next = some r)
    (hrows : r.rows.filter (inRange next stop) = r.rows.filter (inRange start stop)) :
    walk t stop limit sizes (fuel + 1) out next = walkOn t stop limit sizes fuel r
      (pushRows limit out (served (given (sizes fuel) (limit - out.length)
        (r.rows.filter (inRange start stop))))) := by
  rw [walk, if_neg (Nat.not_le.mpr hlt), hr]
  dsimp only
  rw [scanOnce_eq, hrows]
  rfl

theorem walkOn_full (t : Table) (h : limit ≤ out.length) (fuel : ℕ)
    (r : Region) : walkOn t stop limit sizes fuel r out = .ok out := by
  unfold walkOn
  rw [walk_full t h]
  split
  · rfl
  · split <;> rfl

theorem walkOn_extends (t : Table) {result : List Cell} {r : Region}
    (h : walkOn t stop limit sizes fuel r out = .ok result) :
    ∃ more, result = out ++ more ∧ ∀ c ∈ more, r.endKey ≠ [] ∧ r.endKey ≤ c.row := by
  have hnone : ∃ more, out = out ++ more ∧ ∀ c ∈ more, r.endKey ≠ [] ∧ r.endKey ≤ c.row :=
    ⟨[], (append_nil _).symm, fun _ hc => absurd hc not_mem_nil⟩
  unfold walkOn at h
  split at h
  · obtain rfl := Except.ok.inj h
    exact hnone
  · split at h
    · obtain rfl := Except.ok.inj h
      exact hnone
    · rename_i hend _
      obtain ⟨more, hmore, hrow⟩ := walk_extends t stop limit sizes fuel h
      exact ⟨more, hmore, fun c hc => ⟨mt List.isEmpty_iff.mpr hend, hrow c hc⟩⟩

/-- A region that does not suffice spoils the result. -/
theorem walkOn_ne (t : Table) {r : Region}
    (hrows : ∀ row ∈ r.rows, r.contains row.key) (hlt : out.length < limit) (others : List Row)
    (h : ¬Suffices (sizes fuel) (limit - out.length) (r.rows.filter (inRange start stop))) :
    walkOn t stop limit sizes fuel r (pushRows limit out (served (given (sizes fuel) (limit - out.length)
          (r.rows.filter (inRange start stop))))) ≠
      .ok (out ++ (cellsOf (r.rows.filter (inRange start stop) ++ others)).take
        (limit - out.length)) := by
  intro hresult
  unfold Suffices at h
  obtain ⟨rest, hrest⟩ := given_prefix (sizes fuel) (limit - out.length)
    (r.rows.filter (inRange start stop))
  generalize given (sizes fuel) (limit - out.length) (r.rows.filter (inRange start stop)) = f
    at h hrest hresult
  rcases Nat.lt_or_ge (cellsOf f.dropLast).length (limit - out.length) with hdrop | hover
  · -- Rows are left behind, and nothing after them has their keys.
    rw [not_and, Classical.not_imp] at h
    obtain ⟨hfew, hne⟩ := h hdrop
    rw [pushRows_of_le (by omega)] at hresult
    obtain ⟨more, hmore, hend⟩ := walkOn_extends t hresult
    rw [hrest, append_assoc, cellsOf_append, take_append, ← append_assoc,
      take_of_length_le hfew.le, append_cancel_left_eq] at hmore
    cases rest with
    | nil => exact hne (by rw [hrest, append_nil])
    | cons row rest =>
      have hmem : row ∈ r.rows.filter (inRange start stop) := by
        rw [hrest]
        exact mem_append_right _ mem_cons_self
      have hrow := (mem_filter.mp hmem).1
      obtain ⟨value, values, hvalues⟩ := exists_cons_of_ne_nil row.nonempty
      have hcells : cellsOf (row :: rest ++ others) =
          ⟨row.key, value⟩ ::
            (values.map (fun value => ⟨row.key, value⟩) ++ cellsOf (rest ++ others)) := by
        rw [cons_append]
        show row.cells ++ _ = _
        unfold Row.cells
        rw [hvalues]
        rfl
      have hmore' : (⟨row.key, value⟩ : Cell) ∈ more := by
        rw [← hmore, hcells]
        obtain ⟨n, hn⟩ : ∃ n, limit - out.length - (cellsOf f).length = n + 1 :=
          Nat.exists_eq_succ_of_ne_zero (by omega)
        rw [hn, take_succ_cons]
        exact mem_cons_self
      obtain ⟨hnil, hle⟩ := hend _ hmore'
      exact key_not_lt.mpr hle ((contains_iff.mp (hrows row hrow)).2.resolve_left hnil)
  · -- A row after the one that reaches the limit adds a cell.
    have hne : f ≠ [] := by
      rintro rfl
      exact absurd hover (by show ¬_ ≤ 0; omega)
    have hlength : limit < (pushRows limit out (served f)).length :=
      limit_lt_pushRows hne (by omega)
    rw [walkOn_full t hlength.le] at hresult
    rw [Except.ok.inj hresult, length_append, length_take] at hlength
    omega

/-- After the last region that the range meets there are no rows of it. -/
theorem rowsInRange_rest {r : Region} {rest : List Region} (h : Partition r.startKey (r :: rest))
    (hrows : ∀ r ∈ rest, ∀ row ∈ r.rows, r.contains row.key)
    (hend : r.endKey = [] ∨ ∃ s ∈ stop, s ≤ r.endKey) : rowsInRange start stop rest = [] := by
  cases rest with
  | nil => rfl
  | cons r' rest =>
    obtain ⟨-, hlt, hrest⟩ := h
    rcases hend with hend | ⟨s, hs, hle⟩
    · rw [hend] at hlt
      exact absurd hlt (not_lt_nil _)
    · unfold rowsInRange
      refine filter_eq_nil_iff.mpr fun row hrow hin => ?_
      obtain ⟨r'', hr'', hmem⟩ := mem_flatMap.mp hrow
      have hkey : r.endKey ≤ row.key :=
        key_le_trans (hrest.le_of_mem hr'') (contains_iff.mp (hrows r'' hr'' row hmem)).1
      exact key_not_lt.mpr (key_le_trans hle hkey) ((inRange_iff.mp hin).2 s hs)

/-- The rows of a region that starts at a key are all from that key on. -/
theorem filter_inRange {r : Region} (hrows : ∀ row ∈ r.rows, r.contains row.key)
    {start next : Key} (hstart : start ≤ next) (hnext : next ≤ r.startKey) :
    r.rows.filter (inRange next stop) = r.rows.filter (inRange start stop) := by
  refine filter_congr fun row hrow => Bool.eq_iff_iff.mpr ?_
  have hkey : next ≤ row.key := key_le_trans hnext (contains_iff.mp (hrows row hrow)).1
  rw [inRange_iff, inRange_iff]
  exact and_congr_left fun _ => ⟨fun _ => key_le_trans hstart hkey, fun _ => hkey⟩

/-! ## The walk gives the first cells -/

/-- The walk is to read the region `r` from `next` on, and the regions after it. -/
structure Reading (t : Table) (start : Key) (stop : Option Key) (next : Key) (before : List Region)
    (r : Region) (rest : List Region) : Prop where
  regions : t.regions = before ++ r :: rest
  before_le : ∀ p ∈ before, p.endKey ≠ [] ∧ p.endKey ≤ next
  partition : Partition r.startKey (r :: rest)
  contains : r.contains next = true
  start_le : start ≤ next
  filter : r.rows.filter (inRange next stop) = r.rows.filter (inRange start stop)

variable {t : Table} {next : Key} {before rest : List Region} {r r' : Region}

theorem Reading.rows (h : Reading t start stop next before r rest) :
    ∀ r' ∈ r :: rest, ∀ row ∈ r'.rows, r'.contains row.key = true := fun r' hr' =>
  t.rows r' (h.regions ▸ mem_append_right before hr')

theorem Reading.locateRegion (h : Reading t start stop next before r rest) :
    t.locateRegion next = some r := by
  unfold Table.locateRegion
  rw [h.regions]
  exact find?_region h.before_le h.contains

theorem Reading.advance (h : Reading t start stop next before r (r' :: rest)) :
    Reading t start stop r.endKey (before ++ [r]) r' rest := by
  obtain ⟨-, hlt, hrest⟩ := h.partition
  have hnil : r.endKey ≠ [] := fun hnil => not_lt_nil _ (hnil ▸ hlt)
  have hle : next < r.endKey := (contains_iff.mp h.contains).2.resolve_left hnil
  have hstart : r'.startKey = r.endKey := hrest.startKey
  have hstart_le : start ≤ r.endKey := key_le_trans h.start_le (Std.le_of_lt hle)
  refine ⟨?_, fun p hp => ?_, hstart ▸ hrest, ?_, hstart_le, ?_⟩
  · rw [h.regions, append_assoc, singleton_append]
  · rcases mem_append.mp hp with hp | hp
    · obtain ⟨hne, hend⟩ := h.before_le p hp
      exact ⟨hne, key_le_trans hend (Std.le_of_lt hle)⟩
    · obtain rfl := mem_singleton.mp hp
      exact ⟨hnil, Std.le_refl _⟩
  · refine contains_iff.mpr ⟨Std.le_of_eq hstart, ?_⟩
    cases rest with
    | nil => exact .inl hrest.2
    | cons r'' rest => exact .inr hrest.2.1
  · exact filter_inRange (h.rows r' (mem_cons_of_mem _ mem_cons_self)) hstart_le
      (Std.le_of_eq hstart.symm)

theorem walkOn_end (h : r.endKey = [] ∨ ∃ s ∈ stop, s ≤ r.endKey) :
    walkOn t stop limit sizes fuel r out = .ok out := by
  unfold walkOn
  split
  · rfl
  · rename_i hend
    rw [if_pos]
    obtain ⟨s, hs, hle⟩ := h.resolve_left fun hnil => hend (List.isEmpty_iff.mpr hnil)
    rw [Option.mem_def.mp hs]
    exact decide_eq_true hle

theorem walkOn_next (h : ¬(r.endKey = [] ∨ ∃ s ∈ stop, s ≤ r.endKey)) :
    walkOn t stop limit sizes fuel r out = walk t stop limit sizes fuel out r.endKey := by
  obtain ⟨hnil, hstop⟩ := not_or.mp h
  unfold walkOn
  rw [if_neg (mt List.isEmpty_iff.mp hnil), if_neg]
  cases stop with
  | none => exact Bool.false_ne_true
  | some s => exact fun hle => hstop ⟨s, rfl, of_decide_eq_true hle⟩

/-- What the walk adds is the first cells that are wanted exactly when the regions fit. -/
theorem walk_iff (sizes : ℕ → ℕ → ℕ) (limit fuel : ℕ) (out : List Cell)
    (h : Reading t start stop next before r rest) : walk t stop limit sizes fuel out next =
        .ok (out ++ (cellsOf (rowsInRange start stop (r :: rest))).take (limit - out.length)) ↔
      Fits start stop sizes fuel (limit - out.length) (r :: rest) := by
  rcases Nat.lt_or_ge out.length limit with hlt | hfull
  swap
  · rw [Nat.sub_eq_zero_of_le hfull, walk_full t hfull, take_zero, append_nil]
    exact iff_of_true rfl (fits_zero fuel _)
  have hwanted : 0 < limit - out.length := Nat.sub_pos_of_lt hlt
  induction fuel generalizing out next before r rest with
  | zero =>
    rw [fits_zero_fuel hwanted, walk, ← cellsOf_eq_nil, Except.ok.injEq, self_eq_append_right,
      take_eq_nil_iff]
    exact or_iff_right hwanted.ne'
  | succ fuel ih =>
    rw [walk_region t hlt h.locateRegion h.filter, rowsInRange_cons]
    unfold Fits
    dsimp only
    rw [Nat.add_sub_cancel]
    by_cases hsuffices :
      Suffices (sizes fuel) (limit - out.length) (r.rows.filter (inRange start stop))
    swap
    · refine iff_of_false
        (walkOn_ne t (h.rows r mem_cons_self) hlt _ hsuffices) fun hfits => ?_
      refine hsuffices (hfits.1 hwanted fun hnil => hsuffices ?_).2
      rw [hnil]
      exact suffices_nil (sizes fuel) hwanted
    · have hfirst : 0 < limit - out.length → r.rows.filter (inRange start stop) ≠ [] →
          0 < fuel + 1 ∧
            Suffices (sizes fuel) (limit - out.length) (r.rows.filter (inRange start stop)) :=
        fun _ _ => ⟨Nat.succ_pos fuel, hsuffices⟩
      rw [and_iff_right hfirst]
      obtain ⟨hdrop, hall⟩ := hsuffices
      rw [pushRows_of_dropLast_lt (by omega)]
      rcases Nat.lt_or_ge (cellsOf (given (sizes fuel) (limit - out.length)
        (r.rows.filter (inRange start stop)))).length (limit - out.length) with hfew | hmany
      · -- The region has given all its rows.
        have hrows := hall hfew
        rw [hrows] at hfew ⊢
        rw [take_of_length_le hfew.le, cellsOf_append, take_append,
          take_of_length_le hfew.le, ← append_assoc, ← Nat.sub_add_eq, ← length_append]
        by_cases hend : r.endKey = [] ∨ ∃ s ∈ stop, s ≤ r.endKey
        · have hempty : rowsInRange start stop rest = [] :=
            rowsInRange_rest h.partition (fun r' hr' => h.rows r' (mem_cons_of_mem _ hr')) hend
          rw [walkOn_end hend, hempty, cellsOf_eq_nil.mpr rfl, take_nil, append_nil]
          exact iff_of_true rfl (fits_of_empty hempty _ _)
        · rw [walkOn_next hend]
          cases rest with
          | nil => exact absurd (.inl h.partition.2) hend
          | cons r' rest =>
            have hlength : (out ++ cellsOf (r.rows.filter (inRange start stop))).length < limit := by
              rw [length_append]
              omega
            exact ih _ h.advance hlength (Nat.sub_pos_of_lt hlength)
      · -- The region has reached the limit.
        obtain ⟨hcells, hle⟩ := given_full (rowsInRange start stop rest) hmany
        rw [hcells, walkOn_full t, Nat.sub_eq_zero_of_le hle]
        · exact iff_of_true rfl (fits_zero fuel rest)
        · rw [length_append, length_take, Nat.min_eq_left hmany]
          omega

/-- A scan gives the first cells of its range exactly when the regions from the one of the start row on
fit. -/
theorem scan_complete_iff (t : Table) (limit : ℕ) (startRow stopRow : Option Key) (sizes : ℕ → ℕ → ℕ) :
    scan t limit startRow stopRow sizes = .ok (t.firstCells limit startRow stopRow) ↔
      Fits (startRow.getD []) stopRow sizes 10000 limit
        (t.regions.dropWhile fun r => !r.contains (startRow.getD [])) := by
  obtain ⟨before, r, rest, hregions, hcontains, hpartition, hbefore⟩ :=
    t.partition.split (nil_le (startRow.getD []))
  have hreading : Reading t (startRow.getD []) stopRow (startRow.getD []) before r rest :=
    ⟨hregions, hbefore, hpartition, hcontains, Std.le_refl _, rfl⟩
  have hskipped : rowsInRange (startRow.getD []) stopRow before = [] := by
    unfold rowsInRange
    refine filter_eq_nil_iff.mpr fun row hrow hin => ?_
    obtain ⟨p, hp, hmem⟩ := mem_flatMap.mp hrow
    obtain ⟨hnil, hle⟩ := hbefore p hp
    have hcontains := t.rows p (hregions ▸ mem_append_left _ hp) row hmem
    exact key_not_lt.mpr (key_le_trans hle (inRange_iff.mp hin).1)
      ((contains_iff.mp hcontains).2.resolve_left hnil)
  have hdrop : (t.regions.dropWhile fun r => !r.contains (startRow.getD [])) = r :: rest := by
    have hnot : ∀ p ∈ before, (!p.contains (startRow.getD [])) = true := fun p hp => by
      obtain ⟨hnil, hle⟩ := hbefore p hp
      rw [Bool.not_eq_true', ← Bool.not_eq_true, contains_iff]
      exact fun h => key_not_lt.mpr hle (h.2.resolve_left hnil)
    rw [hregions, dropWhile_append_of_pos hnot, dropWhile_cons_of_neg]
    rw [hcontains]
    exact Bool.false_ne_true
  have hcells : t.firstCells limit startRow stopRow =
      (cellsOf (rowsInRange (startRow.getD []) stopRow (r :: rest))).take limit := by
    have hall : rowsInRange (startRow.getD []) stopRow t.regions =
        rowsInRange (startRow.getD []) stopRow (r :: rest) := by
      rw [hregions]
      unfold rowsInRange at hskipped ⊢
      rw [flatMap_append, filter_append, hskipped, nil_append]
    exact congrArg (fun rows => (cellsOf rows).take limit) hall
  have hwalk := walk_iff sizes limit 10000 [] hreading
  rw [hdrop, hcells]
  exact hwalk

/-- One region with three rows of two cells. -/
def threeRows : List Region :=
  [⟨[], [], [⟨[1], [[], []], cons_ne_nil _ _⟩, ⟨[2], [[], []], cons_ne_nil _ _⟩,
    ⟨[3], [[], []], cons_ne_nil _ _⟩]⟩]

private theorem threeRows_contains : ∀ r ∈ threeRows, ∀ row ∈ r.rows, r.contains row.key := by
  decide

private theorem threeRows_ordered : ∀ r ∈ threeRows, (r.rows.map Row.key).Pairwise (· < ·) := by
  decide

def threeRowTable : Table := ⟨threeRows, ⟨rfl, rfl⟩, threeRows_contains, threeRows_ordered⟩

/-- Every row that a region gives adds a cell, also after the limit. -/
theorem scan_exceeds_limit : scan threeRowTable 3 none none (fun _ _ => 1000) =
        .ok [⟨[1], []⟩, ⟨[1], []⟩, ⟨[2], []⟩, ⟨[3], []⟩] ∧
      threeRowTable.firstCells 3 none none = [⟨[1], []⟩, ⟨[1], []⟩, ⟨[2], []⟩] := by
  decide

end Taomni.Hbase
