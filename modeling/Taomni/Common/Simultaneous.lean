import Mathlib.Algebra.GroupWithZero.Nat
import Mathlib.Algebra.Order.BigOperators.Group.List
import Mathlib.Algebra.Order.Group.Nat
import Mathlib.Data.List.Pairwise
import Mathlib.Data.List.Sort
import Mathlib.Data.List.TakeWhile
import Taomni.Common.Splice

/-!
# Simultaneous splices

What a list of splices that do not overlap makes of a list, said position by position and without an
order between splices at different positions. On ordered splices this is `applySplices`
(`applySplices_eq_simultaneous`).
-/

namespace Taomni

open List

variable {α : Type*}

/-- Neither splice starts inside the other. Insertions may share a position, also with the start or
the end of a replacement. -/
def Splice.Apart (s t : Splice α) : Prop := s.stop ≤ t.start ∨ t.stop ≤ s.start

instance (s t : Splice α) : Decidable (s.Apart t) := inferInstanceAs (Decidable (_ ∨ _))

/-- The insertions at a position, in the order of the list. -/
def insertionsAt (ss : List (Splice α)) (i : ℕ) : List (Splice α) :=
  ss.filter fun s => s.start = i ∧ s.stop = i

/-- The replacements that start at a position. -/
def replacementsAt (ss : List (Splice α)) (i : ℕ) : List (Splice α) :=
  ss.filter fun s => s.start = i ∧ i < s.stop

/-- The element at a position, unless a splice covers it. -/
def keptAt (xs : List α) (q : ℕ) (ss : List (Splice α)) (i : ℕ) : List α :=
  if i < q ∧ ∀ s ∈ ss, ¬ (s.start ≤ i ∧ i < s.stop) then xs[i]?.toList else []

/-- What stands at a position of the window up to `q` afterwards: what is inserted there, what
replaces the range that starts there, and the element itself where it is kept. -/
def cell (xs : List α) (q : ℕ) (ss : List (Splice α)) (i : ℕ) : List α :=
  (insertionsAt ss i).flatMap Splice.insert ++ (replacementsAt ss i).flatMap Splice.insert
    ++ keptAt xs q ss i

/-- All splices applied at once. -/
def simultaneous (xs : List α) (ss : List (Splice α)) : List α :=
  (List.range (xs.length + 1)).flatMap (cell xs xs.length ss)

variable (xs : List α)

theorem cell_nil {q i : ℕ} (h : i < q) : cell xs q [] i = xs[i]?.toList := by
  simp [cell, insertionsAt, replacementsAt, keptAt, h]

variable {ss : List (Splice α)}

/-- Positions before every splice keep their element. -/
theorem cell_of_lt {q i : ℕ} (hi : i < q)
    (h : ∀ s ∈ ss, i < s.start) : cell xs q ss i = xs[i]?.toList := by
  have hins : insertionsAt ss i = [] := filter_eq_nil_iff.mpr fun s hs => by
    have := h s hs
    simp only [decide_eq_true_eq]
    omega
  have hrep : replacementsAt ss i = [] := filter_eq_nil_iff.mpr fun s hs => by
    have := h s hs
    simp only [decide_eq_true_eq]
    omega
  rw [cell, hins, hrep, keptAt, if_pos ⟨hi, fun s hs => by have := h s hs; omega⟩]
  rfl

/-- Kept elements make up a slice. -/
theorem flatMap_getElem? {p n : ℕ} (h : p + n ≤ xs.length) :
    (List.range' p n).flatMap (fun i => xs[i]?.toList) = slice xs p (p + n) := by
  induction n generalizing p with
  | zero => simp
  | succ n ih =>
    have hlt : p < xs.length := by omega
    have hnext : p + 1 + n = p + (n + 1) := by omega
    rw [range'_succ, flatMap_cons, ih (by omega), getElem?_eq_getElem hlt, hnext,
      ← slice_append xs (Nat.le_succ p) (show p + 1 ≤ p + (n + 1) by omega)]
    congr 1
    rw [slice, drop_eq_getElem_cons hlt, Nat.succ_sub (le_refl p), Nat.sub_self]
    rfl

theorem Ordered.le_start {p q : ℕ} (h : Ordered p q ss) : ∀ s ∈ ss, p ≤ s.start := by
  induction ss generalizing p with
  | nil => simp
  | cons s rest ih =>
    refine forall_mem_cons.mpr ⟨h.1, fun t ht => ?_⟩
    exact (h.1.trans h.2.1).trans (ih h.2.2 t ht)

variable {s : Splice α}

theorem keptAt_cons (q : ℕ) (rest : List (Splice α)) {i : ℕ}
    (h : ¬ (s.start ≤ i ∧ i < s.stop)) : keptAt xs q (s :: rest) i = keptAt xs q rest i :=
  if_congr (and_congr_right fun _ => forall_mem_cons.trans (and_iff_right h)) rfl rfl

/-- An insertion comes first at its position. -/
theorem cell_cons_insertion (q : ℕ) (rest : List (Splice α)) (h : s.start = s.stop) (i : ℕ) :
    cell xs q (s :: rest) i = (if i = s.start then s.insert else []) ++ cell xs q rest i := by
  have hrep : replacementsAt (s :: rest) i = replacementsAt rest i :=
    filter_cons_of_neg (by simp only [decide_eq_true_eq]; omega)
  rw [cell, cell, hrep, keptAt_cons xs q rest (by omega)]
  split
  · next hi =>
    have hins : insertionsAt (s :: rest) i = s :: insertionsAt rest i :=
      filter_cons_of_pos (by simp only [decide_eq_true_eq]; omega)
    rw [hins, flatMap_cons]
    simp only [append_assoc]
  · next hi =>
    have hins : insertionsAt (s :: rest) i = insertionsAt rest i :=
      filter_cons_of_neg (by simp only [decide_eq_true_eq]; omega)
    rw [hins]
    rfl

/-- A replacement does not show from its end on. -/
theorem cell_cons_of_stop_le (q : ℕ) (rest : List (Splice α)) {i : ℕ}
    (h : s.start < s.stop) (hi : s.stop ≤ i) : cell xs q (s :: rest) i = cell xs q rest i := by
  have hins : insertionsAt (s :: rest) i = insertionsAt rest i :=
    filter_cons_of_neg (by simp only [decide_eq_true_eq]; omega)
  have hrep : replacementsAt (s :: rest) i = replacementsAt rest i :=
    filter_cons_of_neg (by simp only [decide_eq_true_eq]; omega)
  rw [cell, cell, hins, hrep, keptAt_cons xs q rest (by omega)]

/-- Inside its range a replacement shows once, at the start. -/
theorem cell_cons_covered (q : ℕ) {rest : List (Splice α)} {i : ℕ}
    (hi : s.start ≤ i ∧ i < s.stop) (hrest : ∀ t ∈ rest, s.stop ≤ t.start) :
    cell xs q (s :: rest) i = if i = s.start then s.insert else [] := by
  have hins : insertionsAt (s :: rest) i = [] :=
    filter_eq_nil_iff.mpr <| forall_mem_cons.mpr
      ⟨by simp only [decide_eq_true_eq]; omega, fun t ht => by
        have := hrest t ht
        simp only [decide_eq_true_eq]
        omega⟩
  have hrep : replacementsAt rest i = [] := filter_eq_nil_iff.mpr fun t ht => by
    have := hrest t ht
    simp only [decide_eq_true_eq]
    omega
  have hkept : keptAt xs q (s :: rest) i = [] :=
    if_neg fun h => h.2 s mem_cons_self hi
  rw [cell, hins, hkept, append_nil, flatMap_nil, nil_append]
  split
  · next heq =>
    have hcons : replacementsAt (s :: rest) i = s :: replacementsAt rest i :=
      filter_cons_of_pos (by simp only [decide_eq_true_eq]; omega)
    rw [hcons, hrep]
    simp
  · next hne =>
    have hcons : replacementsAt (s :: rest) i = replacementsAt rest i :=
      filter_cons_of_neg (by simp only [decide_eq_true_eq]; omega)
    rw [hcons, hrep, flatMap_nil]

theorem applySplices_eq_cells {p q : ℕ} (h : Ordered p q ss) (hq : q ≤ xs.length) :
    applySplices xs p q ss = (List.range' p (q + 1 - p)).flatMap (cell xs q ss) := by
  induction ss generalizing p with
  | nil =>
    have hle : p ≤ q := h
    have hlen : q + 1 - p = (q - p) + 1 := by omega
    have hlast : cell xs q [] (p + (q - p)) = [] := by
      simp [cell, insertionsAt, replacementsAt, keptAt, hle]
    have hcells : ∀ i ∈ List.range' p (q - p), cell xs q [] i = xs[i]?.toList := by
      intro i hi
      have := List.mem_range'_1.mp hi
      exact cell_nil xs (by omega)
    rw [hlen, ← range'_append_1, flatMap_append, flatMap_congr hcells,
      flatMap_getElem? xs (by omega), range'_one, flatMap_singleton, hlast,
      append_nil, applySplices, Nat.add_sub_cancel' hle]
  | cons s rest ih =>
    obtain ⟨hstart, hstop, hrest⟩ := h
    have hle := hrest.le
    have hlen : q + 1 - p = (s.start - p) + (q + 1 - s.start) := by omega
    have hto : p + (s.start - p) = s.start := by omega
    have hbefore : ∀ i ∈ List.range' p (s.start - p), cell xs q (s :: rest) i = xs[i]?.toList := by
      intro i hi
      have := List.mem_range'_1.mp hi
      refine cell_of_lt xs (by omega) (forall_mem_cons.mpr ⟨by omega, fun t ht => ?_⟩)
      have := hrest.le_start t ht
      omega
    rw [hlen, ← range'_append_1, flatMap_append, flatMap_congr hbefore,
      flatMap_getElem? xs (by omega), hto, applySplices, append_assoc, ih hrest]
    congr 1
    rcases hstop.eq_or_lt with hempty | hlt
    · have hfrom : q + 1 - s.start = (q - s.start) + 1 := by omega
      have hafter : ∀ i ∈ List.range' (s.start + 1) (q - s.start),
          cell xs q (s :: rest) i = cell xs q rest i := by
        intro i hi
        have := List.mem_range'_1.mp hi
        rw [cell_cons_insertion xs q rest hempty, if_neg (by omega), nil_append]
      rw [← hempty, hfrom, range'_succ, flatMap_cons, flatMap_cons,
        flatMap_congr hafter, cell_cons_insertion xs q rest hempty, if_pos rfl,
        append_assoc]
    · have hfrom : q + 1 - s.start = (s.stop - s.start - 1 + 1) + (q + 1 - s.stop) := by omega
      have hstopEq : s.start + (s.stop - s.start - 1 + 1) = s.stop := by omega
      have hinside : ∀ i ∈ List.range' (s.start + 1) (s.stop - s.start - 1),
          cell xs q (s :: rest) i = [] := by
        intro i hi
        have := List.mem_range'_1.mp hi
        rw [cell_cons_covered xs q (by omega) hrest.le_start, if_neg (by omega)]
      have hafter : ∀ i ∈ List.range' s.stop (q + 1 - s.stop),
          cell xs q (s :: rest) i = cell xs q rest i := by
        intro i hi
        exact cell_cons_of_stop_le xs q rest hlt (List.mem_range'_1.mp hi).1
      rw [hfrom, ← range'_append_1, flatMap_append, hstopEq, flatMap_congr hafter,
        range'_succ, flatMap_cons, flatMap_eq_nil_iff.mpr hinside, append_nil,
        cell_cons_covered xs q ⟨le_rfl, hlt⟩ hrest.le_start, if_pos rfl]

/-- On ordered splices both readings agree. -/
theorem applySplices_eq_simultaneous
    (h : Ordered 0 xs.length ss) : applySplices xs 0 xs.length ss = simultaneous xs ss := by
  rw [applySplices_eq_cells xs h le_rfl, simultaneous, range_eq_range', Nat.sub_zero]

/-! ## Splices in another order -/

/-- Two splices that start at one position and remove something are not apart. -/
theorem length_replacementsAt_le (h : ss.Pairwise Splice.Apart) (i : ℕ) :
    (replacementsAt ss i).length ≤ 1 := by
  have hpair : (replacementsAt ss i).Pairwise fun _ _ => False := by
    refine (pairwise_filter.mpr (h.imp ?_))
    intro s t hapart hs ht
    simp only [decide_eq_true_eq] at hs ht
    rcases hapart with hle | hle <;> omega
  rcases hcases : replacementsAt ss i with _ | ⟨s, _ | ⟨t, rest⟩⟩
  · simp
  · simp
  · rw [hcases] at hpair
    exact absurd (rel_of_pairwise_cons hpair (mem_cons_self)) id

/-- Neither the kept elements nor the replacements depend on the order. -/
theorem cell_perm {q : ℕ} {ts : List (Splice α)} (h : ss.Perm ts)
    (hapart : ts.Pairwise Splice.Apart) (i : ℕ) :
    cell xs q ss i = (insertionsAt ss i).flatMap Splice.insert
      ++ ((replacementsAt ts i).flatMap Splice.insert ++ keptAt xs q ts i) := by
  have hrep : replacementsAt ss i = replacementsAt ts i := by
    have hperm : (replacementsAt ss i).Perm (replacementsAt ts i) := h.filter _
    have hle := length_replacementsAt_le hapart i
    rcases hcases : replacementsAt ts i with _ | ⟨s, _ | ⟨t, rest⟩⟩
    · rw [hcases] at hperm
      exact hperm.eq_nil
    · rw [hcases] at hperm
      exact List.perm_singleton.mp hperm
    · rw [hcases] at hle
      simp at hle
  have hkept : keptAt xs q ss i = keptAt xs q ts i :=
    if_congr (and_congr_right fun _ => forall_congr' fun s => imp_congr_left h.mem_iff) rfl rfl
  rw [cell, hrep, hkept, append_assoc]

/-- Lists made of pieces of equal lengths are equal just when the pieces are. -/
theorem flatMap_eq_flatMap_iff {β : Type*} {l : List β} {f g : β → List α}
    (h : ∀ b ∈ l, (f b).length = (g b).length) : l.flatMap f = l.flatMap g ↔ ∀ b ∈ l, f b = g b := by
  induction l with
  | nil => simp
  | cons b rest ih =>
    obtain ⟨hfirst, hrest⟩ := forall_mem_cons.mp h
    rw [flatMap_cons, flatMap_cons, forall_mem_cons, ← ih hrest]
    constructor
    · intro heq
      exact append_inj heq hfirst
    · rintro ⟨hb, hl⟩
      rw [hb, hl]

/-- Insertions made in the reverse order at every position give the same list just when no position
tells the two orders apart. -/
theorem simultaneous_eq_iff_of_reverse {ts : List (Splice α)} (h : ss.Perm ts)
    (hapart : ts.Pairwise Splice.Apart) (hins : ∀ i, insertionsAt ss i = (insertionsAt ts i).reverse)
    (hrange : ∀ s ∈ ts, s.stop ≤ xs.length) : simultaneous xs ss = simultaneous xs ts ↔
      ∀ i, (insertionsAt ts i).reverse.flatMap Splice.insert
        = (insertionsAt ts i).flatMap Splice.insert := by
  have hlength : ∀ i, ((insertionsAt ts i).reverse.flatMap Splice.insert).length
      = ((insertionsAt ts i).flatMap Splice.insert).length := fun i =>
    ((reverse_perm _).flatMap_right _).length_eq
  have hcell : ∀ i, cell xs xs.length ss i = cell xs xs.length ts i ↔
      (insertionsAt ts i).reverse.flatMap Splice.insert
        = (insertionsAt ts i).flatMap Splice.insert := by
    intro i
    rw [cell_perm xs h hapart, cell_perm xs (List.Perm.refl ts) hapart, hins i,
      append_left_inj]
  rw [simultaneous, simultaneous, flatMap_eq_flatMap_iff]
  · simp only [hcell]
    refine ⟨fun hall i => ?_, fun hall i _ => hall i⟩
    by_cases hi : i < xs.length + 1
    · exact hall i (mem_range.mpr hi)
    · have hnone : insertionsAt ts i = [] := filter_eq_nil_iff.mpr fun s hs => by
        have := hrange s hs
        simp only [decide_eq_true_eq]
        omega
      rw [hnone]
      rfl
  · intro i _
    rw [cell_perm xs h hapart, cell_perm xs (List.Perm.refl ts) hapart, hins i,
      length_append, hlength i, ← length_append]

end Taomni

/-!
# Splices one after the other

Splices that are sorted by their starts, the last one first, and made one after the other. Those that start
at one place are made in the order of the list: each goes before what is there already, and a splice that
removes something takes it from what was inserted there before it. So the result is the simultaneous one
just when this is the same at every place (`foldl_into_eq_atOnce_iff`).
-/

namespace Taomni

open List

variable {α : Type*}

namespace Splice

/-- How much is removed. -/
def removed (s : Splice α) : ℕ := s.stop - s.start

/-- `Vec::splice`. -/
def into (xs : List α) (s : Splice α) : List α := xs.take s.start ++ s.insert ++ xs.drop s.stop

/-- A splice at the front of a list. -/
def before (ys : List α) (s : Splice α) : List α := s.insert ++ ys.drop s.removed

end Splice

/-- The splices that start at a place, in the order of the list. -/
def startingAt (ss : List (Splice α)) (i : ℕ) : List (Splice α) := ss.filter fun s => s.start = i

def removedAt (ss : List (Splice α)) (i : ℕ) : ℕ := ((startingAt ss i).map Splice.removed).sum

/-- The elements that the splices at a place remove. -/
def oldAt (xs : List α) (ss : List (Splice α)) (i : ℕ) : List α := slice xs i (i + removedAt ss i)

/-- All splices at once: at every place what is inserted there, in the order of the list, and the element
where it is kept. -/
def atOnce (xs : List α) (ss : List (Splice α)) : List α :=
  (List.range (xs.length + 1)).flatMap fun i =>
    (startingAt ss i).flatMap Splice.insert ++ keptAt xs xs.length ss i

/-- What the splices of a place leave there when they are made in turn. -/
def inTurnAt (xs : List α) (ss : List (Splice α)) (i : ℕ) : List α :=
  (startingAt ss i).foldl Splice.before (oldAt xs ss i)

/-! ## One place -/

section OnePlace

variable {group : List (Splice α)}

theorem foldl_into {xs : List α} {i : ℕ} (hi : i ≤ xs.length) (hgroup : ∀ s ∈ group, s.start = i ∧ i ≤ s.stop)
    (ys : List α) : group.foldl Splice.into (xs.take i ++ ys) = xs.take i ++ group.foldl Splice.before ys := by
  induction group generalizing ys with
  | nil => rfl
  | cons s group ih =>
    obtain ⟨⟨hstart, hstop⟩, hgroup⟩ := forall_mem_cons.mp hgroup
    have hlength : (xs.take i).length = i := length_take_of_le hi
    have hinto : Splice.into (xs.take i ++ ys) s = xs.take i ++ Splice.before ys s := by
      rw [Splice.into, Splice.before, Splice.removed, hstart, take_left' hlength, append_assoc]
      congr 2
      rw [drop_append, drop_eq_nil_of_le (by omega), nil_append, hlength]
    rw [foldl_cons, foldl_cons, hinto, ih hgroup]

theorem foldl_before_append {ws : List α} (h : (group.map Splice.removed).sum ≤ ws.length)
    (rest : List α) : group.foldl Splice.before (ws ++ rest) = group.foldl Splice.before ws ++ rest := by
  induction group generalizing ws with
  | nil => rfl
  | cons s group ih =>
    rw [map_cons, sum_cons] at h
    have hone : Splice.before (ws ++ rest) s = Splice.before ws s ++ rest := by
      rw [Splice.before, Splice.before, drop_append_of_le_length (by omega), append_assoc]
    have hrest : (group.map Splice.removed).sum ≤ (Splice.before ws s).length := by
      rw [Splice.before, length_append, length_drop]
      omega
    rw [foldl_cons, foldl_cons, hone, ih hrest]

theorem length_foldl_before {ws : List α} (h : (group.map Splice.removed).sum ≤ ws.length) :
    (group.foldl Splice.before ws).length + (group.map Splice.removed).sum
      = ws.length + (group.flatMap Splice.insert).length := by
  induction group generalizing ws with
  | nil => rfl
  | cons s group ih =>
    rw [map_cons, sum_cons] at h
    have hone : (Splice.before ws s).length + s.removed = ws.length + s.insert.length := by
      rw [Splice.before, length_append, length_drop]
      omega
    have hrest := @ih (Splice.before ws s) (by omega)
    rw [foldl_cons, map_cons, sum_cons, flatMap_cons, length_append]
    omega

/-- Of splices that start at one place and do not overlap at most one removes something. -/
theorem add_sum_removed_le {i q : ℕ} (hi : i ≤ q) (hapart : group.Pairwise Splice.Apart)
    (hgroup : ∀ s ∈ group, s.start = i ∧ i ≤ s.stop ∧ s.stop ≤ q) :
    i + (group.map Splice.removed).sum ≤ q := by
  induction group with
  | nil => exact hi
  | cons s group ih =>
    obtain ⟨⟨hstart, hle, hstop⟩, hgroup⟩ := forall_mem_cons.mp hgroup
    obtain ⟨hfirst, hapart⟩ := List.pairwise_cons.mp hapart
    rw [map_cons, sum_cons]
    by_cases hremoves : s.stop = i
    · have hzero : s.removed = 0 := by
        rw [Splice.removed]
        omega
      rw [hzero, Nat.zero_add]
      exact ih hapart hgroup
    · have hrest : (group.map Splice.removed).sum = 0 := by
        refine List.sum_eq_zero_iff_forall_eq_nat.mpr fun n hn => ?_
        obtain ⟨t, ht, rfl⟩ := mem_map.mp hn
        obtain ⟨htstart, htle, -⟩ := hgroup t ht
        rw [Splice.removed]
        rcases hfirst t ht with hle | hle <;> omega
      rw [hrest, Splice.removed]
      omega

end OnePlace

/-! ## All places -/

section AllPlaces

variable {xs : List α} {ss : List (Splice α)}

theorem mem_startingAt {s : Splice α} {i : ℕ} : s ∈ startingAt ss i ↔ s ∈ ss ∧ s.start = i :=
  mem_filter.trans (and_congr_right fun _ => decide_eq_true_iff)

theorem removedAt_of_eq_nil {i : ℕ} (h : startingAt ss i = []) : removedAt ss i = 0 := by
  rw [removedAt, h]
  rfl

/-- A place's splices end before the next place with splices, and before the end. -/
theorem add_removedAt_le (hapart : ss.Pairwise Splice.Apart) (hforward : ∀ s ∈ ss, s.start ≤ s.stop)
    {i q : ℕ} (hi : i ≤ q) (h : ∀ s ∈ startingAt ss i, s.stop ≤ q) : i + removedAt ss i ≤ q := by
  refine add_sum_removed_le hi (hapart.sublist filter_sublist) fun s hs => ?_
  obtain ⟨hmem, hstart⟩ := mem_startingAt.mp hs
  exact ⟨hstart, hstart ▸ hforward s hmem, h s hs⟩

instance : Std.Symm (@Splice.Apart α) := ⟨fun _ _ => Or.symm⟩

theorem stop_le_of_apart (hapart : ss.Pairwise Splice.Apart) (hforward : ∀ s ∈ ss, s.start ≤ s.stop)
    {s t : Splice α} (hs : s ∈ ss) (ht : t ∈ ss) (hlt : s.start < t.start) : s.stop ≤ t.start := by
  have hne : s ≠ t := fun heq => hlt.ne (congrArg Splice.start heq)
  have hle := hforward t ht
  rcases hapart.forall hs ht hne with h | h <;> omega

/-- A list sorted by its starts is the lists of the places, the last place first. -/
theorem eq_flatMap_startingAt {l : List (Splice α)} (h : l.Pairwise fun s t => t.start ≤ s.start) {n : ℕ}
    (hlt : ∀ s ∈ l, s.start < n) : l = (List.range n).reverse.flatMap (startingAt l) := by
  induction n generalizing l with
  | zero =>
    rw [eq_nil_iff_forall_not_mem.mpr fun s hs => Nat.not_lt_zero _ (hlt s hs)]
    rfl
  | succ n ih =>
    have hsplit : l = startingAt l n ++ l.filter fun s => s.start < n := by
      clear ih
      induction l with
      | nil => rfl
      | cons s l ih =>
        obtain ⟨hfirst, hrest⟩ := List.pairwise_cons.mp h
        obtain ⟨hs, hlt⟩ := forall_mem_cons.mp hlt
        by_cases hlast : s.start = n
        · rw [startingAt, filter_cons_of_pos (by exact decide_eq_true hlast),
            filter_cons_of_neg (by rw [decide_eq_true_iff]; omega), cons_append]
          exact congrArg (s :: ·) (ih hrest hlt)
        · have hnone : startingAt (s :: l) n = [] := filter_eq_nil_iff.mpr fun t ht => by
            have hle : t.start ≤ s.start := (mem_cons.mp ht).elim (fun heq => heq ▸ le_rfl)
              (hfirst t)
            rw [decide_eq_true_iff]
            omega
          have hall : ((s :: l).filter fun s => s.start < n) = s :: l :=
            filter_eq_self.mpr fun t ht => by
              have hle : t.start ≤ s.start := (mem_cons.mp ht).elim (fun heq => heq ▸ le_rfl)
                (hfirst t)
              exact decide_eq_true (by omega)
          rw [hnone, hall, nil_append]
    have hlower : (l.filter fun s => s.start < n)
        = (List.range n).reverse.flatMap (startingAt (l.filter fun s => s.start < n)) :=
      ih (h.sublist filter_sublist) fun s hs => of_decide_eq_true (mem_filter.mp hs).2
    have hsame : ∀ i ∈ (List.range n).reverse,
        startingAt (l.filter fun s => s.start < n) i = startingAt l i := by
      intro i hi
      have hlt := mem_range.mp (mem_reverse.mp hi)
      rw [startingAt, startingAt, filter_filter]
      refine filter_congr fun s _ => ?_
      rw [Bool.eq_iff_iff, Bool.and_eq_true, decide_eq_true_iff, decide_eq_true_iff]
      omega
    rw [range_succ, reverse_append, reverse_singleton, singleton_append,
      flatMap_cons]
    conv_lhs => rw [hsplit, hlower, flatMap_congr hsame]

/-- The splices of a place as one. -/
def mergedAt (ss : List (Splice α)) (f : ℕ → List α) (i : ℕ) : Splice α := ⟨i, i + removedAt ss i, f i⟩

/-- The places with splices, the last one first. -/
def places (ss : List (Splice α)) (n : ℕ) : List ℕ :=
  (List.range n).reverse.filter fun i => (startingAt ss i).isEmpty = false

theorem mem_places {n i : ℕ} : i ∈ places ss n ↔ i < n ∧ startingAt ss i ≠ [] := by
  rw [places, mem_filter, mem_reverse, mem_range, decide_eq_true_iff,
    isEmpty_eq_false_iff]

theorem flatMap_places (n : ℕ) :
    (places ss n).flatMap (startingAt ss) = (List.range n).reverse.flatMap (startingAt ss) := by
  rw [places]
  induction (List.range n).reverse with
  | nil => rfl
  | cons i l ih =>
    by_cases hempty : startingAt ss i = []
    · rw [filter_cons_of_neg (by simp [hempty]), flatMap_cons, hempty, ih]
      rfl
    · rw [filter_cons_of_pos (by simp [hempty]),
        flatMap_cons, flatMap_cons, ih]

/-- Merged splices go from the end to the start. -/
theorem descending_merged (hapart : ss.Pairwise Splice.Apart) (hforward : ∀ s ∈ ss, s.start ≤ s.stop)
    (hstop : ∀ s ∈ ss, s.stop ≤ xs.length) (f : ℕ → List α) :
    Descending xs.length ((places ss (xs.length + 1)).map (mergedAt ss f)) := by
  have hgeneral : ∀ (l : List ℕ) (q : ℕ), l.Pairwise (fun i j => j + removedAt ss j ≤ i) →
      (∀ i ∈ l, i + removedAt ss i ≤ q) → Descending q (l.map (mergedAt ss f)) := by
    intro l
    induction l with
    | nil => exact fun _ _ _ => trivial
    | cons i l ih =>
      intro q hl hq
      obtain ⟨hfirst, hl⟩ := List.pairwise_cons.mp hl
      exact ⟨Nat.le_add_right _ _, hq i mem_cons_self, ih i hl hfirst⟩
  have hpairs : (places ss (xs.length + 1)).Pairwise fun i j => j < i :=
    (pairwise_reverse.mpr pairwise_lt_range).sublist filter_sublist
  refine hgeneral _ _ (hpairs.imp_of_mem fun {i j} hi _ hlt => ?_) fun i hi => ?_
  · refine add_removedAt_le hapart hforward hlt.le fun s hs => ?_
    obtain ⟨t, ht⟩ := exists_mem_of_ne_nil _ (mem_places.mp hi).2
    obtain ⟨hsmem, rfl⟩ := mem_startingAt.mp hs
    obtain ⟨htmem, rfl⟩ := mem_startingAt.mp ht
    exact stop_le_of_apart hapart hforward hsmem htmem hlt
  · refine add_removedAt_le hapart hforward (Nat.le_of_lt_succ (mem_places.mp hi).1) fun s hs => ?_
    exact hstop s (mem_startingAt.mp hs).1

/-- Splicing place by place from the end: what lies before the places still to come stays as it is. -/
theorem foldl_into_places (hforward : ∀ s ∈ ss, s.start ≤ s.stop) {l : List ℕ} {q : ℕ}
    (hdesc : Descending q (l.map (mergedAt ss (inTurnAt xs ss)))) (hq : q ≤ xs.length) (rest : List α) :
    (l.flatMap (startingAt ss)).foldl Splice.into (xs.take q ++ rest)
      = applySplices xs 0 q (l.map (mergedAt ss (inTurnAt xs ss))).reverse ++ rest := by
  induction l generalizing q rest with
  | nil =>
    rw [flatMap_nil, foldl_nil, map_nil, reverse_nil, applySplices, slice]
    rfl
  | cons i l ih =>
    have hle : i ≤ i + removedAt ss i := Nat.le_add_right _ _
    have hstop : i + removedAt ss i ≤ q := hdesc.2.1
    have hrest : Descending i (l.map (mergedAt ss (inTurnAt xs ss))) := hdesc.2.2
    have hi : i ≤ q := hle.trans hstop
    have hgroup : ∀ s ∈ startingAt ss i, s.start = i ∧ i ≤ s.stop := fun s hs => by
      obtain ⟨hmem, rfl⟩ := mem_startingAt.mp hs
      exact ⟨rfl, hforward s hmem⟩
    have hcut : xs.take q ++ rest
        = xs.take i ++ (oldAt xs ss i ++ (slice xs (i + removedAt ss i) q ++ rest)) := by
      have htake : xs.take q = slice xs 0 q := by
        rw [slice, drop_zero, Nat.sub_zero]
      have htake' : xs.take i = slice xs 0 i := by
        rw [slice, drop_zero, Nat.sub_zero]
      rw [htake, htake', oldAt, ← append_assoc, ← append_assoc,
        slice_append xs (Nat.zero_le i) hle, slice_append xs (Nat.zero_le _) hstop]
    have hold : ((startingAt ss i).map Splice.removed).sum ≤ (oldAt xs ss i).length := by
      rw [oldAt, length_slice xs (hstop.trans hq), Nat.add_sub_cancel_left, removedAt]
    rw [flatMap_cons, foldl_append, hcut, foldl_into (hi.trans hq) hgroup,
      foldl_before_append hold, ih hrest (hi.trans hq), map_cons,
      Descending.applySplices_cons xs hdesc, append_assoc]
    congr 1
    exact (append_assoc _ _ _).symm

/-- Merged splices cover what the splices cover. -/
theorem keptAt_merged (hapart : ss.Pairwise Splice.Apart) (hforward : ∀ s ∈ ss, s.start ≤ s.stop)
    (hstop : ∀ s ∈ ss, s.stop ≤ xs.length) (f : ℕ → List α) (i : ℕ) :
    keptAt xs xs.length ((places ss (xs.length + 1)).map (mergedAt ss f)).reverse i
      = keptAt xs xs.length ss i := by
  refine if_congr (and_congr_right fun _ => ⟨fun h s hs hcovers => ?_, fun h m hm hcovers => ?_⟩) rfl rfl
  · have hplace : s.start ∈ places ss (xs.length + 1) :=
      mem_places.mpr ⟨Nat.lt_succ_of_le ((hforward s hs).trans (hstop s hs)),
        ne_nil_of_mem (mem_startingAt.mpr ⟨hs, rfl⟩)⟩
    have hremoved : s.removed ≤ removedAt ss s.start :=
      le_sum_of_mem (mem_map_of_mem (mem_startingAt.mpr ⟨hs, rfl⟩))
    refine h (mergedAt ss f s.start) (mem_reverse.mpr (mem_map_of_mem hplace)) ⟨hcovers.1, ?_⟩
    rw [Splice.removed] at hremoved
    change i < s.start + removedAt ss s.start
    omega
  · obtain ⟨j, -, rfl⟩ := mem_map.mp (mem_reverse.mp hm)
    have hle : j + removedAt ss j ≤ i := add_removedAt_le hapart hforward hcovers.1 fun s hs => by
      obtain ⟨hmem, rfl⟩ := mem_startingAt.mp hs
      exact Nat.not_lt.mp fun hlt => h s hmem ⟨hcovers.1, hlt⟩
    exact absurd hcovers.2 (Nat.not_lt.mpr hle)

theorem filter_places (n i : ℕ) {Q : ℕ → Prop} [DecidablePred Q] :
    (places ss n).filter (fun j => j = i ∧ Q j) = if i ∈ places ss n ∧ Q i then [i] else [] := by
  have hnodup : (places ss n).Nodup := (List.nodup_reverse.mpr nodup_range).filter _
  have hsplit : (places ss n).filter (fun j => j = i ∧ Q j)
      = ((places ss n).filter (· = i)).filter fun _ => Q i := by
    rw [filter_filter]
    refine filter_congr fun j _ => ?_
    rw [Bool.eq_iff_iff, decide_eq_true_iff, Bool.and_eq_true, decide_eq_true_iff, decide_eq_true_iff]
    exact ⟨fun ⟨hj, hQ⟩ => ⟨hj ▸ hQ, hj⟩, fun ⟨hQ, hj⟩ => ⟨hj, hj ▸ hQ⟩⟩
  rw [hsplit, filter_eq]
  by_cases hmem : i ∈ places ss n
  · rw [count_eq_one_of_mem hnodup hmem, replicate_one]
    by_cases hQ : Q i
    · rw [if_pos ⟨hmem, hQ⟩]
      exact filter_eq_self.mpr fun _ _ => decide_eq_true hQ
    · rw [if_neg fun h => hQ h.2]
      exact filter_eq_nil_iff.mpr fun _ _ => by rwa [decide_eq_true_iff]
  · rw [count_eq_zero_of_not_mem hmem, if_neg fun h => hmem h.1]
    rfl

/-- Of merged splices one starts at a place with splices. -/
theorem cell_merged {f : ℕ → List α} (hf : ∀ i, startingAt ss i = [] → f i = []) {n i : ℕ} (hi : i < n) :
    (insertionsAt ((places ss n).map (mergedAt ss f)).reverse i).flatMap Splice.insert
        ++ (replacementsAt ((places ss n).map (mergedAt ss f)).reverse i).flatMap Splice.insert = f i := by
  have hpick : ∀ (Q : ℕ → Prop) [DecidablePred Q],
      ((((places ss n).filter fun j => j = i ∧ Q j).map (mergedAt ss f)).reverse).flatMap Splice.insert
        = if startingAt ss i ≠ [] ∧ Q i then f i else [] := by
    intro Q _
    rw [filter_places]
    by_cases h : startingAt ss i ≠ [] ∧ Q i
    · rw [if_pos h, if_pos ⟨mem_places.mpr ⟨hi, h.1⟩, h.2⟩]
      exact append_nil _
    · rw [if_neg h, if_neg fun h' => h ⟨(mem_places.mp h'.1).2, h'.2⟩]
      rfl
  rw [insertionsAt, replacementsAt, filter_reverse, filter_reverse, filter_map,
    filter_map]
  have hins := hpick fun j => j + removedAt ss j = i
  have hrep := hpick fun j => i < j + removedAt ss j
  refine (congrArg₂ (· ++ ·) hins hrep).trans ?_
  by_cases hnone : startingAt ss i = []
  · rw [if_neg fun h => h.1 hnone, if_neg fun h => h.1 hnone, hf i hnone]
    rfl
  · by_cases hremoves : removedAt ss i = 0
    · rw [if_pos ⟨hnone, by omega⟩, if_neg fun h => by omega, append_nil]
    · rw [if_neg fun h => by omega, if_pos ⟨hnone, by omega⟩, nil_append]

theorem simultaneous_merged (hapart : ss.Pairwise Splice.Apart)
    (hforward : ∀ s ∈ ss, s.start ≤ s.stop) (hstop : ∀ s ∈ ss, s.stop ≤ xs.length) {f : ℕ → List α}
    (hf : ∀ i, startingAt ss i = [] → f i = []) :
    simultaneous xs ((places ss (xs.length + 1)).map (mergedAt ss f)).reverse
      = (List.range (xs.length + 1)).flatMap fun i => f i ++ keptAt xs xs.length ss i := by
  rw [simultaneous]
  refine flatMap_congr fun i hi => ?_
  rw [cell, cell_merged hf (mem_range.mp hi), keptAt_merged hapart hforward hstop]

end AllPlaces

/-! ## The result -/

section Result

variable {xs : List α} {ss ts : List (Splice α)}

/-- What splices in turn make of a list, place by place. -/
theorem foldl_into_eq (hapart : ss.Pairwise Splice.Apart) (hforward : ∀ s ∈ ss, s.start ≤ s.stop)
    (hstop : ∀ s ∈ ss, s.stop ≤ xs.length) (hsorted : ts.Pairwise fun s t => t.start ≤ s.start)
    (hsame : ∀ i, startingAt ts i = startingAt ss i) : ts.foldl Splice.into xs
      = (List.range (xs.length + 1)).flatMap fun i => inTurnAt xs ss i ++ keptAt xs xs.length ss i := by
  have hlt : ∀ t ∈ ts, t.start < xs.length + 1 := fun t ht => by
    have hmem : t ∈ startingAt ts t.start := mem_startingAt.mpr ⟨ht, rfl⟩
    rw [hsame] at hmem
    have hss := (mem_startingAt.mp hmem).1
    exact Nat.lt_succ_of_le ((hforward t hss).trans (hstop t hss))
  have hts : ts = (places ss (xs.length + 1)).flatMap (startingAt ss) := by
    rw [flatMap_places]
    exact (eq_flatMap_startingAt hsorted hlt).trans (flatMap_congr fun i _ => hsame i)
  have hdesc := descending_merged hapart hforward hstop (inTurnAt xs ss)
  have hfold := foldl_into_places hforward hdesc le_rfl []
  rw [append_nil, append_nil, take_length] at hfold
  have hnone : ∀ i, startingAt ss i = [] → inTurnAt xs ss i = [] := fun i hi => by
    rw [inTurnAt, oldAt, hi, removedAt_of_eq_nil hi, Nat.add_zero, slice_self]
    rfl
  rw [hts, hfold, applySplices_eq_simultaneous xs hdesc.ordered,
    simultaneous_merged hapart hforward hstop hnone]

theorem length_inTurnAt (hapart : ss.Pairwise Splice.Apart) (hforward : ∀ s ∈ ss, s.start ≤ s.stop)
    (hstop : ∀ s ∈ ss, s.stop ≤ xs.length) (i : ℕ) :
    (inTurnAt xs ss i).length = ((startingAt ss i).flatMap Splice.insert).length := by
  by_cases hnone : startingAt ss i = []
  · rw [inTurnAt, oldAt, removedAt_of_eq_nil hnone, hnone, Nat.add_zero, slice_self]
    rfl
  · obtain ⟨s, hs⟩ := exists_mem_of_ne_nil _ hnone
    obtain ⟨hmem, rfl⟩ := mem_startingAt.mp hs
    have hle : s.start + removedAt ss s.start ≤ xs.length :=
      add_removedAt_le hapart hforward ((hforward s hmem).trans (hstop s hmem)) fun t ht =>
        hstop t (mem_startingAt.mp ht).1
    have hold : (oldAt xs ss s.start).length = removedAt ss s.start := by
      rw [oldAt, length_slice xs hle, Nat.add_sub_cancel_left]
    have hlength := @length_foldl_before _ (startingAt ss s.start) _ hold.ge
    rw [hold, ← removedAt] at hlength
    rw [inTurnAt]
    omega

/-- In turn and at once are the same just when they are at every place. -/
theorem foldl_into_eq_atOnce_iff (hapart : ss.Pairwise Splice.Apart)
    (hforward : ∀ s ∈ ss, s.start ≤ s.stop) (hstop : ∀ s ∈ ss, s.stop ≤ xs.length)
    (hsorted : ts.Pairwise fun s t => t.start ≤ s.start)
    (hsame : ∀ i, startingAt ts i = startingAt ss i) :
    (ts.foldl Splice.into xs).length = (atOnce xs ss).length ∧ (ts.foldl Splice.into xs = atOnce xs ss ↔
      ∀ i, inTurnAt xs ss i = (startingAt ss i).flatMap Splice.insert) := by
  have hlength := length_inTurnAt hapart hforward hstop
  have hcells : ∀ i ∈ List.range (xs.length + 1),
      (inTurnAt xs ss i ++ keptAt xs xs.length ss i).length
        = ((startingAt ss i).flatMap Splice.insert ++ keptAt xs xs.length ss i).length := fun i _ => by
    rw [length_append, length_append, hlength]
  rw [foldl_into_eq hapart hforward hstop hsorted hsame, atOnce]
  refine ⟨?_, (flatMap_eq_flatMap_iff hcells).trans ?_⟩
  · rw [length_flatMap, length_flatMap]
    exact congrArg List.sum (map_congr_left hcells)
  · simp only [append_left_inj]
    refine ⟨fun h i => ?_, fun h i _ => h i⟩
    by_cases hi : i < xs.length + 1
    · exact h i (mem_range.mpr hi)
    · have hnone : startingAt ss i = [] := filter_eq_nil_iff.mpr fun s hs => by
        have hle := (hforward s hs).trans (hstop s hs)
        rw [decide_eq_true_iff]
        omega
      exact eq_nil_of_length_eq_zero (by rw [hlength, hnone]; rfl) |>.trans (by rw [hnone]; rfl)

end Result

/-! ## In turn, written out -/

/-- The insertions at a place before one of its splices removes something. -/
def insertedFirst (ss : List (Splice α)) (i : ℕ) : List (Splice α) :=
  (startingAt ss i).takeWhile fun s => s.removed = 0

/-- The splice that removes something, and those after it. -/
def removingOn (ss : List (Splice α)) (i : ℕ) : List (Splice α) :=
  (startingAt ss i).dropWhile fun s => s.removed = 0

theorem foldl_before_insertions {group : List (Splice α)} (h : ∀ s ∈ group, s.removed = 0)
    (ys : List α) : group.foldl Splice.before ys = group.reverse.flatMap Splice.insert ++ ys := by
  induction group generalizing ys with
  | nil => rfl
  | cons s group ih =>
    obtain ⟨hs, hgroup⟩ := forall_mem_cons.mp h
    rw [foldl_cons, ih hgroup, Splice.before, hs, drop_zero, reverse_cons,
      flatMap_append, append_assoc]
    congr 1
    rw [flatMap_cons, flatMap_nil, append_nil]

/-- What is inserted comes in the reverse order, and the splice that removes takes from what was inserted
before it. -/
theorem inTurnAt_eq (xs : List α) {ss : List (Splice α)} (hapart : ss.Pairwise Splice.Apart)
    (hforward : ∀ s ∈ ss, s.start ≤ s.stop) (i : ℕ) :
    inTurnAt xs ss i = (removingOn ss i).reverse.flatMap Splice.insert ++
      ((insertedFirst ss i).reverse.flatMap Splice.insert ++ oldAt xs ss i).drop (removedAt ss i) := by
  have hgroup : startingAt ss i = insertedFirst ss i ++ removingOn ss i :=
    takeWhile_append_dropWhile.symm
  have hfirst : ∀ s ∈ insertedFirst ss i, s.removed = 0 := fun s hs => by
    have hkeeps := mem_takeWhile_imp (p := fun s : Splice α => s.removed = 0) hs
    exact of_decide_eq_true hkeeps
  have hsum : removedAt ss i = ((removingOn ss i).map Splice.removed).sum := by
    rw [removedAt, hgroup, map_append, sum_append_nat,
      List.sum_eq_zero_iff_forall_eq_nat.mpr fun n hn => ?_, Nat.zero_add]
    obtain ⟨s, hs, rfl⟩ := mem_map.mp hn
    exact hfirst s hs
  rw [inTurnAt, hgroup, foldl_append, foldl_before_insertions hfirst, hsum]
  cases hrest : removingOn ss i with
  | nil => rfl
  | cons s rest =>
    have hremoves : s.removed ≠ 0 := by
      have hhead := head?_dropWhile_not (fun s => decide (s.removed = 0)) (startingAt ss i)
      rw [← removingOn, hrest] at hhead
      exact of_decide_eq_false hhead
    have hzero : ∀ t ∈ rest, t.removed = 0 := by
      have hsub : (s :: rest).Sublist ss := by
        rw [← hrest]
        exact (dropWhile_sublist _).trans filter_sublist
      intro t ht
      have hapart := rel_of_pairwise_cons (hapart.sublist hsub) ht
      have hs : s ∈ startingAt ss i := by
        rw [hgroup, hrest]
        exact mem_append_right _ mem_cons_self
      have ht' : t ∈ startingAt ss i := by
        rw [hgroup, hrest]
        exact mem_append_right _ (mem_cons_of_mem _ ht)
      obtain ⟨hsmem, hstart⟩ := mem_startingAt.mp hs
      obtain ⟨htmem, htstart⟩ := mem_startingAt.mp ht'
      have hsle := hforward s hsmem
      have htle := hforward t htmem
      rw [Splice.removed] at hremoves ⊢
      rcases hapart with hle | hle <;> omega
    have hnone : (rest.map Splice.removed).sum = 0 :=
      List.sum_eq_zero_iff_forall_eq_nat.mpr fun n hn => by
        obtain ⟨t, ht, rfl⟩ := mem_map.mp hn
        exact hzero t ht
    rw [foldl_cons, foldl_before_insertions hzero, Splice.before, map_cons, sum_cons, hnone,
      Nat.add_zero, reverse_cons, flatMap_append, append_assoc]
    congr 1
    rw [flatMap_cons, flatMap_nil, append_nil]

end Taomni
