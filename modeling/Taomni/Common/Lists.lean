import Mathlib.Data.List.Basic
import Mathlib.Data.List.Nodup
import Mathlib.Data.List.Sort
import Mathlib.Order.Nat

/-!
# Order-preserving union

`appendMissing acc more` pushes the elements of `more` onto `acc`, skipping those already there: the
loop `for (const x of more) if (!acc.includes(x)) acc.push(x)`.
-/

namespace Taomni

open List

theorem forall_mem_of_all {α : Type*} {P : α → Prop} [DecidablePred P] {l : List α}
    (h : l.all (fun x => decide (P x)) = true) : ∀ x ∈ l, P x :=
  fun x hx => of_decide_eq_true (all_eq_true.1 h x hx)

variable {α : Type*} [DecidableEq α]

/-- Push each element of `more` that the list does not have yet. -/
@[grind =] def appendMissing (acc : List α) : List α → List α
  | [] => acc
  | x :: rest => appendMissing (if x ∈ acc then acc else acc ++ [x]) rest

@[simp] theorem mem_appendMissing {acc more : List α} {x : α} :
    x ∈ appendMissing acc more ↔ x ∈ acc ∨ x ∈ more := by
  induction more generalizing acc with
  | nil => simp [appendMissing]
  | cons y rest ih =>
    rw [appendMissing, ih, mem_cons]
    split
    · next hy =>
      constructor
      · tauto
      · rintro (h | rfl | h)
        · exact .inl h
        · exact .inl hy
        · exact .inr h
    · simp only [mem_append, mem_singleton]
      tauto

/-- The old list stays as it is at the front. -/
theorem prefix_appendMissing (acc more : List α) : acc <+: appendMissing acc more := by
  induction more generalizing acc with
  | nil => exact prefix_refl _
  | cons y rest ih =>
    rw [appendMissing]
    split
    · exact ih acc
    · exact (prefix_append acc [y]).trans (ih _)

theorem nodup_appendMissing {acc : List α} (h : acc.Nodup) (more : List α) :
    (appendMissing acc more).Nodup := by
  induction more generalizing acc with
  | nil => exact h
  | cons y rest ih =>
    rw [appendMissing]
    split
    · exact ih h
    · next hy =>
      refine ih (nodup_append.mpr ⟨h, nodup_singleton y, ?_⟩)
      rintro a ha b hb rfl
      rw [mem_singleton] at hb
      exact hy (hb ▸ ha)

theorem appendMissing_append (acc xs ys : List α) :
    appendMissing acc (xs ++ ys) = appendMissing (appendMissing acc xs) ys := by
  induction xs generalizing acc with
  | nil => rfl
  | cons x rest ih => exact ih _

end Taomni

/-!
# Removal by swapping

`swapRemove l index` removes one element of a list and puts the last one in its place, in constant
time on an array. Apart from the removed element the list keeps its elements.
-/

namespace Taomni

open List

variable {α : Type*}

/-- `Vec::swap_remove`: the last element takes the place of the removed one. -/
def swapRemove (l : List α) (index : ℕ) : List α :=
  match l.getLast? with
  | some last => (l.set index last).dropLast
  | none => []

theorem length_swapRemove (l : List α) (index : ℕ) : (swapRemove l index).length = l.length - 1 := by
  rw [swapRemove]
  split
  · rw [length_dropLast, length_set]
  · next h => rw [List.getLast?_eq_none_iff.mp h]; rfl

theorem mem_of_mem_swapRemove {l : List α} {index : ℕ} {x : α} (h : x ∈ swapRemove l index) : x ∈ l := by
  rw [swapRemove] at h
  split at h
  · next last hlast =>
    rcases mem_or_eq_of_mem_set (dropLast_subset _ h) with hx | rfl
    · exact hx
    · exact mem_of_getLast? hlast
  · cases h

/-- Only the removed element is gone. -/
theorem mem_swapRemove {l : List α} {index : ℕ} {removed x : α} (hremoved : l[index]? = some removed)
    (hx : x ∈ l) : x = removed ∨ x ∈ swapRemove l index := by
  obtain ⟨init, last, rfl⟩ := (eq_nil_or_concat' l).resolve_left (ne_nil_of_mem hx)
  rw [swapRemove, getLast?_concat]
  dsimp only
  obtain ⟨i, hi, rfl⟩ := List.mem_iff_getElem.mp hx
  obtain ⟨hindex, hget⟩ := List.getElem?_eq_some_iff.mp hremoved
  by_cases heq : i = index
  · subst heq
    exact .inl hget
  right
  rw [length_append, length_singleton] at hi hindex
  by_cases hlast : i = init.length
  · -- the last element now stands at the place of the removed one
    subst hlast
    rw [getElem_concat_length rfl, set_append_left _ _ (by omega), dropLast_concat]
    exact mem_set (by omega) _
  · rw [getElem_append_left (by omega)]
    by_cases hinit : index < init.length
    · rw [set_append_left _ _ hinit, dropLast_concat]
      rw [← getElem_set_ne (Ne.symm heq) (a := last) (by rw [length_set]; omega)]
      exact getElem_mem _
    · rw [set_append_right _ _ (by omega), show index - init.length = 0 by omega,
        set_cons_zero, dropLast_concat]
      exact getElem_mem _

end Taomni

/-!
# Stable sorts

`List.insertionSort` by a total preorder is stable: elements that the order does not tell apart stay in
the order of the list. So a relation that holds from whichever of two elements goes first holds along the
sorted list (`pairwise_insertionSort_of_first`).
-/

namespace Taomni

open List

variable {β : Type*} (r : β → β → Prop) [DecidableRel r]

/-- A stable sort keeps the order among elements it does not tell apart. -/
theorem filter_insertionSort (p : β → Bool) (l : List β)
    (h : ∀ a b, p a = true → p b = true → r a b) : (l.insertionSort r).filter p = l.filter p := by
  have hsorted : (l.filter p).Pairwise r :=
    pairwise_filter.mpr (pairwise_of_forall fun a b => h a b)
  have hsublist := (sublist_insertionSort hsorted filter_sublist).filter p
  rw [filter_filter] at hsublist
  simp only [Bool.and_self] at hsublist
  exact (hsublist.eq_of_length ((perm_insertionSort r l).filter p).length_eq.symm).symm

variable {r}

variable {l : List β} {q : β → β → Prop}

theorem pairwise_orderedInsert_of_first [IsTrans β r] {a : β}
    (hsorted : l.Pairwise r) (hl : l.Pairwise q) (h : ∀ b ∈ l, if r a b then q a b else q b a) :
    (l.orderedInsert r a).Pairwise q := by
  induction l with
  | nil => exact pairwise_singleton q a
  | cons b l ih =>
    obtain ⟨hfirst, hrest⟩ := List.pairwise_cons.mp hsorted
    obtain ⟨hqfirst, hqrest⟩ := List.pairwise_cons.mp hl
    rw [orderedInsert_cons]
    split
    · next hab =>
      refine List.pairwise_cons.mpr ⟨fun c hc => ?_, hl⟩
      have hac : r a c := (mem_cons.mp hc).elim (fun heq => heq ▸ hab)
        fun hc => IsTrans.trans _ _ _ hab (hfirst c hc)
      have hq := h c hc
      rwa [if_pos hac] at hq
    · next hab =>
      refine List.pairwise_cons.mpr ⟨fun c hc => ?_,
        ih hrest hqrest fun c hc => h c (mem_cons_of_mem b hc)⟩
      rcases (mem_orderedInsert r).mp hc with rfl | hc
      · have hq := h b mem_cons_self
        rwa [if_neg hab] at hq
      · exact hqfirst c hc

/-- What holds from the one of two elements that goes first holds along the sorted list. -/
theorem pairwise_insertionSort_of_first [Std.Total r] [IsTrans β r]
    (h : l.Pairwise fun a b => if r a b then q a b else q b a) : (l.insertionSort r).Pairwise q := by
  induction l with
  | nil => exact List.Pairwise.nil
  | cons a l ih =>
    obtain ⟨hfirst, hrest⟩ := List.pairwise_cons.mp h
    exact pairwise_orderedInsert_of_first (pairwise_insertionSort r l) (ih hrest)
      fun b hb => hfirst b ((mem_insertionSort r).mp hb)

/-! ## What stands at the front -/

/-- Along a list sorted by a class, the front takes the elements of one class after those of the classes
before it. -/
theorem filter_take_of_sorted {c : β → ℕ} (h : l.Pairwise fun a b => c a ≤ c b) (i n : ℕ) :
    (l.take n).filter (fun a => c a = i) =
      (l.filter fun a => c a = i).take (n - (l.filter fun a => c a < i).length) := by
  induction l generalizing n with
  | nil => simp
  | cons a l ih =>
    obtain ⟨hfirst, hrest⟩ := List.pairwise_cons.mp h
    cases n with
    | zero => simp
    | succ n =>
      rw [take_succ_cons]
      rcases Nat.lt_trichotomy (c a) i with hlt | heq | hgt
      · have hskip (l : List β) : (a :: l).filter (fun a => c a = i) = l.filter fun a => c a = i :=
          filter_cons_of_neg (by simpa using hlt.ne)
        have hcount : (a :: l).filter (fun a => c a < i) = a :: l.filter fun a => c a < i :=
          filter_cons_of_pos (by simpa using hlt)
        rw [hskip, hskip, hcount, length_cons, Nat.add_sub_add_right]
        exact ih hrest n
      · have hkeep (l : List β) :
            (a :: l).filter (fun a => c a = i) = a :: l.filter fun a => c a = i :=
          filter_cons_of_pos (by simpa using heq)
        have hnone : l.filter (fun b => c b < i) = [] :=
          filter_eq_nil_iff.mpr fun b hb => by simpa [heq] using hfirst b hb
        have hskip : (a :: l).filter (fun a => c a < i) = [] := by
          rw [filter_cons_of_neg (by simpa using heq.ge), hnone]
        have htail := ih hrest n
        rw [hnone, length_nil, Nat.sub_zero] at htail
        rw [hkeep, hkeep, hskip, length_nil, Nat.sub_zero, take_succ_cons, htail]
      · have hnone : ∀ b ∈ a :: l, ¬c b = i := forall_mem_cons.mpr
          ⟨hgt.ne', fun b hb => ((hgt.trans_le (hfirst b hb)).ne')⟩
        have hempty : (a :: l).filter (fun a => c a = i) = [] :=
          filter_eq_nil_iff.mpr fun b hb => by simpa using hnone b hb
        rw [hempty, take_nil]
        refine filter_eq_nil_iff.mpr fun b hb => ?_
        have hmem : b ∈ a :: l := (mem_cons.mp hb).elim (fun h => h ▸ mem_cons_self)
          fun hb => mem_cons_of_mem a (mem_of_mem_take hb)
        simpa using hnone b hmem

/-- Where each element precedes those behind it, the front of length `n` holds what fewer than `n`
elements precede. -/
theorem mem_take_iff_countP_lt [DecidableRel q]
    (hq : l.Pairwise q) (hasymm : ∀ a b, q a b → ¬q b a) (hnodup : l.Nodup) {a : β} (n : ℕ)
    (ha : a ∈ l) : a ∈ l.take n ↔ l.countP (fun b => q b a) < n := by
  obtain ⟨front, rest, rfl⟩ := append_of_mem ha
  obtain ⟨-, hrest, hcross⟩ := pairwise_append.mp hq
  have hbefore : front.countP (fun b => q b a) = front.length :=
    List.countP_eq_length.mpr fun b hb => by simpa using hcross b hb a mem_cons_self
  have hself : ¬q a a := fun h => hasymm a a h h
  have hafter : rest.countP (fun b => q b a) = 0 :=
    countP_eq_zero.mpr fun b hb => by
      simpa using hasymm a b ((List.pairwise_cons.mp hrest).1 b hb)
  rw [countP_append, countP_cons, hbefore, hafter, if_neg (by simpa using hself),
    Nat.zero_add, Nat.add_zero]
  have hnot : a ∉ front := fun hmem =>
    (disjoint_of_nodup_append hnodup) hmem mem_cons_self
  rw [take_append, mem_append, or_iff_right fun h => hnot (mem_of_mem_take h)]
  constructor
  · intro h
    by_contra hle
    rw [Nat.sub_eq_zero_of_le (Nat.le_of_not_lt hle), take_zero] at h
    exact not_mem_nil h
  · intro hlt
    obtain ⟨m, hm⟩ := Nat.exists_eq_succ_of_ne_zero (Nat.sub_ne_zero_of_lt hlt)
    rw [hm, take_succ_cons]
    exact mem_cons_self

end Taomni

/-!
# Greedy scans

The items are taken one after the other until the state says stop. What is settled stays settled, so a
scan that goes through settles all items (`scanUntil_settles`).
-/

namespace Taomni

open List

variable {ι σ : Type*} (stop : σ → Prop) [DecidablePred stop] (step : σ → ι → σ)

def scanUntil : σ → List ι → σ
  | s, [] => s
  | s, i :: items => if stop s then s else scanUntil (step s i) items

variable {stop step} {P : σ → Prop}

/-- What every step keeps. -/
theorem scanUntil_induct {items : List ι}
    (hstep : ∀ s, ∀ i ∈ items, P s → ¬ stop s → P (step s i)) {s : σ} (hs : P s) :
    P (scanUntil stop step s items) := by
  induction items generalizing s with
  | nil => exact hs
  | cons i items ih =>
    rw [scanUntil]
    by_cases hstop : stop s
    · rwa [if_pos hstop]
    · rw [if_neg hstop]
      exact ih (fun s j hj => hstep s j (mem_cons_of_mem _ hj))
        (hstep s i mem_cons_self hs hstop)

/-- Each item is settled when it is taken, and stays so. -/
theorem scanUntil_settles {Settled : ι → σ → Prop} {items : List ι}
    (hstep : ∀ s, ∀ i ∈ items, P s → ¬ stop s → P (step s i))
    (hsettle : ∀ s, ∀ i ∈ items, P s → ¬ stop s → Settled i (step s i))
    (hkeep : ∀ s, ∀ i ∈ items, ∀ j, P s → ¬ stop s → Settled j s → Settled j (step s i)) {s : σ}
    (hs : P s) :
    stop (scanUntil stop step s items) ∨ ∀ i ∈ items, Settled i (scanUntil stop step s items) := by
  induction items generalizing s with
  | nil => exact .inr nofun
  | cons i items ih =>
    rw [scanUntil]
    by_cases hstop : stop s
    · rw [if_pos hstop]
      exact .inl hstop
    · rw [if_neg hstop]
      have hrest : ∀ s, ∀ j ∈ items, P s → ¬ stop s → P (step s j) := fun s j hj =>
        hstep s j (mem_cons_of_mem _ hj)
      have hnext := hstep s i mem_cons_self hs hstop
      refine (ih hrest (fun s j hj => hsettle s j (mem_cons_of_mem _ hj))
        (fun s j hj => hkeep s j (mem_cons_of_mem _ hj)) hnext).imp_right fun hsettled => ?_
      refine forall_mem_cons.mpr ⟨?_, hsettled⟩
      have hboth : P (scanUntil stop step (step s i) items) ∧
          Settled i (scanUntil stop step (step s i) items) := by
        refine scanUntil_induct (P := fun s => P s ∧ Settled i s) (fun s j hj hs hstop => ?_)
          ⟨hnext, hsettle s i mem_cons_self hs hstop⟩
        exact ⟨hrest s j hj hs.1 hstop, hkeep s j (mem_cons_of_mem _ hj) i hs.1 hstop hs.2⟩
      exact hboth.2

end Taomni
