import Mathlib.Data.List.Basic

/-!
# Fates

A history variable for queues: every item that ever entered, oldest first, with what became of it.
Items are settled from the front of those still waiting, so the received ones are in order as long as
no item is received that stands behind a waiting one (`InOrder`).
-/

namespace Taomni

open List

inductive Fate where
  | waiting | received | cleared | dropped
deriving DecidableEq, Repr

/-- The items that entered a queue with their fates. -/
abbrev Ledger (α : Type*) := List (α × Fate)

namespace Ledger

variable {α : Type*}

def enter (l : Ledger α) (x : α) : Ledger α := l ++ [(x, .waiting)]

/-- The items with one fate, in order. -/
def withFate (fate : Fate) (l : Ledger α) : List α :=
  l.filterMap fun e => if e.2 = fate then some e.1 else none

abbrev waiting (l : Ledger α) : List α := l.withFate .waiting

/-- The oldest waiting item gets its fate. -/
@[grind =] def settle (fate : Fate) : Ledger α → Ledger α
  | [] => []
  | (x, .waiting) :: rest => (x, fate) :: rest
  | e :: rest => e :: settle fate rest

variable (fate : Fate)

@[simp] theorem withFate_append (l m : Ledger α) :
    withFate fate (l ++ m) = withFate fate l ++ withFate fate m := filterMap_append

theorem withFate_cons (e : α × Fate) (l : Ledger α) :
    withFate fate (e :: l) = if e.2 = fate then e.1 :: withFate fate l else withFate fate l := by
  rw [withFate, filterMap_cons]
  split <;> (next h => split at h <;> simp_all [withFate])

theorem withFate_enter (l : Ledger α) (x : α) :
    (l.enter x).withFate fate = if fate = .waiting then l.withFate fate ++ [x] else l.withFate fate := by
  rw [enter, withFate_append, withFate_cons]
  by_cases h : fate = .waiting
  · rw [if_pos h, if_pos h.symm]
    rfl
  · rw [if_neg h, if_neg (Ne.symm h)]
    exact append_nil _

theorem waiting_enter (l : Ledger α) (x : α) : (l.enter x).waiting = l.waiting ++ [x] := by
  rw [waiting, withFate_enter, if_pos rfl]

theorem map_fst_enter (l : Ledger α) (x : α) :
    (l.enter x).map Prod.fst = l.map Prod.fst ++ [x] := map_append

theorem settle_cons_of_ne {e : α × Fate} (h : e.2 ≠ .waiting) (fate : Fate) (l : Ledger α) :
    settle fate (e :: l) = e :: settle fate l := by
  obtain ⟨x, f⟩ := e
  cases f with
  | waiting => exact absurd rfl h
  | received => rfl
  | cleared => rfl
  | dropped => rfl

theorem map_fst_settle (l : Ledger α) : (l.settle fate).map Prod.fst = l.map Prod.fst := by
  induction l with
  | nil => rfl
  | cons e rest ih =>
    obtain ⟨x, f⟩ := e
    by_cases h : f = .waiting
    · subst h
      rfl
    · rw [settle_cons_of_ne h, map_cons, map_cons, ih]

/-- The oldest item waits no longer. -/
theorem waiting_settle {fate : Fate} (hfate : fate ≠ .waiting) (l : Ledger α) :
    (l.settle fate).waiting = l.waiting.tail := by
  induction l with
  | nil => rfl
  | cons e rest ih =>
    obtain ⟨x, f⟩ := e
    by_cases h : f = .waiting
    · subst h
      rw [settle, waiting, withFate_cons, if_neg hfate, waiting, withFate_cons, if_pos rfl,
        tail_cons]
    · rw [settle_cons_of_ne h, waiting, withFate_cons, if_neg h, waiting, withFate_cons, if_neg h]
      exact ih

theorem withFate_settle_of_ne {fate other : Fate} (hother : other ≠ .waiting)
    (hne : other ≠ fate) (l : Ledger α) : (l.settle fate).withFate other = l.withFate other := by
  induction l with
  | nil => rfl
  | cons e rest ih =>
    obtain ⟨x, f⟩ := e
    by_cases h : f = .waiting
    · subst h
      rw [settle, withFate_cons, withFate_cons, if_neg (Ne.symm hne), if_neg (Ne.symm hother)]
    · rw [settle_cons_of_ne h, withFate_cons, withFate_cons, ih]

/-- No received item stands behind a waiting one. -/
def InOrder (l : Ledger α) : Prop :=
  l.Pairwise fun e f => e.2 = .waiting → f.2 ≠ .received

theorem inOrder_nil : InOrder ([] : Ledger α) := List.Pairwise.nil

variable {l : Ledger α}

/-- An item that enters is not received yet. -/
theorem InOrder.append_singleton (h : l.InOrder) {e : α × Fate}
    (he : e.2 ≠ .received) : InOrder (l ++ [e]) := by
  refine pairwise_append.mpr ⟨h, pairwise_singleton _ _, ?_⟩
  intro a _ b hb _
  rwa [mem_singleton.mp hb]

/-- The settled item was waiting. -/
theorem mem_settle {fate : Fate} {e : α × Fate} (h : e ∈ l.settle fate) :
    e ∈ l ∨ e.2 = fate ∧ (e.1, .waiting) ∈ l := by
  induction l with
  | nil => cases h
  | cons a rest ih =>
    obtain ⟨x, f⟩ := a
    by_cases hf : f = .waiting
    · subst hf
      rcases mem_cons.mp h with rfl | h
      · exact .inr ⟨rfl, mem_cons_self⟩
      · exact .inl (mem_cons_of_mem _ h)
    · rw [settle_cons_of_ne hf] at h
      rcases mem_cons.mp h with rfl | h
      · exact .inl mem_cons_self
      · exact (ih h).imp (mem_cons_of_mem _) fun h => ⟨h.1, mem_cons_of_mem _ h.2⟩

theorem InOrder.settle (h : l.InOrder) {fate : Fate} (hfate : fate ≠ .waiting) :
    (l.settle fate).InOrder := by
  induction l with
  | nil => exact h
  | cons e rest ih =>
    obtain ⟨x, f⟩ := e
    obtain ⟨hhead, hrest⟩ := List.pairwise_cons.mp h
    by_cases hf : f = .waiting
    · subst hf
      exact List.pairwise_cons.mpr ⟨fun _ _ hwaiting => absurd hwaiting hfate, hrest⟩
    · rw [settle_cons_of_ne hf]
      exact List.pairwise_cons.mpr ⟨fun _ _ hwaiting => absurd hwaiting hf, ih hrest⟩

private theorem withFate_received_of_forall (h : ∀ e ∈ l, e.2 ≠ .received) :
    l.withFate .received = [] := by
  refine List.filterMap_eq_nil_iff.mpr fun e he => ?_
  exact if_neg (h e he)

/-- In an ordered ledger the item received next comes after all that were received. -/
theorem InOrder.withFate_settle_received (h : l.InOrder) :
    (l.settle .received).withFate .received = l.withFate .received ++ l.waiting.head?.toList := by
  induction l with
  | nil => rfl
  | cons e rest ih =>
    obtain ⟨x, f⟩ := e
    obtain ⟨hhead, hrest⟩ := List.pairwise_cons.mp h
    by_cases hf : f = .waiting
    · subst hf
      have hnone := withFate_received_of_forall fun e he => hhead e he rfl
      rw [Ledger.settle, withFate_cons, withFate_cons, waiting, withFate_cons, if_pos rfl,
        if_neg Fate.noConfusion, if_pos rfl, hnone]
      rfl
    · rw [settle_cons_of_ne hf, withFate_cons, withFate_cons, waiting, withFate_cons, if_neg hf,
        ih hrest]
      split
      · rfl
      · rfl

/-- If nothing was dropped or cleared, what entered was received or still waits, in order. -/
theorem InOrder.map_fst (h : l.InOrder) (hkept : ∀ e ∈ l, e.2 = .waiting ∨ e.2 = .received) :
    l.map Prod.fst = l.withFate .received ++ l.waiting := by
  induction l with
  | nil => rfl
  | cons e rest ih =>
    obtain ⟨hhead, hrest⟩ := List.pairwise_cons.mp h
    have hrec := ih hrest fun e he => hkept e (mem_cons_of_mem _ he)
    rw [map_cons, withFate_cons, waiting, withFate_cons, hrec]
    rcases hkept e mem_cons_self with he | he
    · rw [he, if_neg Fate.noConfusion, if_pos rfl,
        withFate_received_of_forall fun e' he' => hhead e' he' he]
      rfl
    · rw [he, if_pos rfl, if_neg Fate.noConfusion]
      rfl

end Ledger

end Taomni
