import Mathlib.Data.List.Infix

/-!
# Patterns with wildcards

A pattern has a letter for any text, a letter for any one letter, and a letter that makes the next one
stand for itself.
-/

namespace Taomni

/-- The letters of a pattern that do not stand for themselves. -/
structure Wildcards (α : Type) where
  many : α
  one : α
  escape : α
  many_ne_one : many ≠ one
  escape_ne_many : escape ≠ many
  escape_ne_one : escape ≠ one

variable {α : Type} {w : Wildcards α} {pattern text : List α}

def Wildcards.Special (w : Wildcards α) (c : α) : Prop := c = w.escape ∨ c = w.many ∨ c = w.one

instance [DecidableEq α] (w : Wildcards α) : DecidablePred w.Special :=
  fun c => inferInstanceAs (Decidable (c = w.escape ∨ c = w.many ∨ c = w.one))

/-- A text is like a pattern. -/
inductive Like (w : Wildcards α) : List α → List α → Prop
  | nil : Like w [] []
  | many (front : List α) {pattern text : List α} (h : Like w pattern text) :
    Like w (w.many :: pattern) (front ++ text)
  | one (c : α) {pattern text : List α} (h : Like w pattern text) : Like w (w.one :: pattern) (c :: text)
  | escaped (c : α) {pattern text : List α} (h : Like w pattern text) :
    Like w (w.escape :: c :: pattern) (c :: text)
  | letter {c : α} (hc : ¬w.Special c) {pattern text : List α} (h : Like w pattern text) :
    Like w (c :: pattern) (c :: text)

theorem like_many : Like w (w.many :: pattern) text ↔ ∃ front rest, text = front ++ rest ∧ Like w pattern rest := by
  refine ⟨fun h => ?_, fun ⟨front, rest, heq, h⟩ => heq ▸ .many front h⟩
  generalize hpattern : w.many :: pattern = whole at h
  cases h with
  | nil => cases hpattern
  | many front h =>
    obtain ⟨-, rfl⟩ := List.cons.inj hpattern
    exact ⟨front, _, rfl, h⟩
  | one c h => exact absurd (List.cons.inj hpattern).1 w.many_ne_one
  | escaped c h => exact absurd (List.cons.inj hpattern).1 w.escape_ne_many.symm
  | letter hc h => exact absurd (.inr (.inl (List.cons.inj hpattern).1.symm)) hc

theorem like_escaped {c : α} :
    Like w (w.escape :: c :: pattern) text ↔ ∃ rest, text = c :: rest ∧ Like w pattern rest := by
  refine ⟨fun h => ?_, fun ⟨rest, heq, h⟩ => heq ▸ .escaped c h⟩
  generalize hpattern : w.escape :: c :: pattern = whole at h
  cases h with
  | nil => cases hpattern
  | many front h => exact absurd (List.cons.inj hpattern).1 w.escape_ne_many
  | one d h => exact absurd (List.cons.inj hpattern).1 w.escape_ne_one
  | escaped d h =>
    obtain ⟨-, hrest⟩ := List.cons.inj hpattern
    obtain ⟨rfl, rfl⟩ := List.cons.inj hrest
    exact ⟨_, rfl, h⟩
  | letter hc h => exact absurd (.inl (List.cons.inj hpattern).1.symm) hc

theorem like_letter {c : α} (hc : ¬w.Special c) :
    Like w (c :: pattern) text ↔ ∃ rest, text = c :: rest ∧ Like w pattern rest := by
  refine ⟨fun h => ?_, fun ⟨rest, heq, h⟩ => heq ▸ .letter hc h⟩
  generalize hpattern : c :: pattern = whole at h
  cases h with
  | nil => cases hpattern
  | many front h => exact absurd (.inr (.inl (List.cons.inj hpattern).1)) hc
  | one d h => exact absurd (.inr (.inr (List.cons.inj hpattern).1)) hc
  | escaped d h => exact absurd (.inl (List.cons.inj hpattern).1) hc
  | letter hd h =>
    obtain ⟨rfl, rfl⟩ := List.cons.inj hpattern
    exact ⟨_, rfl, h⟩

/-! ## Texts in a pattern -/

variable [DecidableEq α]

/-- A text as a pattern that only it is like. -/
def escapeWildcards (w : Wildcards α) (text : List α) : List α :=
  text.flatMap fun c => if w.Special c then [w.escape, c] else [c]

theorem escapeWildcards_special {c : α} (h : w.Special c) (text : List α) :
    escapeWildcards w (c :: text) = w.escape :: c :: escapeWildcards w text := by
  rw [escapeWildcards, List.flatMap_cons, if_pos h]
  rfl

theorem escapeWildcards_letter {c : α} (h : ¬w.Special c) (text : List α) :
    escapeWildcards w (c :: text) = c :: escapeWildcards w text := by
  rw [escapeWildcards, List.flatMap_cons, if_neg h]
  rfl

theorem like_escapeWildcards_append {value : List α} :
    Like w (escapeWildcards w value ++ pattern) text ↔ ∃ rest, text = value ++ rest ∧ Like w pattern rest := by
  induction value generalizing text with
  | nil => exact ⟨fun h => ⟨text, rfl, h⟩, fun ⟨rest, heq, h⟩ => heq ▸ h⟩
  | cons c value ih =>
    have hstep : Like w (escapeWildcards w (c :: value) ++ pattern) text
        ↔ ∃ rest, text = c :: rest ∧ Like w (escapeWildcards w value ++ pattern) rest := by
      by_cases hc : w.Special c
      · rw [escapeWildcards_special hc]
        exact like_escaped
      · rw [escapeWildcards_letter hc]
        exact like_letter hc
    rw [hstep]
    constructor
    · rintro ⟨rest, rfl, h⟩
      obtain ⟨back, rfl, hback⟩ := ih.mp h
      exact ⟨back, rfl, hback⟩
    · rintro ⟨rest, rfl, h⟩
      exact ⟨value ++ rest, rfl, ih.mpr ⟨rest, rfl, h⟩⟩

/-- A text between two wildcards is looked for anywhere. -/
theorem like_containing {value : List α} :
    Like w (w.many :: (escapeWildcards w value ++ [w.many])) text ↔ value <:+: text := by
  rw [like_many]
  constructor
  · rintro ⟨front, rest, rfl, h⟩
    obtain ⟨back, rfl, -⟩ := like_escapeWildcards_append.mp h
    exact ⟨front, back, List.append_assoc front value back⟩
  · rintro ⟨front, back, rfl⟩
    refine ⟨front, value ++ back, List.append_assoc front value back, ?_⟩
    exact like_escapeWildcards_append.mpr ⟨back, rfl, like_many.mpr ⟨back, [], (List.append_nil back).symm, .nil⟩⟩

end Taomni
