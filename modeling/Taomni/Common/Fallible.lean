import Mathlib.Data.Option.Basic
import Mathlib.Tactic.TypeStar

/-!
# Computations that may fail

What a computation that succeeds says of its parts.
-/

namespace Taomni

open List

universe u

variable {ε ε' : Type*} {α β : Type u}

variable {x : Except ε α}

theorem exists_of_bind_eq_ok {f : α → Except ε β} {b : β}
    (h : x >>= f = .ok b) : ∃ a, x = .ok a ∧ f a = .ok b := by
  cases x with
  | error e => cases h
  | ok a => exact ⟨a, rfl, h⟩

theorem eq_error_of_bind {f : α → Except ε β} {e : ε} (h : x >>= f = .error e) :
    x = .error e ∨ ∃ a, x = .ok a ∧ f a = .error e := by
  cases x with
  | error e' => exact .inl (congrArg Except.error (Except.error.inj h))
  | ok a => exact .inr ⟨a, rfl, h⟩

theorem eq_ok_of_mapError {f : ε → ε'} {a : α} (h : x.mapError f = .ok a) : x = .ok a := by
  cases x with
  | error e => cases h
  | ok b => exact congrArg Except.ok (Except.ok.inj h)

/-! ## Over a list -/

theorem mapM_eq_pure {m : Type u → Type*} [Monad m] [LawfulMonad m] {α : Type*} {f : α → m β}
    {g : α → β} {l : List α} (h : ∀ a ∈ l, f a = pure (g a)) : l.mapM f = pure (l.map g) := by
  induction l with
  | nil => rfl
  | cons a l ih =>
    rw [mapM_cons, h a mem_cons_self, ih fun b hb => h b (mem_cons_of_mem a hb),
      pure_bind, pure_bind]
    rfl

theorem exists_mapM {α : Type*} {f : α → Option β} {l : List α} (h : ∀ a ∈ l, f a ≠ none) :
    ∃ bs, l.mapM f = some bs := by
  induction l with
  | nil => exact ⟨[], rfl⟩
  | cons a l ih =>
    obtain ⟨b, hb⟩ := Option.ne_none_iff_exists'.mp (h a mem_cons_self)
    obtain ⟨bs, hbs⟩ := ih fun b hb => h b (mem_cons_of_mem a hb)
    exact ⟨b :: bs, by rw [mapM_cons, hb, hbs]; rfl⟩

theorem length_mapM {α : Type*} {f : α → Option β} {l : List α} {bs : List β}
    (h : l.mapM f = some bs) : bs.length = l.length := by
  induction l generalizing bs with
  | nil =>
    cases h
    rfl
  | cons a l ih =>
    rw [mapM_cons] at h
    obtain ⟨b, -, h⟩ := Option.bind_eq_some_iff.mp h
    obtain ⟨bs, hbs, h⟩ := Option.bind_eq_some_iff.mp h
    rw [← Option.some.inj h, length_cons, length_cons, ih hbs]

theorem mapM_eq_none {α : Type*} {f : α → Option β} {l : List α} (h : ∃ a ∈ l, f a = none) :
    l.mapM f = none := by
  induction l with
  | nil =>
    obtain ⟨a, ha, -⟩ := h
    cases ha
  | cons b l ih =>
    obtain ⟨a, ha, hnone⟩ := h
    rw [mapM_cons]
    rcases mem_cons.mp ha with rfl | ha
    · rw [hnone]
      rfl
    · rw [ih ⟨a, ha, hnone⟩]
      cases f b <;> rfl

end Taomni
