import Mathlib.Data.List.Basic

/-!
# Incremental decoders

A decoder keeps what has arrived and has not been used. A round looks at it: it asks for more, drops
something from the front, takes an item off the front, or faults. `Drains` runs rounds until more is
asked for. If what comes later never changes what a round has found (`Incremental`), then it does not
matter where the input is cut (`Drains.append`).
-/

namespace Taomni

variable {β V : Type*}

/-- What one round makes of the buffer. -/
inductive Round (β V : Type*) where
  | more
  | skip (rest : List β)
  | item (v : V) (rest : List β)
  | fault
deriving DecidableEq

namespace Round

/-- The buffer after the round. -/
def rest : Round β V → Option (List β)
  | skip rest => some rest
  | item _ rest => some rest
  | _ => none

/-- The round with more behind the buffer. -/
def push (later : List β) : Round β V → Round β V
  | more => more
  | skip rest => skip (rest ++ later)
  | item v rest => item v (rest ++ later)
  | fault => fault

end Round

/-- A round uses up a part of the buffer, and finds the same with more behind it. -/
structure Incremental (round : List β → Round β V) : Prop where
  length_lt : ∀ {buffer rest}, (round buffer).rest = some rest → rest.length < buffer.length
  append : ∀ {buffer} later, round buffer ≠ .more →
    round (buffer ++ later) = (round buffer).push later

theorem Incremental.append_eq {round : List β → Round β V} (hinc : Incremental round)
    {buffer later : List β} {r : Round β V} (h : round buffer = r) (hne : r ≠ .more) :
    round (buffer ++ later) = r.push later := by
  rw [hinc.append later (h ▸ hne), h]

/-- Rounds until more is asked for: the items, what is left, and whether there was a fault. -/
inductive Drains (round : List β → Round β V) : List β → List V → List β → Bool → Prop where
  | more {buffer} : round buffer = .more → Drains round buffer [] buffer false
  | fault {buffer} : round buffer = .fault → Drains round buffer [] buffer true
  | skip {buffer rest vs left faulted} : round buffer = .skip rest →
      Drains round rest vs left faulted → Drains round buffer vs left faulted
  | item {buffer v rest vs left faulted} : round buffer = .item v rest →
      Drains round rest vs left faulted → Drains round buffer (v :: vs) left faulted

namespace Drains

variable {round : List β → Round β V} {buffer later left left' : List β} {vs ws : List V}
  {faulted faulted' : Bool}

theorem unique (h : Drains round buffer vs left faulted) (h' : Drains round buffer ws left' faulted') :
    vs = ws ∧ left = left' ∧ faulted = faulted' := by
  induction h generalizing ws left' faulted' with
  | more hround => cases h' <;> simp_all only [reduceCtorEq, and_self]
  | fault hround => cases h' <;> simp_all only [reduceCtorEq, and_self]
  | skip hround _ ih =>
    cases h' with
    | skip hround' h' =>
      cases hround.symm.trans hround'
      exact ih h'
    | _ hround' => cases hround.symm.trans hround'
  | item hround _ ih =>
    cases h' with
    | item hround' h' =>
      cases hround.symm.trans hround'
      obtain ⟨rfl, hrest⟩ := ih h'
      exact ⟨rfl, hrest⟩
    | _ hround' => cases hround.symm.trans hround'

/-- More is asked for in the end. -/
theorem round_left (h : Drains round buffer vs left false) : round left = .more := by
  generalize hfalse : false = faulted at h
  induction h with
  | more hround => exact hround
  | fault hround => cases hfalse
  | skip _ _ ih => exact ih hfalse
  | item _ _ ih => exact ih hfalse

/-- Where nothing faults, the later input is drained with what was left. -/
theorem append (hinc : Incremental round) (h : Drains round buffer vs left false)
    (hlater : Drains round (left ++ later) ws left' faulted') :
    Drains round (buffer ++ later) (vs ++ ws) left' faulted' := by
  generalize hfalse : false = faulted at h
  induction h with
  | more hround => exact hlater
  | fault hround => cases hfalse
  | skip hround _ ih => exact .skip (hinc.append_eq hround nofun) (ih hlater hfalse)
  | item hround _ ih => exact .item (hinc.append_eq hround nofun) (ih hlater hfalse)

/-- A fault is not undone by what comes later. -/
theorem append_of_fault (hinc : Incremental round) (h : Drains round buffer vs left true)
    (later : List β) : Drains round (buffer ++ later) vs (left ++ later) true := by
  generalize htrue : true = faulted at h
  induction h with
  | more hround => cases htrue
  | fault hround => exact .fault (hinc.append_eq hround nofun)
  | skip hround _ ih => exact .skip (hinc.append_eq hround nofun) (ih htrue)
  | item hround _ ih => exact .item (hinc.append_eq hround nofun) (ih htrue)

end Drains

/-- Draining always comes to an end. -/
theorem Incremental.exists_drains {round : List β → Round β V} (hinc : Incremental round)
    (buffer : List β) : ∃ vs left faulted, Drains round buffer vs left faulted := by
  induction hlength : buffer.length using Nat.strongRecOn generalizing buffer with
  | ind n ih =>
    subst hlength
    cases hround : round buffer with
    | more => exact ⟨_, _, _, .more hround⟩
    | fault => exact ⟨_, _, _, .fault hround⟩
    | skip rest =>
      have hlt := hinc.length_lt (hround ▸ rfl : (round buffer).rest = some rest)
      obtain ⟨vs, left, faulted, h⟩ := ih _ hlt rest rfl
      exact ⟨vs, left, faulted, .skip hround h⟩
    | item v rest =>
      have hlt := hinc.length_lt (hround ▸ rfl : (round buffer).rest = some rest)
      obtain ⟨vs, left, faulted, h⟩ := ih _ hlt rest rfl
      exact ⟨v :: vs, left, faulted, .item hround h⟩

end Taomni
