import Mathlib.Data.List.Pairwise
import Taomni.Common.Splice

/-!
# Positioned writes

`writeAt zero xs p ys` is a write at a position of an array, `setLen zero xs n` cuts or pads it. `AgreeOn xs ys p q`
says that two arrays have the same elements from `p` to `q`. A copy into which slices of the original
are written at their own places, in whatever order and as often as one likes, agrees with it wherever
it was written (`AgreeOn.writeAt_slice`) and loses no agreement (`AgreeOn.writeAt`).
-/

namespace Taomni

open List

variable {α : Type*}

/-! ## Writes -/

/-- Past the end the gap is filled with `zero`. -/
def writeAt (zero : α) (xs : List α) (p : ℕ) (ys : List α) : List α :=
  xs.take p ++ List.replicate (p - xs.length) zero ++ ys ++ xs.drop (p + ys.length)

def setLen (zero : α) (xs : List α) (n : ℕ) : List α :=
  xs.take n ++ List.replicate (n - xs.length) zero

variable (zero : α)

@[simp] theorem length_setLen (xs : List α) (n : ℕ) : (setLen zero xs n).length = n := by
  rw [setLen, length_append, length_take, length_replicate]
  omega

theorem writeAt_eq {xs ys : List α} {p : ℕ} (h : p + ys.length ≤ xs.length) :
    writeAt zero xs p ys = xs.take p ++ ys ++ xs.drop (p + ys.length) := by
  have hgap : p - xs.length = 0 := by omega
  rw [writeAt, hgap, replicate_zero, append_nil]

/-- A write inside the array does not change its length. -/
theorem length_writeAt {xs ys : List α} {p : ℕ} (h : p + ys.length ≤ xs.length) :
    (writeAt zero xs p ys).length = xs.length := by
  rw [writeAt_eq zero h, length_append, length_append, length_take, length_drop]
  omega

/-- A range of an array written over. -/
theorem getElem?_take_append_drop {xs ys : List α} {p : ℕ} (h : p + ys.length ≤ xs.length) (k : ℕ) :
    (xs.take p ++ ys ++ xs.drop (p + ys.length))[k]?
      = if p ≤ k ∧ k < p + ys.length then ys[k - p]? else xs[k]? := by
  have hp : (xs.take p).length = p := length_take_of_le (by omega)
  rw [append_assoc]
  by_cases hbefore : k < p
  · rw [getElem?_append_left (by omega), getElem?_take_of_lt hbefore, if_neg (by omega)]
  rw [getElem?_append_right (by omega), hp]
  by_cases hin : k < p + ys.length
  · rw [getElem?_append_left (by omega), if_pos ⟨by omega, hin⟩]
  · rw [getElem?_append_right (by omega), getElem?_drop, if_neg (by omega)]
    congr 1
    omega

theorem getElem?_writeAt {xs ys : List α} {p : ℕ} (h : p + ys.length ≤ xs.length) (k : ℕ) :
    (writeAt zero xs p ys)[k]? = if p ≤ k ∧ k < p + ys.length then ys[k - p]? else xs[k]? := by
  rw [writeAt_eq zero h, getElem?_take_append_drop h]

/-! ## Agreement -/

/-- The same elements from `p` to `q`. -/
def AgreeOn (xs ys : List α) (p q : ℕ) : Prop := ∀ k, p ≤ k → k < q → xs[k]? = ys[k]?

theorem getElem?_slice (xs : List α) (p q k : ℕ) :
    (slice xs p q)[k]? = if k < q - p then xs[p + k]? else none := by
  rw [slice, getElem?_take]
  split
  · rw [getElem?_drop]
  · rfl

theorem agreeOn_iff_slice {xs ys : List α} {p q : ℕ} :
    AgreeOn xs ys p q ↔ slice xs p q = slice ys p q := by
  constructor
  · intro h
    apply ext_getElem?
    intro k
    rw [getElem?_slice, getElem?_slice]
    split
    · exact h (p + k) (by omega) (by omega)
    · rfl
  · intro h k hp hq
    have hk := congrArg (·[k - p]?) h
    simp only [getElem?_slice] at hk
    rw [if_pos (by omega), if_pos (by omega)] at hk
    have hsum : p + (k - p) = k := by omega
    rwa [hsum] at hk

/-- What a list begins with from `p` on is a slice of it. -/
theorem eq_slice_of_prefix {xs ys : List α} {p : ℕ} (h : ys <+: xs.drop p) :
    ys = slice xs p (p + ys.length) := by
  rw [slice, Nat.add_sub_cancel_left]
  exact List.prefix_iff_eq_take.mp h

namespace AgreeOn

variable {xs ys : List α} {p q r : ℕ}

theorem empty (xs ys : List α) (p : ℕ) : AgreeOn xs ys p p := by
  intro k hp hq
  omega

/-- Neighbouring ranges join. -/
theorem append (hpq : AgreeOn xs ys p q) (hqr : AgreeOn xs ys q r) : AgreeOn xs ys p r := by
  intro k hp hr
  by_cases hk : k < q
  · exact hpq k hp hk
  · exact hqr k (by omega) hr

theorem eq_of_length (h : AgreeOn xs ys 0 ys.length) (hlength : xs.length = ys.length) : xs = ys := by
  apply ext_getElem?
  intro k
  by_cases hk : k < ys.length
  · exact h k (Nat.zero_le k) hk
  · rw [getElem?_eq_none (by omega), getElem?_eq_none (by omega)]

/-- A slice of the original at its own place agrees with it there. -/
theorem writeAt_slice (hx : q ≤ xs.length) (hy : q ≤ ys.length) (hpq : p ≤ q) :
    AgreeOn (writeAt zero xs p (slice ys p q)) ys p q := by
  have hlength := length_slice ys (p := p) hy
  intro k hp hq
  rw [getElem?_writeAt zero (by omega), if_pos (by omega), getElem?_slice, if_pos (by omega)]
  congr 1
  omega

/-- A slice of the original at its own place costs no agreement. -/
theorem writeAt {a b : ℕ} (h : AgreeOn xs ys a b) (zero : α) (hx : q ≤ xs.length)
    (hy : q ≤ ys.length) (hpq : p ≤ q) : AgreeOn (writeAt zero xs p (slice ys p q)) ys a b := by
  have hlength := length_slice ys (p := p) hy
  intro k ha hb
  by_cases hk : p ≤ k ∧ k < q
  · exact writeAt_slice zero hx hy hpq k hk.1 hk.2
  · rw [getElem?_writeAt zero (by omega), if_neg (by omega)]
    exact h k ha hb

end AgreeOn

end Taomni

/-!
# Copies inside one array

A move copies a range of an array to another place of the same array, as it was before the move, even
where the two overlap. Moves made one after another are one simultaneous copy of the array they
started from when no move writes what a later one reads, and no two write the same place
(`getElem?_runMoves`).
-/

namespace Taomni

open List

variable {α : Type*}

/-- `length` elements go from `start` to `dest`. -/
structure ArrayMove where
  start : ℕ
  dest : ℕ
  length : ℕ
deriving DecidableEq, Repr

variable {m : ArrayMove}

namespace ArrayMove

/-- The move reads position `k`. -/
def Reads (m : ArrayMove) (k : ℕ) : Prop := m.start ≤ k ∧ k < m.start + m.length

/-- The move writes position `k`. -/
def Writes (m : ArrayMove) (k : ℕ) : Prop := m.dest ≤ k ∧ k < m.dest + m.length

instance (m : ArrayMove) (k : ℕ) : Decidable (m.Writes k) := inferInstanceAs (Decidable (_ ∧ _))

/-- Both ranges lie in an array of `n` elements. -/
def Inside (m : ArrayMove) (n : ℕ) : Prop := m.start + m.length ≤ n ∧ m.dest + m.length ≤ n

instance (m : ArrayMove) (n : ℕ) : Decidable (m.Inside n) := inferInstanceAs (Decidable (_ ∧ _))

/-- `m` may come before `m'`: it leaves alone what `m'` reads, and what `m'` writes. -/
def Before (m m' : ArrayMove) : Prop := ∀ k, m.Writes k → ¬ m'.Reads k ∧ ¬ m'.Writes k

/-- Where the element written at `k` comes from. -/
def source (m : ArrayMove) (k : ℕ) : ℕ := m.start + (k - m.dest)

theorem reads_source {k : ℕ} (h : m.Writes k) : m.Reads (m.source k) := by
  obtain ⟨hle, hlt⟩ := h
  exact ⟨Nat.le_add_right _ _, by rw [source]; omega⟩

end ArrayMove

/-- `slice::copy_within`; a range that leaves the slice panics. -/
def copyWithin (xs : List α) (m : ArrayMove) : Option (List α) :=
  if m.Inside xs.length then
    some (xs.take m.dest ++ slice xs m.start (m.start + m.length) ++ xs.drop (m.dest + m.length))
  else none

/-- Moves one after another. -/
def runMoves (xs : List α) (moves : List ArrayMove) : Option (List α) := moves.foldlM copyWithin xs

/-- One move reads the array as it was. -/
theorem exists_copyWithin {xs : List α} (h : m.Inside xs.length) :
    ∃ ys, copyWithin xs m = some ys ∧ ys.length = xs.length ∧
      ∀ k, ys[k]? = if m.Writes k then xs[m.source k]? else xs[k]? := by
  obtain ⟨hstart, hdest⟩ := h
  have hlength : (slice xs m.start (m.start + m.length)).length = m.length := by
    rw [length_slice xs hstart, Nat.add_sub_cancel_left]
  refine ⟨_, if_pos ⟨hstart, hdest⟩, ?_, fun k => ?_⟩
  · rw [length_append, length_append, hlength, length_take, length_drop]
    omega
  have hwrite := getElem?_take_append_drop (hlength.symm ▸ hdest) k
  rw [hlength] at hwrite
  by_cases hk : m.Writes k
  · have hin : k - m.dest < m.start + m.length - m.start := by
      obtain ⟨hle, hlt⟩ := hk
      omega
    rw [hwrite, if_pos hk, getElem?_slice, if_pos hin]
    exact if_pos hk
  · rw [hwrite, if_neg hk]
    exact if_neg hk

theorem length_copyWithin {xs ys : List α} (h : copyWithin xs m = some ys) : ys.length = xs.length := by
  rw [copyWithin, Option.ite_none_right_eq_some] at h
  obtain ⟨zs, hzs, hlength, -⟩ := exists_copyWithin h.1
  rw [copyWithin, if_pos h.1] at hzs
  rw [← Option.some.inj h.2, Option.some.inj hzs, hlength]

theorem length_runMoves {xs ys : List α} {moves : List ArrayMove} (h : runMoves xs moves = some ys) :
    ys.length = xs.length := by
  induction moves generalizing xs with
  | nil => rw [← Option.some.inj h]
  | cons m rest ih =>
    obtain ⟨zs, hzs, hrest⟩ := Option.bind_eq_some_iff.mp h
    exact (ih hrest).trans (length_copyWithin hzs)

/-- In an order that is safe the moves are one simultaneous copy. -/
theorem getElem?_runMoves {xs : List α} {moves : List ArrayMove}
    (hinside : ∀ m ∈ moves, m.Inside xs.length) (hbefore : moves.Pairwise ArrayMove.Before) :
    ∃ ys, runMoves xs moves = some ys ∧ (∀ m ∈ moves, ∀ k, m.Writes k → ys[k]? = xs[m.source k]?) ∧
      ∀ k, (∀ m ∈ moves, ¬ m.Writes k) → ys[k]? = xs[k]? := by
  induction moves generalizing xs with
  | nil => exact ⟨xs, rfl, fun m hm => absurd hm not_mem_nil, fun _ _ => rfl⟩
  | cons m rest ih =>
    obtain ⟨hm, hrest⟩ := forall_mem_cons.mp hinside
    obtain ⟨hfirst, hbefore⟩ := List.pairwise_cons.mp hbefore
    obtain ⟨mid, hmid, hlength, hget⟩ := exists_copyWithin hm
    obtain ⟨ys, hys, hmoved, hkept⟩ := ih (hlength.symm ▸ hrest) hbefore
    refine ⟨ys, by rw [runMoves, foldlM_cons, hmid]; exact hys,
      forall_mem_cons.mpr ⟨fun k hk => ?_, fun m' hm' k hk => ?_⟩, fun k hk => ?_⟩
    · -- the later moves do not write here again
      rw [hkept k fun m' hm' => (hfirst m' hm' k hk).2, hget, if_pos hk]
    · -- and what they read is still as it was
      have hsource : ¬ m.Writes (m'.source k) := fun hwritten =>
        (hfirst m' hm' _ hwritten).1 (ArrayMove.reads_source hk)
      rw [hmoved m' hm' k hk, hget, if_neg hsource]
    · obtain ⟨hm, hrest⟩ := forall_mem_cons.mp hk
      rw [hkept k hrest, hget, if_neg hm]

end Taomni
