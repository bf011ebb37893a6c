import Mathlib.Data.List.Basic
import Mathlib.Order.Nat

/-!
# Slices and splices

A splice replaces one range of a list. `applySplices xs p q ss` rewrites the window from `p` to `q`
of `xs`; `Ordered p q ss` says that the splices lie in that window, in order and without overlap.
A window can be cut at any position between two splices (`applySplices_append`), and an ordered list
of splices is undone by its inverse (`applySplices_inverse`).
-/

namespace Taomni

open List

variable {α : Type*}

/-! ## Slices -/

/-- `xs.slice(p, q)`. -/
def slice (xs : List α) (p q : ℕ) : List α := (xs.drop p).take (q - p)

variable (xs : List α)

@[simp] theorem slice_self (p : ℕ) : slice xs p p = [] := by simp [slice]

variable {q : ℕ}

theorem length_slice {p : ℕ} (hq : q ≤ xs.length) : (slice xs p q).length = q - p := by
  rw [slice, length_take, length_drop]
  omega

/-- Neighbouring slices join. -/
theorem slice_append {p r : ℕ} (hpq : p ≤ q) (hqr : q ≤ r) :
    slice xs p q ++ slice xs q r = slice xs p r := by
  have hr : r - p = (q - p) + (r - q) := by omega
  have hq : xs.drop q = (xs.drop p).drop (q - p) := by
    rw [drop_drop]
    congr 1
    omega
  rw [slice, slice, slice, hr, take_add, hq]

theorem slice_length (p : ℕ) : slice xs p xs.length = xs.drop p := by
  rw [slice, take_of_length_le (by simp)]

/-- A list is cut at the ends of a slice. -/
theorem take_slice_drop {p : ℕ} (hpq : p ≤ q) : xs.take p ++ slice xs p q ++ xs.drop q = xs := by
  have hq : xs.drop q = (xs.drop p).drop (q - p) := by
    rw [drop_drop]
    congr 1
    omega
  rw [slice, hq, append_assoc, take_append_drop, take_append_drop]

/-! ## Splices -/

/-- Replace the range from `start` to `stop` by `insert`. -/
structure Splice (α : Type*) where
  start : ℕ
  stop : ℕ
  insert : List α
deriving DecidableEq, Repr

/-- Nothing is removed and nothing is inserted. -/
def Splice.IsNoop (s : Splice α) : Prop := s.start = s.stop ∧ s.insert = []

instance [DecidableEq α] : DecidablePred (@Splice.IsNoop α) :=
  fun _ => inferInstanceAs (Decidable (_ ∧ _))

/-- The splices lie between `p` and `q`, in order and without overlap. -/
def Ordered (p q : ℕ) : List (Splice α) → Prop
  | [] => p ≤ q
  | s :: rest => p ≤ s.start ∧ s.start ≤ s.stop ∧ Ordered s.stop q rest

instance decidableOrdered (p q : ℕ) : (ss : List (Splice α)) → Decidable (Ordered p q ss)
  | [] => inferInstanceAs (Decidable (p ≤ q))
  | s :: rest =>
      have : Decidable (Ordered s.stop q rest) := decidableOrdered s.stop q rest
      inferInstanceAs (Decidable (_ ∧ _ ∧ _))

/-- The window from `p` to `q` with its splices applied. -/
def applySplices (xs : List α) (p q : ℕ) : List (Splice α) → List α
  | [] => slice xs p q
  | s :: rest => slice xs p s.start ++ s.insert ++ applySplices xs s.stop q rest

variable {ss : List (Splice α)}

namespace Ordered

theorem le {p : ℕ} (h : Ordered p q ss) : p ≤ q := by
  induction ss generalizing p with
  | nil => exact h
  | cons s rest ih => exact Nat.le_trans (Nat.le_trans h.1 h.2.1) (ih h.2.2)

/-- The left end may move left. -/
theorem mono {p p' : ℕ} (h : Ordered p q ss) (hp : p' ≤ p) : Ordered p' q ss := by
  cases ss with
  | nil => exact Nat.le_trans hp h
  | cons s rest => exact ⟨Nat.le_trans hp h.1, h.2⟩

/-- The left end may move right up to the first splice. -/
theorem mono_left {p p' : ℕ} (h : Ordered p q ss) (hq : p' ≤ q)
    (hp : ∀ s ∈ ss.head?, p' ≤ s.start) : Ordered p' q ss := by
  cases ss with
  | nil => exact hq
  | cons s rest => exact ⟨hp s rfl, h.2⟩

theorem append {p r : ℕ} {ss ts : List (Splice α)} (hs : Ordered p q ss) (ht : Ordered q r ts) :
    Ordered p r (ss ++ ts) := by
  induction ss generalizing p with
  | nil => exact ht.mono hs
  | cons s rest ih => exact ⟨hs.1, hs.2.1, ih hs.2.2⟩

/-- Every splice ends inside the window. -/
theorem stop_le {p : ℕ} (h : Ordered p q ss) : ∀ s ∈ ss, s.stop ≤ q := by
  induction ss generalizing p with
  | nil => simp
  | cons s rest ih => exact forall_mem_cons.mpr ⟨h.2.2.le, ih h.2.2⟩

/-- Cut an ordered list at a position that no splice crosses. -/
theorem of_append {p r : ℕ} {ss ts : List (Splice α)} (h : Ordered p r (ss ++ ts)) (hpq : p ≤ q)
    (hqr : q ≤ r) (hs : ∀ s ∈ ss, s.stop ≤ q) (ht : ∀ t ∈ ts.head?, q ≤ t.start) :
    Ordered p q ss ∧ Ordered q r ts := by
  induction ss generalizing p with
  | nil => exact ⟨hpq, h.mono_left hqr ht⟩
  | cons s rest ih =>
    obtain ⟨hstop, hrest⟩ := forall_mem_cons.mp hs
    obtain ⟨hleft, hright⟩ := ih h.2.2 hstop hrest
    exact ⟨⟨h.1, h.2.1, hleft⟩, hright⟩

end Ordered

/-- A window may be cut where no splice crosses. -/
theorem applySplices_append {p r : ℕ} {ss ts : List (Splice α)}
    (hs : Ordered p q ss) (ht : Ordered q r ts) :
    applySplices xs p r (ss ++ ts) = applySplices xs p q ss ++ applySplices xs q r ts := by
  induction ss generalizing p with
  | nil =>
    rw [nil_append, applySplices]
    cases ts with
    | nil => rw [applySplices, applySplices, slice_append xs hs ht]
    | cons t rest =>
      rw [applySplices, applySplices, ← slice_append xs hs ht.1]
      simp only [append_assoc]
  | cons s rest ih =>
    rw [cons_append, applySplices, applySplices, ih hs.2.2]
    simp only [append_assoc]

/-- Splices that start at `q` or later leave the window up to `q` as it is. -/
theorem applySplices_skip {p r : ℕ} (hpq : p ≤ q)
    (h : Ordered q r ss) : applySplices xs p r ss = slice xs p q ++ applySplices xs q r ss :=
  applySplices_append xs (show Ordered p q [] from hpq) h

/-! ## From the end to the start -/

/-- The splices go from `q` down, each ending where the one before starts or earlier. -/
def Descending (q : ℕ) : List (Splice α) → Prop
  | [] => True
  | s :: rest => s.start ≤ s.stop ∧ s.stop ≤ q ∧ Descending s.start rest

theorem Descending.ordered (h : Descending q ss) : Ordered 0 q ss.reverse := by
  induction ss generalizing q with
  | nil => exact Nat.zero_le q
  | cons s rest ih =>
    rw [reverse_cons]
    exact (ih h.2.2).append ⟨le_rfl, h.1, h.2.1⟩

/-- Splicing from the end: what lies beyond the splices still to come stays as it is. -/
theorem Descending.applySplices_cons {s : Splice α} {rest : List (Splice α)}
    (h : Descending q (s :: rest)) : applySplices xs 0 q (s :: rest).reverse
      = applySplices xs 0 s.start rest.reverse ++ (s.insert ++ slice xs s.stop q) := by
  have hlast : Ordered s.start q [s] := ⟨le_rfl, h.1, h.2.1⟩
  rw [reverse_cons, applySplices_append xs h.2.2.ordered hlast, applySplices, applySplices,
    slice_self, nil_append]

/-! ## Inverse splices -/

/-- The splices that undo `ss` in the rewritten list, where position `p` has become `b`: each puts
back what its splice removed. -/
def inverseSplices (xs : List α) (p b : ℕ) : List (Splice α) → List (Splice α)
  | [] => []
  | s :: rest =>
      let start := b + (s.start - p)
      let stop := start + s.insert.length
      { start, stop, insert := slice xs s.start s.stop } :: inverseSplices xs s.stop stop rest

/-- Wherever the rewritten window stands in `ys`, the inverse splices turn it back. -/
theorem inverseSplices_spec (ys : List α) {p b : ℕ}
    (h : Ordered p q ss) (hq : q ≤ xs.length) (hys : applySplices xs p q ss <+: ys.drop b) :
    Ordered b (b + (applySplices xs p q ss).length) (inverseSplices xs p b ss) ∧
      applySplices ys b (b + (applySplices xs p q ss).length) (inverseSplices xs p b ss)
        = slice xs p q := by
  induction ss generalizing p b with
  | nil =>
    refine ⟨Nat.le_add_right _ _, ?_⟩
    rw [applySplices] at hys
    rw [inverseSplices, applySplices, applySplices, slice, Nat.add_sub_cancel_left]
    exact (List.prefix_iff_eq_take.mp hys).symm
  | cons s rest ih =>
    obtain ⟨hstart, hstop, hrest⟩ := h
    have hlen : (slice xs p s.start).length = s.start - p :=
      length_slice xs (hstop.trans (hrest.le.trans hq))
    obtain ⟨tail, htail⟩ := hys
    rw [applySplices, append_assoc, append_assoc] at htail
    -- the list splits at the ends of what the first splice inserted
    have hfirst : slice ys b (b + (s.start - p)) = slice xs p s.start := by
      rw [slice, Nat.add_sub_cancel_left, ← htail, ← hlen, take_left]
    have hdrop : applySplices xs s.stop q rest ++ tail
        = ys.drop (b + (s.start - p) + s.insert.length) := by
      rw [Nat.add_assoc, ← drop_drop, ← htail, ← hlen, ← length_append,
        ← append_assoc, drop_left]
    obtain ⟨hordered, happly⟩ := ih hrest ⟨tail, hdrop⟩
    have hend : b + (applySplices xs p q (s :: rest)).length
        = b + (s.start - p) + s.insert.length + (applySplices xs s.stop q rest).length := by
      rw [applySplices, length_append, length_append, hlen]
      omega
    rw [hend]
    refine ⟨⟨Nat.le_add_right _ _, Nat.le_add_right _ _, hordered⟩, ?_⟩
    rw [inverseSplices, applySplices, happly, hfirst, append_assoc,
      slice_append xs hstop hrest.le, slice_append xs hstart (hstop.trans hrest.le)]

/-- Ordered splices of a whole list are undone by their inverse. -/
theorem applySplices_inverse (h : Ordered 0 xs.length ss) : let ys := applySplices xs 0 xs.length ss
    Ordered 0 ys.length (inverseSplices xs 0 0 ss) ∧
      applySplices ys 0 ys.length (inverseSplices xs 0 0 ss) = xs := by
  intro ys
  have hspec := inverseSplices_spec xs ys (b := 0) h le_rfl (prefix_refl _)
  rwa [Nat.zero_add, slice_length] at hspec

end Taomni

/-!
# Common prefix and suffix

The two scans that turn a pair of texts into one replacement: the longest common prefix, then the
longest common suffix of what lies after a position. `ordered_affixSplice` and
`applySplices_affixSplice` say that replacing what is between them turns one text into the other.
-/

namespace Taomni

open List

variable {α : Type*} [DecidableEq α]

/-- The length of the longest common prefix. -/
def commonPrefixLength : List α → List α → ℕ
  | x :: xs, y :: ys => if x = y then commonPrefixLength xs ys + 1 else 0
  | _, _ => 0

theorem commonPrefixLength_le (xs ys : List α) :
    commonPrefixLength xs ys ≤ xs.length ∧ commonPrefixLength xs ys ≤ ys.length := by
  fun_induction commonPrefixLength xs ys with
  | case1 x xs ys ih =>
    rw [length_cons, length_cons]
    omega
  | case2 => exact ⟨Nat.zero_le _, Nat.zero_le _⟩
  | case3 => exact ⟨Nat.zero_le _, Nat.zero_le _⟩

theorem take_commonPrefixLength (xs ys : List α) :
    xs.take (commonPrefixLength xs ys) = ys.take (commonPrefixLength xs ys) := by
  fun_induction commonPrefixLength xs ys with
  | case1 x xs ys ih => rw [take_succ_cons, take_succ_cons, ih]
  | case2 => rfl
  | case3 => rfl

/-- The texts agree before every position of the common prefix. -/
theorem take_eq_of_le_commonPrefixLength {xs ys : List α} {n : ℕ}
    (h : n ≤ commonPrefixLength xs ys) : xs.take n = ys.take n := by
  have htake := congrArg (List.take n) (take_commonPrefixLength xs ys)
  rwa [take_take, take_take, min_eq_left h] at htake

/-- The length of the longest common suffix of what lies after `start`. -/
def commonSuffixLength (xs ys : List α) (start : ℕ) : ℕ :=
  commonPrefixLength (xs.drop start).reverse (ys.drop start).reverse

theorem commonSuffixLength_le (xs ys : List α) (start : ℕ) :
    commonSuffixLength xs ys start ≤ xs.length - start ∧
      commonSuffixLength xs ys start ≤ ys.length - start := by
  have h := commonPrefixLength_le (xs.drop start).reverse (ys.drop start).reverse
  rwa [length_reverse, length_reverse, length_drop, length_drop] at h

/-- The texts agree from every position of the common suffix on. -/
theorem drop_eq_of_le_commonSuffixLength {xs ys : List α} {start k : ℕ} (hxs : start ≤ xs.length)
    (hys : start ≤ ys.length) (h : k ≤ commonSuffixLength xs ys start) :
    xs.drop (xs.length - k) = ys.drop (ys.length - k) := by
  obtain ⟨hx, hy⟩ := commonSuffixLength_le xs ys start
  have htake := take_eq_of_le_commonPrefixLength h
  rw [take_reverse, take_reverse, reverse_inj, drop_drop, drop_drop,
    length_drop, length_drop] at htake
  have hxPos : start + (xs.length - start - k) = xs.length - k := by omega
  have hyPos : start + (ys.length - start - k) = ys.length - k := by omega
  rwa [hxPos, hyPos] at htake

/-- One more common element at the end lengthens the common prefix only where a list was used up. -/
theorem commonPrefixLength_concat (xs ys : List α) (x : α) :
    commonPrefixLength (xs ++ [x]) (ys ++ [x]) = commonPrefixLength xs ys ∨
      commonPrefixLength (xs ++ [x]) (ys ++ [x]) = commonPrefixLength xs ys + 1 ∧
        (xs ++ [x])[commonPrefixLength xs ys]? = some x := by
  fun_induction commonPrefixLength xs ys with
  | case1 a xs ys ih =>
    rw [cons_append, cons_append, commonPrefixLength, if_pos rfl]
    exact ih.imp (congrArg (· + 1)) fun h => ⟨congrArg (· + 1) h.1, h.2⟩
  | case2 a xs b ys hne =>
    exact .inl (if_neg hne)
  | case3 xs ys hnot =>
    rcases xs with _ | ⟨a, xs⟩
    · rcases ys with _ | ⟨b, ys⟩
      · exact .inr ⟨if_pos rfl, rfl⟩
      · rw [nil_append, cons_append, commonPrefixLength]
        split
        · exact .inr ⟨by simp [commonPrefixLength], rfl⟩
        · exact .inl rfl
    · rcases ys with _ | ⟨b, ys⟩
      · rw [nil_append, cons_append, commonPrefixLength]
        split
        · next h => exact .inr ⟨by cases xs <;> simp [commonPrefixLength], congrArg some h⟩
        · exact .inl rfl
      · exact absurd rfl (hnot a xs b ys rfl)

/-- Moving the start back over a common element lengthens the common suffix by at most that
element. -/
theorem commonSuffixLength_pred {xs ys : List α} {p : ℕ} {x : α} (hx : xs[p]? = some x)
    (hy : ys[p]? = some x) : commonSuffixLength xs ys p = commonSuffixLength xs ys (p + 1) ∨
      commonSuffixLength xs ys p = commonSuffixLength xs ys (p + 1) + 1 ∧
        xs[xs.length - commonSuffixLength xs ys p]? = some x := by
  obtain ⟨hxLt, rfl⟩ := List.getElem?_eq_some_iff.mp hx
  obtain ⟨hyLt, hyEq⟩ := List.getElem?_eq_some_iff.mp hy
  have hsuffix : commonSuffixLength xs ys p = commonPrefixLength
      ((xs.drop (p + 1)).reverse ++ [xs[p]]) ((ys.drop (p + 1)).reverse ++ [xs[p]]) := by
    rw [commonSuffixLength, drop_eq_getElem_cons hxLt, drop_eq_getElem_cons hyLt, hyEq,
      reverse_cons, reverse_cons]
  rcases commonPrefixLength_concat (xs.drop (p + 1)).reverse (ys.drop (p + 1)).reverse xs[p]
    with h | ⟨h, hget⟩
  · exact .inl (hsuffix.trans h)
  · have heq : commonSuffixLength xs ys p = commonSuffixLength xs ys (p + 1) + 1 := hsuffix.trans h
    refine .inr ⟨heq, ?_⟩
    rw [← reverse_cons, ← drop_eq_getElem_cons hxLt] at hget
    have hle := (commonSuffixLength_le xs ys (p + 1)).1
    rw [getElem?_reverse (by rw [length_drop]; exact Nat.lt_of_le_of_lt hle (by omega)),
      getElem?_drop] at hget
    rw [← hget, heq]
    congr 1
    rw [length_drop]
    show _ = p + (xs.length - p - 1 - commonSuffixLength xs ys (p + 1))
    omega

/-! ## The replacement between them -/

/-- Replace what stands between the first `p` and the last `k` elements. -/
def affixSplice (xs ys : List α) (p k : ℕ) : Splice α :=
  { start := p, stop := xs.length - k, insert := slice ys p (ys.length - k) }

omit [DecidableEq α] in
theorem ordered_affixSplice {xs ys : List α} {p k : ℕ} (h : p + k ≤ xs.length) :
    Ordered 0 xs.length [affixSplice xs ys p k] := by
  refine ⟨Nat.zero_le _, ?_, Nat.sub_le _ _⟩
  show p ≤ xs.length - k
  omega

omit [DecidableEq α] in
theorem applySplices_affixSplice {xs ys : List α} {p k : ℕ} (hy : p + k ≤ ys.length)
    (htake : xs.take p = ys.take p) (hsuffix : xs.drop (xs.length - k) = ys.drop (ys.length - k)) :
    applySplices xs 0 xs.length [affixSplice xs ys p k] = ys := by
  have hmid : p ≤ ys.length - k := by omega
  rw [affixSplice, applySplices, applySplices, slice_length, hsuffix]
  show (xs.drop 0).take (p - 0) ++ _ ++ _ = _
  rw [drop_zero, Nat.sub_zero, htake]
  exact take_slice_drop ys hmid

end Taomni
