import Mathlib.Algebra.Group.Nat.Defs
import Mathlib.Data.List.Induction
import Mathlib.Data.Nat.Bitwise
import Taomni.Common.Splice

/-!
# Fields of a message

A message is read field by field at offsets, and every read asks whether its bytes are there. Numbers
are written with the most significant byte first.
-/

namespace Taomni

open List

/-! ## Ranges -/

section Ranges

variable {α : Type*}

/-- The elements from one place up to another, when they are there. -/
def getRange (xs : List α) (p q : ℕ) : Option (List α) :=
  if p ≤ q ∧ q ≤ xs.length then some (slice xs p q) else none

theorem getRange_eq_some {xs field : List α} {p q : ℕ} :
    getRange xs p q = some field ↔ (p ≤ q ∧ q ≤ xs.length) ∧ slice xs p q = field := by
  rw [getRange]
  split
  · next h => exact Option.some_inj.trans (and_iff_right h).symm
  · next h => exact iff_of_false nofun fun hfield => h hfield.1

theorem slice_append_append (front field rest : List α) :
    slice (front ++ (field ++ rest)) front.length (front.length + field.length) = field := by
  rw [slice, drop_left, Nat.add_sub_cancel_left, take_left]

/-- A field is read where it was put. -/
theorem getRange_append (front field rest : List α) {p q : ℕ} (hp : p = front.length)
    (hq : q = p + field.length) : getRange (front ++ (field ++ rest)) p q = some field := by
  subst hq hp
  refine getRange_eq_some.mpr ⟨⟨Nat.le_add_right _ _, ?_⟩, slice_append_append front field rest⟩
  rw [length_append, length_append]
  omega

theorem length_of_getRange {xs field : List α} {p q : ℕ} (h : getRange xs p q = some field) :
    field.length = q - p := by
  obtain ⟨⟨-, hq⟩, rfl⟩ := getRange_eq_some.mp h
  exact length_slice xs hq

/-- One element after another. -/
theorem slice_succ {xs : List α} {p : ℕ} {x : α} (h : xs[p]? = some x) : slice xs p (p + 1) = [x] := by
  obtain ⟨hp, rfl⟩ := List.getElem?_eq_some_iff.mp h
  rw [slice, Nat.add_sub_cancel_left, drop_eq_getElem_cons hp, take_succ_cons, take_zero]

theorem slice_length_drop (xs : List α) (p : ℕ) : slice xs p xs.length = xs.drop p := by
  rw [slice]
  exact take_of_length_le (by rw [length_drop])

end Ranges

/-! ## Numbers -/

/-- The low bytes of a number. -/
def bigEndianBytes : ℕ → ℕ → List UInt8
  | 0, _ => []
  | n + 1, value => bigEndianBytes n (value / 256) ++ [UInt8.ofNat value]

def bigEndianNat (bytes : List UInt8) : ℕ := bytes.foldl (fun value b => value * 256 + b.toNat) 0

theorem length_bigEndianBytes (n value : ℕ) : (bigEndianBytes n value).length = n := by
  induction n generalizing value with
  | zero => rfl
  | succ n ih => rw [bigEndianBytes, length_append, ih, length_singleton]

variable (bytes : List UInt8)

theorem bigEndianNat_concat (b : UInt8) :
    bigEndianNat (bytes ++ [b]) = bigEndianNat bytes * 256 + b.toNat := by
  rw [bigEndianNat, foldl_concat, ← bigEndianNat]

theorem bigEndianNat_lt : bigEndianNat bytes < 256 ^ bytes.length := by
  induction bytes using List.reverseRecOn with
  | nil => exact Nat.one_pos
  | append_singleton bytes b ih =>
    have hb : b.toNat < 256 := b.toNat_lt
    rw [bigEndianNat_concat, length_append, length_singleton, Nat.pow_succ]
    omega

theorem bigEndianNat_bigEndianBytes {n value : ℕ} (h : value < 256 ^ n) :
    bigEndianNat (bigEndianBytes n value) = value := by
  induction n generalizing value with
  | zero =>
    rw [Nat.pow_zero, Nat.lt_one_iff] at h
    exact h.symm
  | succ n ih =>
    have hhigh : value / 256 < 256 ^ n :=
      Nat.div_lt_of_lt_mul (by rwa [Nat.pow_succ, Nat.mul_comm] at h)
    rw [bigEndianBytes, bigEndianNat_concat, ih hhigh, UInt8.toNat_ofNat']
    omega

theorem bigEndianBytes_bigEndianNat : bigEndianBytes bytes.length (bigEndianNat bytes) = bytes := by
  induction bytes using List.reverseRecOn with
  | nil => rfl
  | append_singleton bytes b ih =>
    have hb : b.toNat < 256 := b.toNat_lt
    have hhigh : (bigEndianNat bytes * 256 + b.toNat) / 256 = bigEndianNat bytes := by omega
    have hlow : UInt8.ofNat (bigEndianNat bytes * 256 + b.toNat) = b := by
      apply UInt8.toNat.inj
      rw [UInt8.toNat_ofNat']
      omega
    rw [bigEndianNat_concat, length_append, length_singleton, bigEndianBytes, hhigh, hlow, ih]

/-!
# Fields of a word

A word is joined from fields that stand at their own places in it. Where the places do not overlap every
field can be read back (`field_joinFields`).
-/

variable {ι : Type*}

/-- The bits from a place on. -/
def field (shift width word : ℕ) : ℕ := (word >>> shift) &&& (2 ^ width - 1)

/-- The word of some fields. -/
def joinFields (shift value : ι → ℕ) : List ι → ℕ
  | [] => 0
  | c :: rest => (value c <<< shift c) ||| joinFields shift value rest

/-- The bits of a field. -/
def FieldHas (shift width bit : ℕ) : Prop := shift ≤ bit ∧ bit < shift + width

theorem testBit_joinFields (shift value : ι → ℕ) (fields : List ι) (bit : ℕ) :
    (joinFields shift value fields).testBit bit = true ↔
      ∃ c ∈ fields, shift c ≤ bit ∧ (value c).testBit (bit - shift c) = true := by
  induction fields with
  | nil =>
    rw [joinFields, Nat.zero_testBit]
    refine iff_of_false Bool.false_ne_true ?_
    rintro ⟨c, hc, -⟩
    exact not_mem_nil hc
  | cons c fields ih =>
    rw [joinFields, Nat.testBit_or, Bool.or_eq_true, ih, Nat.testBit_shiftLeft, Bool.and_eq_true,
      decide_eq_true_eq]
    simp only [mem_cons, exists_eq_or_imp]

/-- A field is read back from the word it was put in. -/
theorem field_joinFields {shift width value : ι → ℕ} {fields : List ι}
    (hvalue : ∀ c ∈ fields, value c < 2 ^ width c) (hdisjoint : ∀ c ∈ fields, ∀ c' ∈ fields, ∀ bit,
      FieldHas (shift c) (width c) bit → FieldHas (shift c') (width c') bit → c = c')
    {c : ι} (hc : c ∈ fields) : field (shift c) (width c) (joinFields shift value fields) = value c := by
  have hhigh : ∀ c ∈ fields, ∀ i, width c ≤ i → (value c).testBit i = false := fun c hc i hi =>
    Nat.testBit_lt_two_pow ((hvalue c hc).trans_le (Nat.pow_le_pow_right (by decide) hi))
  refine Nat.eq_of_testBit_eq fun i => ?_
  rw [field, Nat.testBit_and, Nat.testBit_shiftRight, Nat.testBit_two_pow_sub_one]
  by_cases hi : i < width c
  · rw [decide_eq_true hi, Bool.and_true, Bool.eq_iff_iff, testBit_joinFields]
    constructor
    · rintro ⟨c', hc', hle, hbit⟩
      have hin : shift c + i - shift c' < width c' := by
        by_contra hout
        rw [hhigh c' hc' _ (Nat.not_lt.mp hout)] at hbit
        cases hbit
      have hsame : c = c' := hdisjoint c hc c' hc' (shift c + i)
        ⟨Nat.le_add_right _ _, by omega⟩ ⟨hle, by omega⟩
      rwa [← hsame, Nat.add_sub_cancel_left] at hbit
    · exact fun hbit => ⟨c, hc, Nat.le_add_right _ _, by rwa [Nat.add_sub_cancel_left]⟩
  · rw [decide_eq_false hi, Bool.and_false, hhigh c hc i (Nat.not_lt.mp hi)]

/-- The word is no longer than the places. -/
theorem joinFields_lt {shift width value : ι → ℕ} {fields : List ι} {n : ℕ}
    (hvalue : ∀ c ∈ fields, value c < 2 ^ width c) (hfits : ∀ c ∈ fields, shift c + width c ≤ n) :
    joinFields shift value fields < 2 ^ n := by
  induction fields with
  | nil => exact Nat.two_pow_pos n
  | cons c fields ih =>
    obtain ⟨hc, hvalue⟩ := forall_mem_cons.mp hvalue
    obtain ⟨hfit, hfits⟩ := forall_mem_cons.mp hfits
    refine Nat.or_lt_two_pow ?_ (ih hvalue hfits)
    rw [Nat.shiftLeft_eq]
    calc value c * 2 ^ shift c < 2 ^ width c * 2 ^ shift c :=
          Nat.mul_lt_mul_of_pos_right hc (Nat.two_pow_pos _)
      _ = 2 ^ (shift c + width c) := by rw [Nat.pow_add, Nat.mul_comm]
      _ ≤ 2 ^ n := Nat.pow_le_pow_right (by decide) hfit

end Taomni
