import Mathlib.Data.List.Basic

/-!
# Byte offsets in a text

A text is a list of characters, and an offset counts the bytes of its encoding.
-/

namespace Taomni

open List

@[grind =] def byteLength : List Char → ℕ
  | [] => 0
  | c :: text => c.utf8Size + byteLength text

/-- A text cut at an offset, which may not be beyond the end or inside of a character. -/
@[grind =] def cutAt : ℕ → List Char → Option (List Char × List Char)
  | 0, text => some ([], text)
  | _ + 1, [] => none
  | n + 1, c :: text =>
    if c.utf8Size ≤ n + 1 then (cutAt (n + 1 - c.utf8Size) text).map fun (a, b) => (c :: a, b)
    else none

theorem length_le_byteLength (text : List Char) : text.length ≤ byteLength text := by
  induction text with
  | nil => exact Nat.le_refl 0
  | cons c text ih =>
    have hsize := c.utf8Size_pos
    rw [length_cons, byteLength]
    omega

theorem cutAt_eq_some {text front rest : List Char} {offset : ℕ}
    (h : cutAt offset text = some (front, rest)) : text = front ++ rest ∧ byteLength front = offset := by
  induction text generalizing offset front with
  | nil =>
    cases offset with
    | zero =>
      cases h
      exact ⟨rfl, rfl⟩
    | succ offset => cases h
  | cons c text ih =>
    cases offset with
    | zero =>
      cases h
      exact ⟨rfl, rfl⟩
    | succ offset =>
      rw [cutAt] at h
      split at h
      · rename_i hsize
        obtain ⟨⟨a, b⟩, hcut, heq⟩ := Option.map_eq_some_iff.mp h
        cases heq
        obtain ⟨rfl, hlength⟩ := ih hcut
        refine ⟨rfl, ?_⟩
        rw [byteLength, hlength]
        omega
      · cases h

theorem byteLength_append (a b : List Char) : byteLength (a ++ b) = byteLength a + byteLength b := by
  induction a with
  | nil => rw [nil_append, byteLength, Nat.zero_add]
  | cons c a ih => rw [cons_append, byteLength, ih, byteLength, Nat.add_assoc]

/-- The bytes before a rest are a place to cut at. -/
theorem cutAt_append (front rest : List Char) :
    cutAt (byteLength front) (front ++ rest) = some (front, rest) := by
  induction front with
  | nil => cases rest <;> rfl
  | cons c front ih =>
    obtain ⟨n, hn⟩ := Nat.exists_eq_succ_of_ne_zero (Nat.pos_iff_ne_zero.mp c.utf8Size_pos)
    rw [byteLength, cons_append, hn, Nat.succ_add, cutAt, hn, if_pos (by omega)]
    rw [show n + byteLength front + 1 - n.succ = byteLength front by omega, ih]
    rfl

/-- An offset inside of a character is in a text with more bytes than characters. -/
theorem length_lt_of_cutAt_eq_none {text : List Char} {offset : ℕ} (h : cutAt offset text = none)
    (hle : offset ≤ byteLength text) : text.length < byteLength text := by
  induction text generalizing offset with
  | nil =>
    rw [byteLength, Nat.le_zero] at hle
    rw [hle] at h
    cases h
  | cons c text ih =>
    have hrest := length_le_byteLength text
    cases offset with
    | zero => cases h
    | succ offset =>
      rw [cutAt] at h
      rw [byteLength] at hle ⊢
      rw [length_cons]
      split at h
      · have hlt := ih (Option.map_eq_none_iff.mp h) (by omega)
        have hsize := c.utf8Size_pos
        omega
      · omega

variable {c : Char}

theorem utf8Size_eq_one (h : c.toNat < 128) : c.utf8Size = 1 := by
  refine Char.utf8Size_eq_one_iff.mpr (UInt32.le_iff_toNat_le.mpr ?_)
  have hval : c.val.toNat < 128 := h
  have hlimit : (127 : UInt32).toNat = 127 := rfl
  omega

theorem byteLength_of_ascii {text : List Char} (h : ∀ c ∈ text, c.toNat < 128) :
    byteLength text = text.length := by
  induction text with
  | nil => rfl
  | cons c text ih =>
    obtain ⟨hc, htext⟩ := forall_mem_cons.mp h
    rw [byteLength, utf8Size_eq_one hc, ih htext, length_cons, Nat.add_comm]

/-- An offset after ASCII characters. -/
theorem cutAt_ascii {front : List Char} (h : ∀ c ∈ front, c.toNat < 128) (text : List Char) :
    cutAt front.length (front ++ text) = some (front, text) := by
  induction front with
  | nil => cases text <;> rfl
  | cons c front ih =>
    obtain ⟨hc, hfront⟩ := forall_mem_cons.mp h
    rw [length_cons, cons_append, cutAt, utf8Size_eq_one hc,
      if_pos (Nat.succ_le_succ (Nat.zero_le _)), Nat.add_sub_cancel, ih hfront]
    rfl

/-!
# UTF-8 that comes in pieces

One step reads a character, or passes over bytes that no character starts with, or sees that it needs more
bytes. What a step has read stays as it is when more bytes come, so it does not matter where a stream is cut.
-/

/-! ## One step -/

/-- The ranges of the bytes that follow a first byte, if a character starts with it. -/
def continuations (lead : ℕ) : Option (List (ℕ × ℕ)) :=
  if lead < 0x80 then some []
  else if lead < 0xC2 then none
  else if lead ≤ 0xDF then some [(0x80, 0xBF)]
  else if lead = 0xE0 then some [(0xA0, 0xBF), (0x80, 0xBF)]
  else if lead = 0xED then some [(0x80, 0x9F), (0x80, 0xBF)]
  else if lead ≤ 0xEF then some [(0x80, 0xBF), (0x80, 0xBF)]
  else if lead = 0xF0 then some [(0x90, 0xBF), (0x80, 0xBF), (0x80, 0xBF)]
  else if lead ≤ 0xF3 then some [(0x80, 0xBF), (0x80, 0xBF), (0x80, 0xBF)]
  else if lead = 0xF4 then some [(0x80, 0x8F), (0x80, 0xBF), (0x80, 0xBF)]
  else none

/-- How many bytes are in their ranges, in turn. -/
def follow : List (ℕ × ℕ) → List UInt8 → ℕ
  | (low, high) :: ranges, b :: bytes => if low ≤ b.toNat ∧ b.toNat ≤ high then follow ranges bytes + 1 else 0
  | _, _ => 0

/-- The code point of a first byte and those that follow it. -/
def codePoint (lead : ℕ) (following : List UInt8) : ℕ :=
  following.foldl (fun value b => value * 64 + b.toNat % 64)
    (if lead < 0x80 then lead else if lead < 0xE0 then lead % 32 else if lead < 0xF0 then lead % 16 else lead % 8)

/-- The numbers count the bytes after the first. -/
inductive Utf8Step where
  | char (c : Char) (more : ℕ)
  | invalid (more : ℕ)
  | incomplete
deriving DecidableEq

def utf8Step (lead : UInt8) (rest : List UInt8) : Utf8Step :=
  match continuations lead.toNat with
  | none => .invalid 0
  | some ranges =>
    let n := follow ranges rest
    if n = ranges.length then .char (Char.ofNat (codePoint lead.toNat (rest.take n))) n
    else if n = rest.length then .incomplete
    else .invalid n

theorem follow_le (ranges : List (ℕ × ℕ)) (bytes : List UInt8) :
    follow ranges bytes ≤ ranges.length ∧ follow ranges bytes ≤ bytes.length := by
  induction ranges generalizing bytes with
  | nil => exact ⟨Nat.le_refl 0, Nat.zero_le _⟩
  | cons range ranges ih =>
    cases bytes with
    | nil => exact ⟨Nat.zero_le _, Nat.le_refl 0⟩
    | cons b bytes =>
      rw [follow]
      obtain ⟨hranges, hbytes⟩ := ih bytes
      split
      · exact ⟨Nat.succ_le_succ hranges, Nat.succ_le_succ hbytes⟩
      · exact ⟨Nat.zero_le _, Nat.zero_le _⟩

/-- Unless the bytes ran out, more of them do not matter. -/
theorem follow_append {ranges : List (ℕ × ℕ)} {bytes : List UInt8}
    (h : follow ranges bytes = ranges.length ∨ follow ranges bytes ≠ bytes.length) (more : List UInt8) :
    follow ranges (bytes ++ more) = follow ranges bytes := by
  induction ranges generalizing bytes with
  | nil => rfl
  | cons range ranges ih =>
    cases bytes with
    | nil =>
      rcases h with h | h
      · cases h
      · exact absurd rfl h
    | cons b bytes =>
      rw [cons_append, follow, follow]
      rw [follow] at h
      split
      · next hin =>
        rw [if_pos hin, length_cons, length_cons, Nat.add_right_cancel_iff, ne_eq,
          Nat.add_right_cancel_iff] at h
        rw [ih h]
      · rfl

variable {rest : List UInt8} {lead : UInt8}

theorem utf8Step_append (h : utf8Step lead rest ≠ .incomplete)
    (more : List UInt8) : utf8Step lead (rest ++ more) = utf8Step lead rest := by
  unfold utf8Step at h ⊢
  cases hranges : continuations lead.toNat with
  | none => rfl
  | some ranges =>
    rw [hranges] at h
    dsimp only at h ⊢
    have hle := (follow_le ranges rest).2
    by_cases hwhole : follow ranges rest = ranges.length
    · rw [follow_append (.inl hwhole), if_pos hwhole, if_pos hwhole, take_append_of_le_length hle]
    · have hshort : follow ranges rest ≠ rest.length := by
        intro hlength
        rw [if_neg hwhole, if_pos hlength] at h
        exact h rfl
      have hshort' : follow ranges rest ≠ (rest ++ more).length := by
        rw [length_append]
        omega
      rw [follow_append (.inr hshort), if_neg hwhole, if_neg hwhole, if_neg hshort, if_neg hshort']

theorem length_continuations {lead : ℕ} {ranges : List (ℕ × ℕ)} (h : continuations lead = some ranges) :
    ranges.length ≤ 3 := by
  unfold continuations at h
  repeat' split at h
  all_goals cases h
  all_goals decide

/-- A character that is not complete has three bytes at most. -/
theorem length_of_incomplete (h : utf8Step lead rest = .incomplete) : (lead :: rest).length ≤ 3 := by
  unfold utf8Step at h
  cases hranges : continuations lead.toNat with
  | none =>
    rw [hranges] at h
    cases h
  | some ranges =>
    rw [hranges] at h
    dsimp only at h
    have hle := follow_le ranges rest
    have hthree := length_continuations hranges
    split at h
    · cases h
    split at h
    · rw [length_cons]
      omega
    · cases h

/-! ## A stream -/

/-- The character that a step adds to a text, with U+FFFD for what is none, and the bytes after the first. -/
def Utf8Step.read : Utf8Step → Option (Char × ℕ)
  | char c more => some (c, more)
  | invalid more => some (Char.ofNat 0xFFFD, more)
  | incomplete => none

/-- The text of the bytes, and the bytes that wait for more. -/
def drainUtf8 : List UInt8 → List Char × List UInt8
  | [] => ([], [])
  | lead :: rest =>
    match (utf8Step lead rest).read with
    | some (c, n) => (c :: (drainUtf8 (rest.drop n)).1, (drainUtf8 (rest.drop n)).2)
    | none => ([], lead :: rest)
termination_by bytes => bytes.length
decreasing_by
  all_goals
    rw [length_drop, length_cons]
    exact Nat.lt_succ_of_le (Nat.sub_le _ _)

theorem drainUtf8_nil : drainUtf8 [] = ([], []) := by rw [drainUtf8]

theorem drainUtf8_of_read {n : ℕ}
    (h : (utf8Step lead rest).read = some (c, n)) : drainUtf8 (lead :: rest)
      = (c :: (drainUtf8 (rest.drop n)).1, (drainUtf8 (rest.drop n)).2) := by
  rw [drainUtf8, h]

theorem drainUtf8_of_none (h : (utf8Step lead rest).read = none) :
    drainUtf8 (lead :: rest) = ([], lead :: rest) := by
  rw [drainUtf8, h]

/-- What a step has read is in the bytes. -/
theorem le_length_of_read {n : ℕ} (h : (utf8Step lead rest).read = some (c, n)) : n ≤ rest.length := by
  unfold utf8Step at h
  cases hranges : continuations lead.toNat with
  | none =>
    rw [hranges] at h
    cases h
    exact Nat.zero_le _
  | some ranges =>
    rw [hranges] at h
    dsimp only at h
    have hle := (follow_le ranges rest).2
    split at h
    · cases h
      exact hle
    split at h
    · cases h
    · cases h
      exact hle

theorem read_append {n : ℕ} (h : (utf8Step lead rest).read = some (c, n)) (more : List UInt8) :
    (utf8Step lead (rest ++ more)).read = some (c, n) := by
  have hstep : utf8Step lead rest ≠ .incomplete := by
    intro hincomplete
    rw [hincomplete] at h
    cases h
  rw [utf8Step_append hstep, h]

/-- A stream may be cut anywhere: the bytes that wait go in front of the next piece. -/
theorem drainUtf8_append (bytes more : List UInt8) : drainUtf8 (bytes ++ more)
    = ((drainUtf8 bytes).1 ++ (drainUtf8 ((drainUtf8 bytes).2 ++ more)).1,
        (drainUtf8 ((drainUtf8 bytes).2 ++ more)).2) := by
  induction bytes using drainUtf8.induct with
  | case1 => rw [drainUtf8_nil, nil_append, nil_append]
  | case2 lead rest c n hread ih =>
    rw [cons_append, drainUtf8_of_read (read_append hread more), drainUtf8_of_read hread,
      drop_append_of_le_length (le_length_of_read hread), ih]
    rfl
  | case3 lead rest hread => rw [drainUtf8_of_none hread, nil_append]

theorem length_drainUtf8_le (bytes : List UInt8) : (drainUtf8 bytes).2.length ≤ 3 := by
  induction bytes using drainUtf8.induct with
  | case1 =>
    rw [drainUtf8_nil]
    exact Nat.zero_le 3
  | case2 lead rest c n hread ih =>
    rw [drainUtf8_of_read hread]
    exact ih
  | case3 lead rest hread =>
    rw [drainUtf8_of_none hread]
    refine length_of_incomplete ?_
    cases hstep : utf8Step lead rest with
    | incomplete => rfl
    | char c k =>
      rw [hstep] at hread
      cases hread
    | invalid k =>
      rw [hstep] at hread
      cases hread

end Taomni
