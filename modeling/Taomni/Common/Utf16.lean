import Mathlib.Data.List.Basic
import Mathlib.Order.Nat

/-!
# JavaScript strings

A string is its list of UTF-16 code units, so lengths, offsets and `split` are those of the runtime.
-/

namespace Taomni

open List

/-- A JavaScript string. -/
abbrev JsString := List UInt16

namespace JsString

/-- The code unit of `"\n"`. -/
def lf : UInt16 := 10

/-- The code unit of `"\r"`. -/
def cr : UInt16 := 13

/-- A string literal of the source that has ASCII characters only. -/
def ascii (s : String) : JsString := s.toList.map fun c => c.toNat.toUInt16

/-- `text.split("\n")`. -/
def splitLines (text : JsString) : List JsString := List.splitOn lf text

/-- `lines.join("\n")`. -/
def joinLines (lines : List JsString) : JsString := [lf].intercalate lines

@[simp] theorem joinLines_splitLines (text : JsString) : joinLines (splitLines text) = text :=
  intercalate_splitOn lf

theorem splitLines_ne_nil (text : JsString) : splitLines text ≠ [] := splitOn_ne_nil lf text

end JsString

/-!
# UTF-16

Characters, their code units, and the bytes of code units in either byte order. Encoding and strict
decoding are inverse to each other (`decodeUtf16_encodeUtf16`, `encodeUtf16_of_decodeUtf16`).
-/

/-! ## Code units -/

/-- The code units of a character. -/
def utf16Char (c : Char) : List UInt16 :=
  if c.toNat < 0x10000 then [UInt16.ofNat c.toNat]
  else
    [UInt16.ofNat (0xD800 + (c.toNat - 0x10000) / 0x400),
      UInt16.ofNat (0xDC00 + (c.toNat - 0x10000) % 0x400)]

def encodeUtf16 (cs : List Char) : List UInt16 := cs.flatMap utf16Char

/-- Strict decoding: an unpaired surrogate is an error. -/
def decodeUtf16 : List UInt16 → Option (List Char)
  | [] => some []
  | [u] => if 0xD800 ≤ u.toNat ∧ u.toNat < 0xE000 then none else some [Char.ofNat u.toNat]
  | u :: v :: rest =>
      if 0xD800 ≤ u.toNat ∧ u.toNat < 0xE000 then
        if u.toNat < 0xDC00 ∧ 0xDC00 ≤ v.toNat ∧ v.toNat < 0xE000 then
          (decodeUtf16 rest).map
            (Char.ofNat (0x10000 + (u.toNat - 0xD800) * 0x400 + (v.toNat - 0xDC00)) :: ·)
        else none
      else (decodeUtf16 (v :: rest)).map (Char.ofNat u.toNat :: ·)

/-- The code points of characters. -/
theorem toNat_char (c : Char) : c.toNat < 0xD800 ∨ (0xE000 ≤ c.toNat ∧ c.toNat < 0x110000) := by
  rcases c.valid with h | ⟨h, h'⟩
  · exact .inl h
  · exact .inr ⟨h, h'⟩

theorem toNat_charOfNat {n : ℕ} (h : n < 0xD800 ∨ (0xE000 ≤ n ∧ n < 0x110000)) :
    (Char.ofNat n).toNat = n := by
  have hvalid : n.isValidChar := h.imp_right fun h => ⟨h.1, h.2⟩
  rw [Char.ofNat, dif_pos hvalid]
  rfl

/-- Outside the basic plane a character is a pair of surrogates. -/
theorem utf16Char_pair {hi lo : ℕ} (hhi : hi < 0x400) (hlo : lo < 0x400) :
    utf16Char (Char.ofNat (0x10000 + hi * 0x400 + lo))
      = [UInt16.ofNat (0xD800 + hi), UInt16.ofNat (0xDC00 + lo)] := by
  have hnat := toNat_charOfNat (n := 0x10000 + hi * 0x400 + lo) (by omega)
  have hdiv : (0x10000 + hi * 0x400 + lo - 0x10000) / 0x400 = hi := by omega
  have hmod : (0x10000 + hi * 0x400 + lo - 0x10000) % 0x400 = lo := by omega
  rw [utf16Char, hnat, if_neg (by omega), hdiv, hmod]

theorem utf16Char_unit {u : UInt16} (h : ¬ (0xD800 ≤ u.toNat ∧ u.toNat < 0xE000)) :
    utf16Char (Char.ofNat u.toNat) = [u] := by
  have hlt := u.toNat_lt
  rw [utf16Char, toNat_charOfNat (by omega), if_pos (by omega), UInt16.ofNat_toNat]

theorem encodeUtf16_of_decodeUtf16 {us : List UInt16} {cs : List Char}
    (h : decodeUtf16 us = some cs) : encodeUtf16 cs = us := by
  fun_induction decodeUtf16 us generalizing cs with
  | case1 =>
    obtain rfl := Option.some.inj h
    rfl
  | case2 => cases h
  | case3 u hunit =>
    obtain rfl := Option.some.inj h
    rw [encodeUtf16, flatMap_singleton, utf16Char_unit hunit]
  | case4 u v rest hsurrogate hpair ih =>
    obtain ⟨tail, htail, rfl⟩ := Option.map_eq_some_iff.mp h
    have hu : UInt16.ofNat (0xD800 + (u.toNat - 0xD800)) = u := by
      rw [Nat.add_sub_cancel' hsurrogate.1, UInt16.ofNat_toNat]
    have hv : UInt16.ofNat (0xDC00 + (v.toNat - 0xDC00)) = v := by
      rw [Nat.add_sub_cancel' hpair.2.1, UInt16.ofNat_toNat]
    rw [encodeUtf16, flatMap_cons, utf16Char_pair (by omega) (by omega), hu, hv]
    exact congrArg (u :: v :: ·) (ih htail)
  | case5 => cases h
  | case6 u v rest hunit ih =>
    obtain ⟨tail, htail, rfl⟩ := Option.map_eq_some_iff.mp h
    rw [encodeUtf16, flatMap_cons, utf16Char_unit hunit]
    exact congrArg (u :: ·) (ih htail)

theorem decodeUtf16_encodeUtf16 (cs : List Char) : decodeUtf16 (encodeUtf16 cs) = some cs := by
  induction cs with
  | nil => rfl
  | cons c cs ih =>
    have hc := toNat_char c
    rw [encodeUtf16, flatMap_cons, utf16Char]
    split
    · next hplane =>
      have hnat : (UInt16.ofNat c.toNat).toNat = c.toNat :=
        UInt16.toNat_ofNat_of_lt' hplane
      have hunit : ¬ (0xD800 ≤ (UInt16.ofNat c.toNat).toNat ∧
          (UInt16.ofNat c.toNat).toNat < 0xE000) := by omega
      change decodeUtf16 (UInt16.ofNat c.toNat :: encodeUtf16 cs) = _
      cases htail : encodeUtf16 cs with
      | nil =>
        rw [htail] at ih
        obtain rfl : [] = cs := Option.some.inj ih
        rw [decodeUtf16, if_neg hunit, hnat, Char.ofNat_toNat]
      | cons v rest =>
        rw [decodeUtf16, if_neg hunit, ← htail, ih, hnat, Char.ofNat_toNat]
        rfl
    · next hplane =>
      have hhi : (UInt16.ofNat (0xD800 + (c.toNat - 0x10000) / 0x400)).toNat
          = 0xD800 + (c.toNat - 0x10000) / 0x400 :=
        UInt16.toNat_ofNat_of_lt' (show _ < 65536 by omega)
      have hlo : (UInt16.ofNat (0xDC00 + (c.toNat - 0x10000) % 0x400)).toNat
          = 0xDC00 + (c.toNat - 0x10000) % 0x400 :=
        UInt16.toNat_ofNat_of_lt' (show _ < 65536 by omega)
      change decodeUtf16 (_ :: _ :: encodeUtf16 cs) = _
      rw [decodeUtf16, hhi, hlo, if_pos (by omega), if_pos (by omega), ih]
      have hcode : 0x10000 + (0xD800 + (c.toNat - 0x10000) / 0x400 - 0xD800) * 0x400
          + (0xDC00 + (c.toNat - 0x10000) % 0x400 - 0xDC00) = c.toNat := by omega
      rw [hcode, Char.ofNat_toNat]
      rfl

/-! ## Bytes -/

inductive ByteOrder where
  | little | big
deriving DecidableEq, Repr

/-- `to_le_bytes` or `to_be_bytes`. -/
def unitBytes : ByteOrder → UInt16 → List UInt8
  | .little, u => [UInt8.ofNat (u.toNat % 256), UInt8.ofNat (u.toNat / 256)]
  | .big, u => [UInt8.ofNat (u.toNat / 256), UInt8.ofNat (u.toNat % 256)]

/-- The code unit of two bytes. -/
def unitOfBytes : ByteOrder → UInt8 → UInt8 → UInt16
  | .little, a, b => UInt16.ofNat (b.toNat * 256 + a.toNat)
  | .big, a, b => UInt16.ofNat (a.toNat * 256 + b.toNat)

/-- The code units of an even number of bytes. -/
def bytesToUnits (order : ByteOrder) : List UInt8 → Option (List UInt16)
  | [] => some []
  | [_] => none
  | a :: b :: rest => (bytesToUnits order rest).map (unitOfBytes order a b :: ·)

variable (order : ByteOrder)

theorem unitBytes_unitOfBytes (a b : UInt8) : unitBytes order (unitOfBytes order a b) = [a, b] := by
  have ha := a.toNat_lt
  have hb := b.toNat_lt
  cases order with
  | little =>
    have hnat : (UInt16.ofNat (b.toNat * 256 + a.toNat)).toNat = b.toNat * 256 + a.toNat :=
      UInt16.toNat_ofNat_of_lt' (show _ < 65536 by omega)
    have hmod : (b.toNat * 256 + a.toNat) % 256 = a.toNat := by omega
    have hdiv : (b.toNat * 256 + a.toNat) / 256 = b.toNat := by omega
    rw [unitOfBytes, unitBytes, hnat, hmod, hdiv, UInt8.ofNat_toNat, UInt8.ofNat_toNat]
  | big =>
    have hnat : (UInt16.ofNat (a.toNat * 256 + b.toNat)).toNat = a.toNat * 256 + b.toNat :=
      UInt16.toNat_ofNat_of_lt' (show _ < 65536 by omega)
    have hmod : (a.toNat * 256 + b.toNat) % 256 = b.toNat := by omega
    have hdiv : (a.toNat * 256 + b.toNat) / 256 = a.toNat := by omega
    rw [unitOfBytes, unitBytes, hnat, hmod, hdiv, UInt8.ofNat_toNat, UInt8.ofNat_toNat]

theorem bytesToUnits_unitBytes (u : UInt16) (rest : List UInt8) :
    bytesToUnits order (unitBytes order u ++ rest) = (bytesToUnits order rest).map (u :: ·) := by
  have hu := u.toNat_lt
  have hdiv : (UInt8.ofNat (u.toNat / 256)).toNat = u.toNat / 256 :=
    UInt8.toNat_ofNat_of_lt' (show _ < 256 by omega)
  have hmod : (UInt8.ofNat (u.toNat % 256)).toNat = u.toNat % 256 :=
    UInt8.toNat_ofNat_of_lt' (show _ < 256 by omega)
  have hnat : u.toNat / 256 * 256 + u.toNat % 256 = u.toNat := by omega
  cases order <;>
    simp only [unitBytes, cons_append, nil_append, bytesToUnits, unitOfBytes, hdiv, hmod,
      hnat, UInt16.ofNat_toNat]

theorem flatMap_unitBytes_of_bytesToUnits {order : ByteOrder} {bytes : List UInt8}
    {us : List UInt16} (h : bytesToUnits order bytes = some us) :
    us.flatMap (unitBytes order) = bytes := by
  fun_induction bytesToUnits order bytes generalizing us with
  | case1 =>
    obtain rfl := Option.some.inj h
    rfl
  | case2 => cases h
  | case3 a b rest ih =>
    obtain ⟨tail, htail, rfl⟩ := Option.map_eq_some_iff.mp h
    rw [flatMap_cons, unitBytes_unitOfBytes, ih htail]
    rfl

theorem bytesToUnits_flatMap_unitBytes (us : List UInt16) :
    bytesToUnits order (us.flatMap (unitBytes order)) = some us := by
  induction us with
  | nil => rfl
  | cons u us ih => rw [flatMap_cons, bytesToUnits_unitBytes, ih]; rfl

end Taomni
