import Taomni.Common.Lines

/-!
# Base64

Three bytes are four digits of six bits. An engine has one of two alphabets, and either writes and asks for the padding
of the last digits or knows no padding. A text is refused when it has a character of no digit, when its padding is not
the one asked for, and when bits of the last digit that belong to no byte are set.
-/

namespace Taomni.Base64

open List

/-! ## Digits -/

/-- The digits of some bytes. -/
def encodeDigits : List UInt8 → List ℕ
  | [] => []
  | [a] => [a.toNat / 4, a.toNat % 4 * 16]
  | [a, b] => [a.toNat / 4, a.toNat % 4 * 16 + b.toNat / 16, b.toNat % 16 * 4]
  | a :: b :: c :: bytes =>
    a.toNat / 4 :: (a.toNat % 4 * 16 + b.toNat / 16) :: (b.toNat % 16 * 4 + c.toNat / 64) :: c.toNat % 64 ::
      encodeDigits bytes

/-- The bytes of some digits. -/
def decodeDigits : List ℕ → Option (List UInt8)
  | [] => some []
  | [_] => none
  | [p, q] => if q % 16 = 0 then some [UInt8.ofNat (p * 4 + q / 16)] else none
  | [p, q, r] =>
    if r % 4 = 0 then some [UInt8.ofNat (p * 4 + q / 16), UInt8.ofNat (q % 16 * 16 + r / 4)] else none
  | p :: q :: r :: s :: digits =>
    (decodeDigits digits).map fun bytes =>
      UInt8.ofNat (p * 4 + q / 16) :: UInt8.ofNat (q % 16 * 16 + r / 4) :: UInt8.ofNat (r % 4 * 64 + s) :: bytes

theorem ofNat_eq {n : ℕ} {a : UInt8} (h : n = a.toNat) : UInt8.ofNat n = a := by rw [h, UInt8.ofNat_toNat]

theorem decodeDigits_encodeDigits (bytes : List UInt8) : decodeDigits (encodeDigits bytes) = some bytes := by
  induction bytes using encodeDigits.induct with
  | case1 => rfl
  | case2 a =>
    have hfirst : UInt8.ofNat (a.toNat / 4 * 4 + a.toNat % 4 * 16 / 16) = a := ofNat_eq (by omega)
    rw [encodeDigits, decodeDigits, if_pos (by omega), hfirst]
  | case3 a b =>
    have ha : a.toNat < 256 := a.toNat_lt
    have hb : b.toNat < 256 := b.toNat_lt
    have hfirst : UInt8.ofNat (a.toNat / 4 * 4 + (a.toNat % 4 * 16 + b.toNat / 16) / 16) = a := ofNat_eq (by omega)
    have hsecond : UInt8.ofNat ((a.toNat % 4 * 16 + b.toNat / 16) % 16 * 16 + b.toNat % 16 * 4 / 4) = b :=
      ofNat_eq (by omega)
    rw [encodeDigits, decodeDigits, if_pos (by omega), hfirst, hsecond]
  | case4 a b c bytes ih =>
    have hb : b.toNat < 256 := b.toNat_lt
    have hc : c.toNat < 256 := c.toNat_lt
    have hfirst : UInt8.ofNat (a.toNat / 4 * 4 + (a.toNat % 4 * 16 + b.toNat / 16) / 16) = a := ofNat_eq (by omega)
    have hsecond : UInt8.ofNat ((a.toNat % 4 * 16 + b.toNat / 16) % 16 * 16 + (b.toNat % 16 * 4 + c.toNat / 64) / 4) =
        b := ofNat_eq (by omega)
    have hthird : UInt8.ofNat ((b.toNat % 16 * 4 + c.toNat / 64) % 4 * 64 + c.toNat % 64) = c := ofNat_eq (by omega)
    rw [encodeDigits, decodeDigits, ih, Option.map_some, hfirst, hsecond, hthird]

theorem encodeDigits_lt (bytes : List UInt8) : ∀ n ∈ encodeDigits bytes, n < 64 := by
  induction bytes using encodeDigits.induct with
  | case1 => exact fun n hn => nomatch hn
  | case2 a =>
    have ha : a.toNat < 256 := a.toNat_lt
    rw [encodeDigits]
    simp only [forall_mem_cons, not_mem_nil, false_implies, implies_true, and_true]
    omega
  | case3 a b =>
    have ha : a.toNat < 256 := a.toNat_lt
    have hb : b.toNat < 256 := b.toNat_lt
    rw [encodeDigits]
    simp only [forall_mem_cons, not_mem_nil, false_implies, implies_true, and_true]
    omega
  | case4 a b c bytes ih =>
    have ha : a.toNat < 256 := a.toNat_lt
    have hb : b.toNat < 256 := b.toNat_lt
    have hc : c.toNat < 256 := c.toNat_lt
    rw [encodeDigits]
    simp only [forall_mem_cons]
    exact ⟨by omega, by omega, by omega, by omega, ih⟩

/-! ## Alphabets -/

def alphabet (urlSafe : Bool) : List Char :=
  "ABCDEFGHIJKLMNOPQRSTUVWXYZabcdefghijklmnopqrstuvwxyz0123456789".toList ++
    (if urlSafe then ['-', '_'] else ['+', '/'])

def symbol (urlSafe : Bool) (digit : ℕ) : Char := (alphabet urlSafe).getD digit '='

def value (urlSafe : Bool) (c : Char) : Option ℕ := (alphabet urlSafe).idxOf? c

theorem value_symbol : ∀ urlSafe, ∀ digit < 64, value urlSafe (symbol urlSafe digit) = some digit := by
  decide +kernel

theorem symbol_mem : ∀ urlSafe, ∀ digit < 64, (alphabet urlSafe).contains (symbol urlSafe digit) = true := by
  decide +kernel

variable {c : Char}

/-- No character has two values. -/
theorem value_agree {u v : Bool} {m n : ℕ} (hm : value u c = some m) (hn : value v c = some n) : m = n := by
  have htable : ∀ u v : Bool, (alphabet u).all (fun c => (value u c).all fun m => (value v c).all (· = m)) = true := by
    decide +kernel
  have hc : c ∈ alphabet u := by
    by_contra hnot
    rw [value, List.idxOf?_eq_none_iff.2 hnot] at hm
    exact nomatch hm
  have hall := all_eq_true.1 (htable u v) c hc
  rw [hm, Option.all_some, hn, Option.all_some, decide_eq_true_eq] at hall
  exact hall.symm

theorem value_eq_none {u : Bool} (h : c ∉ alphabet u) : value u c = none := List.idxOf?_eq_none_iff.2 h

/-! ## Engines -/

structure Engine where
  urlSafe : Bool
  padded : Bool
deriving DecidableEq

/-- The padding after some digits. -/
def Engine.padding (e : Engine) (digits : ℕ) : ℕ := if e.padded then (4 - digits % 4) % 4 else 0

def Engine.encode (e : Engine) (bytes : List UInt8) : List Char :=
  let digits := encodeDigits bytes
  digits.map (symbol e.urlSafe) ++ List.replicate (e.padding digits.length) '='

def Engine.decode (e : Engine) (text : List Char) : Option (List UInt8) :=
  let body := text.rdropWhile (· == '=')
  if text.length = body.length + e.padding body.length then (body.mapM (value e.urlSafe)).bind decodeDigits else none

theorem mapM_value_symbol (urlSafe : Bool) {digits : List ℕ} (h : ∀ n ∈ digits, n < 64) :
    (digits.map (symbol urlSafe)).mapM (value urlSafe) = some digits := by
  induction digits with
  | nil => rfl
  | cons n digits ih =>
    obtain ⟨hn, hdigits⟩ := forall_mem_cons.1 h
    rw [map_cons, mapM_cons, value_symbol urlSafe n hn, ih hdigits]
    rfl

/-- The characters of an encoding. -/
theorem mem_encode {e : Engine} {bytes : List UInt8} (h : c ∈ e.encode bytes) :
    c ∈ alphabet e.urlSafe ∨ c = '=' := by
  rw [Engine.encode, mem_append] at h
  rcases h with h | h
  · obtain ⟨n, hn, rfl⟩ := mem_map.1 h
    exact Or.inl (contains_iff_mem.1 (symbol_mem e.urlSafe n (encodeDigits_lt bytes n hn)))
  · exact Or.inr (eq_of_mem_replicate h)

/-- What an engine writes it reads. -/
theorem decode_encode (e : Engine) (bytes : List UInt8) : e.decode (e.encode bytes) = some bytes := by
  have hlt := encodeDigits_lt bytes
  have hsymbols : ∀ c ∈ (encodeDigits bytes).map (symbol e.urlSafe), ¬(c == '=') = true := by
    intro c hc
    obtain ⟨n, hn, rfl⟩ := mem_map.1 hc
    have hmem := contains_iff_mem.1 (symbol_mem e.urlSafe n (hlt n hn))
    have hnone : ∀ u : Bool, (alphabet u).all (· != '=') = true := by decide +kernel
    have hne := all_eq_true.1 (hnone e.urlSafe) _ hmem
    rwa [bne_iff_ne, ← beq_eq_false_iff_ne, ← Bool.not_eq_true] at hne
  have hbody : (e.encode bytes).rdropWhile (· == '=') = (encodeDigits bytes).map (symbol e.urlSafe) := by
    rw [Engine.encode, rdropWhile_append_of_forall fun c hc => by rw [eq_of_mem_replicate hc, beq_self_eq_true]]
    cases hlast : ((encodeDigits bytes).map (symbol e.urlSafe)).reverse with
    | nil => rw [List.reverse_eq_nil_iff.1 hlast, rdropWhile_nil]
    | cons c rest =>
      have hc : c ∈ (encodeDigits bytes).map (symbol e.urlSafe) := by
        rw [← mem_reverse, hlast]
        exact mem_cons_self
      rw [List.rdropWhile, hlast, dropWhile_cons_of_neg (p := (· == '=')) (hsymbols c hc), ← hlast, reverse_reverse]
  rw [Engine.decode, hbody, if_pos, mapM_value_symbol _ hlt, Option.bind_some, decodeDigits_encodeDigits]
  rw [Engine.encode, length_append, length_replicate, length_map]

variable {text : List Char}

theorem mapM_value_agree {u v : Bool} {digits digits' : List ℕ}
    (h : text.mapM (value u) = some digits) (h' : text.mapM (value v) = some digits') : digits = digits' := by
  induction text generalizing digits digits' with
  | nil =>
    cases h
    cases h'
    rfl
  | cons c text ih =>
    rw [mapM_cons] at h h'
    obtain ⟨m, hm, h⟩ := Option.bind_eq_some_iff.1 h
    obtain ⟨rest, hrest, h⟩ := Option.bind_eq_some_iff.1 h
    obtain ⟨n, hn, h'⟩ := Option.bind_eq_some_iff.1 h'
    obtain ⟨rest', hrest', h'⟩ := Option.bind_eq_some_iff.1 h'
    cases h
    cases h'
    rw [value_agree hm hn, ih hrest hrest']

/-- Engines that both read a text read the same bytes. -/
theorem decode_agree {e f : Engine} {bytes bytes' : List UInt8} (h : e.decode text = some bytes)
    (h' : f.decode text = some bytes') : bytes = bytes' := by
  rw [Engine.decode, Option.ite_none_right_eq_some] at h h'
  obtain ⟨digits, hdigits, h⟩ := Option.bind_eq_some_iff.1 h.2
  obtain ⟨digits', hdigits', h'⟩ := Option.bind_eq_some_iff.1 h'.2
  rw [mapM_value_agree hdigits hdigits', h'] at h
  exact (Option.some.inj h).symm

theorem mapM_value_eq_none {u : Bool} (hmem : c ∈ text) (hc : c ∉ alphabet u) :
    text.mapM (value u) = none := by
  induction text with
  | nil => exact nomatch hmem
  | cons d text ih =>
    rw [mapM_cons]
    rcases mem_cons.1 hmem with rfl | hmem
    · rw [value_eq_none hc]
      rfl
    · rw [ih hmem]
      cases value u d <;> rfl

/-- A character of neither a digit nor padding is refused. -/
theorem decode_eq_none {e : Engine} (hmem : c ∈ text) (hc : c ∉ alphabet e.urlSafe)
    (hpad : c ≠ '=') : e.decode text = none := by
  have hbody : c ∈ text.rdropWhile (· == '=') := mem_rdropWhile hmem (by rwa [beq_iff_eq])
  rw [Engine.decode, mapM_value_eq_none hbody hc, Option.bind_none, ite_self]

theorem decode_nil (e : Engine) : e.decode [] = some [] := by
  obtain ⟨urlSafe, padded⟩ := e
  cases padded <;> rfl

end Taomni.Base64
