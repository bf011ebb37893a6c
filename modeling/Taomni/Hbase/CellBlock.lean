import Taomni.Common.ByteFields
import Taomni.Common.Fallible

/-!
# Cell blocks

A cell is four lengths and four texts, and one of the lengths is left out. What a decoder accepts is exactly what
the encoder writes.

Reference: `Cell::encode`, `Cell::decode`, `encode_cell_block` and `decode_cell_block` of
`src-tauri/src/hbase/native/cell.rs`.
-/

namespace Taomni.Hbase.CellBlock

open List

abbrev Bytes := List UInt8

structure Cell where
  row : Bytes
  family : Bytes
  qualifier : Bytes
  timestamp : UInt64
  cellType : UInt8
  value : Bytes
deriving DecidableEq

inductive CellError where
  | truncated (text : String)
  | invalid (text : String)
deriving DecidableEq

/-- A decoder fails with an error of its own, or a read goes past the end. -/
inductive DecodeFailure where
  | cell (error : CellError)
  | panic
deriving DecidableEq

abbrev Decoding := Except DecodeFailure

/-! ## Reading -/

/-- `Buf::get_u32` and its like, by the number of bytes. -/
def getUint (n : ℕ) (buf : Bytes) : Decoding (ℕ × Bytes) :=
  if n ≤ buf.length then .ok (bigEndianNat (buf.take n), buf.drop n) else .error .panic

/-- `Bytes::split_to`. -/
def splitTo (n : ℕ) (buf : Bytes) : Decoding (Bytes × Bytes) :=
  if n ≤ buf.length then .ok (buf.take n, buf.drop n) else .error .panic

/-- A subtraction of lengths. -/
def lengthSub (m n : ℕ) : Decoding ℕ := if n ≤ m then .ok (m - n) else .error .panic

def require (holds : Bool) (failure : DecodeFailure) : Decoding Unit := if holds then .ok () else .error failure

/-! ## Cells -/

namespace Cell

def keyLen (cell : Cell) : ℕ := 2 + cell.row.length + 1 + cell.family.length + cell.qualifier.length + 8 + 1

def kvLen (cell : Cell) : ℕ := 4 + 4 + cell.keyLen + cell.value.length

def encode (cell : Cell) : Bytes :=
  bigEndianBytes 4 cell.kvLen ++ bigEndianBytes 4 cell.keyLen ++ bigEndianBytes 4 cell.value.length ++
    bigEndianBytes 2 cell.row.length ++ cell.row ++ bigEndianBytes 1 cell.family.length ++ cell.family ++
    cell.qualifier ++ bigEndianBytes 8 cell.timestamp.toNat ++ [cell.cellType] ++ cell.value

/-- The cell at the front of a buffer, and what is after it. -/
def decode (buf : Bytes) : Decoding (Cell × Bytes) := do
  require (4 ≤ buf.length) (.cell (.truncated "missing kv_len"))
  let (kvLen, buf) ← getUint 4 buf
  require (kvLen ≤ buf.length) (.cell (.truncated s!"kv_len {kvLen} exceeds remaining {buf.length}"))
  let (body, buf) ← splitTo kvLen buf
  require (8 ≤ body.length) (.cell (.truncated "missing key/value lengths"))
  let (keyLen, body) ← getUint 4 body
  let (valueLen, body) ← getUint 4 body
  require (body.length = keyLen + valueLen)
    (.cell (.invalid s!"key_len {keyLen} + value_len {valueLen} != body {body.length}"))
  let (key, value) ← splitTo keyLen body
  require (2 ≤ key.length) (.cell (.truncated "missing row_len"))
  let (rowLen, key) ← getUint 2 key
  require (rowLen + 1 ≤ key.length) (.cell (.truncated "row/family_len"))
  let (row, key) ← splitTo rowLen key
  let (familyLen, key) ← getUint 1 key
  -- What remains holds the family, the qualifier, the time and the type.
  require (familyLen + 9 ≤ key.length) (.cell (.truncated "family/qualifier/ts/type"))
  let (family, key) ← splitTo familyLen key
  let qualifierLen ← lengthSub key.length 9
  let (qualifier, key) ← splitTo qualifierLen key
  let (timestamp, key) ← getUint 8 key
  let (cellType, key) ← getUint 1 key
  -- The assertion of debug builds.
  require key.isEmpty .panic
  pure (⟨row, family, qualifier, .ofNat timestamp, .ofNat cellType, value⟩, buf)

/-- A cell whose lengths fit their fields. -/
structure Fits (cell : Cell) : Prop where
  row : cell.row.length < 65536
  family : cell.family.length < 256
  total : cell.kvLen < 2 ^ 32

end Cell

/-! ## Reads that succeed -/

variable {n : ℕ}

theorem getUint_append {value : ℕ} (h : value < 256 ^ n) (rest : Bytes) :
    getUint n (bigEndianBytes n value ++ rest) = .ok (value, rest) := by
  have hlength := length_bigEndianBytes n value
  have hle : n ≤ (bigEndianBytes n value ++ rest).length := by
    rw [length_append, hlength]
    exact Nat.le_add_right _ _
  rw [getUint, if_pos hle, take_left' hlength, drop_left' hlength, bigEndianNat_bigEndianBytes h]

theorem splitTo_append (front rest : Bytes) : splitTo front.length (front ++ rest) = .ok (front, rest) := by
  have hle : front.length ≤ (front ++ rest).length := by
    rw [length_append]
    exact Nat.le_add_right _ _
  rw [splitTo, if_pos hle, take_left, drop_left]

variable {holds : Bool}

theorem require_pos (h : holds = true) (failure : DecodeFailure) : require holds failure = .ok () :=
  if_pos h

variable {failure : DecodeFailure}

theorem require_eq_ok {u : Unit} (h : require holds failure = .ok u) : holds = true := by
  unfold require at h
  split at h
  · assumption
  · cases h

variable {buf : Bytes}

variable {rest : Bytes}

theorem getUint_eq_ok {value : ℕ} (h : getUint n buf = .ok (value, rest)) :
    value < 256 ^ n ∧ buf = bigEndianBytes n value ++ rest := by
  unfold getUint at h
  split at h
  · next hle =>
    cases h
    have hlength : (buf.take n).length = n := length_take_of_le hle
    have hlt := bigEndianNat_lt (buf.take n)
    have hbytes := bigEndianBytes_bigEndianNat (buf.take n)
    rw [hlength] at hlt hbytes
    exact ⟨hlt, by rw [hbytes, take_append_drop]⟩
  · cases h

theorem splitTo_eq_ok {front : Bytes} (h : splitTo n buf = .ok (front, rest)) :
    n = front.length ∧ buf = front ++ rest := by
  unfold splitTo at h
  split at h
  · next hle =>
    cases h
    exact ⟨(length_take_of_le hle).symm, (take_append_drop n buf).symm⟩
  · cases h

theorem ok_bind {α β : Type} (a : α) (f : α → Decoding β) : (Except.ok a >>= f) = f a := rfl

/-! ## One cell -/

variable {cell : Cell}

namespace Cell

/-- The section of the key. -/
def key (cell : Cell) : Bytes :=
  bigEndianBytes 2 cell.row.length ++ (cell.row ++ (bigEndianBytes 1 cell.family.length ++ (cell.family ++
    (cell.qualifier ++ (bigEndianBytes 8 cell.timestamp.toNat ++ [cell.cellType])))))

/-- What the first length counts. -/
def body (cell : Cell) : Bytes :=
  bigEndianBytes 4 cell.keyLen ++ (bigEndianBytes 4 cell.value.length ++ (cell.key ++ cell.value))

theorem encode_eq (cell : Cell) : cell.encode = bigEndianBytes 4 cell.kvLen ++ cell.body := by
  simp only [encode, body, key, append_assoc]

theorem length_key (cell : Cell) : cell.key.length = cell.keyLen := by
  simp only [key, keyLen, length_append, length_bigEndianBytes, length_singleton]
  omega

theorem length_body (cell : Cell) : cell.body.length = cell.kvLen := by
  simp only [body, kvLen, length_append, length_bigEndianBytes, length_key]
  omega

theorem length_encode (cell : Cell) : cell.encode.length = 4 + cell.kvLen := by
  rw [encode_eq, length_append, length_bigEndianBytes, length_body]

/-- A cell that fits is read as it was written, whatever follows it. -/
theorem decode_encode (h : cell.Fits) (rest : Bytes) :
    decode (cell.encode ++ rest) = .ok (cell, rest) := by
  have htotal := h.total
  have hkv : cell.kvLen = 8 + cell.keyLen + cell.value.length := rfl
  have hkey : cell.keyLen
      = 3 + cell.row.length + cell.family.length + cell.qualifier.length + 9 := by
    rw [keyLen]
    omega
  have hrow := h.row
  have hfamily := h.family
  have htime : cell.timestamp.toNat < 256 ^ 8 := cell.timestamp.toNat_lt
  have htype : bigEndianBytes 1 cell.cellType.toNat = [cell.cellType] := by
    rw [bigEndianBytes, bigEndianBytes, UInt8.ofNat_toNat]
    rfl
  rw [encode_eq, append_assoc, decode]
  rw [require_pos (by rw [decide_eq_true_eq, length_append, length_bigEndianBytes]; omega), ok_bind,
    getUint_append (by omega), ok_bind]
  dsimp only
  rw [require_pos (by rw [decide_eq_true_eq, length_append, length_body]; omega), ok_bind, ← length_body,
    splitTo_append, ok_bind]
  dsimp only
  rw [require_pos (by rw [decide_eq_true_eq, length_body]; omega), ok_bind, body, getUint_append (by omega), ok_bind]
  dsimp only
  rw [getUint_append (by omega), ok_bind]
  dsimp only
  rw [require_pos (by rw [decide_eq_true_eq, length_append, length_key]), ok_bind, ← length_key, splitTo_append,
    ok_bind]
  dsimp only
  rw [require_pos (by rw [decide_eq_true_eq, length_key]; omega), ok_bind, key, getUint_append (by omega), ok_bind]
  dsimp only
  rw [require_pos (by
      rw [decide_eq_true_eq, length_append, length_append, length_bigEndianBytes]
      omega), ok_bind, splitTo_append, ok_bind]
  dsimp only
  rw [getUint_append (by omega), ok_bind]
  dsimp only
  have hend : (bigEndianBytes 8 cell.timestamp.toNat ++ [cell.cellType]).length = 9 := by
    rw [length_append, length_bigEndianBytes, length_singleton]
  rw [require_pos (by
      rw [decide_eq_true_eq, length_append, length_append, hend]
      omega), ok_bind, splitTo_append, ok_bind]
  dsimp only
  have hsub : lengthSub (cell.qualifier ++ (bigEndianBytes 8 cell.timestamp.toNat ++ [cell.cellType])).length 9
      = .ok cell.qualifier.length := by
    rw [length_append, hend, lengthSub, if_pos (Nat.le_add_left _ _), Nat.add_sub_cancel]
  rw [hsub, ok_bind, splitTo_append, ok_bind]
  dsimp only
  rw [getUint_append htime, ok_bind]
  dsimp only
  rw [← htype, ← append_nil (bigEndianBytes 1 _), getUint_append cell.cellType.toNat_lt, ok_bind]
  dsimp only
  rw [UInt64.ofNat_toNat, UInt8.ofNat_toNat]
  rfl

/-- What is read is a cell that fits, as it is written. -/
theorem encode_decode (h : decode buf = .ok (cell, rest)) : cell.Fits ∧ cell.encode ++ rest = buf := by
  unfold decode at h
  obtain ⟨_, -, h⟩ := exists_of_bind_eq_ok h
  obtain ⟨⟨kvLen, afterKv⟩, hkv, h⟩ := exists_of_bind_eq_ok h
  obtain ⟨_, -, h⟩ := exists_of_bind_eq_ok h
  obtain ⟨⟨body, after⟩, hbody, h⟩ := exists_of_bind_eq_ok h
  obtain ⟨_, -, h⟩ := exists_of_bind_eq_ok h
  obtain ⟨⟨keyLen, afterKeyLen⟩, hkeyLen, h⟩ := exists_of_bind_eq_ok h
  obtain ⟨⟨valueLen, afterValueLen⟩, hvalueLen, h⟩ := exists_of_bind_eq_ok h
  obtain ⟨_, hlengths, h⟩ := exists_of_bind_eq_ok h
  obtain ⟨⟨key, value⟩, hkey, h⟩ := exists_of_bind_eq_ok h
  obtain ⟨_, -, h⟩ := exists_of_bind_eq_ok h
  obtain ⟨⟨rowLen, afterRowLen⟩, hrowLen, h⟩ := exists_of_bind_eq_ok h
  obtain ⟨_, -, h⟩ := exists_of_bind_eq_ok h
  obtain ⟨⟨row, afterRow⟩, hrow, h⟩ := exists_of_bind_eq_ok h
  obtain ⟨⟨familyLen, afterFamilyLen⟩, hfamilyLen, h⟩ := exists_of_bind_eq_ok h
  obtain ⟨_, -, h⟩ := exists_of_bind_eq_ok h
  obtain ⟨⟨family, afterFamily⟩, hfamily, h⟩ := exists_of_bind_eq_ok h
  obtain ⟨qualifierLen, hqualifierLen, h⟩ := exists_of_bind_eq_ok h
  obtain ⟨⟨qualifier, afterQualifier⟩, hqualifier, h⟩ := exists_of_bind_eq_ok h
  obtain ⟨⟨timestamp, afterTime⟩, htime, h⟩ := exists_of_bind_eq_ok h
  obtain ⟨⟨cellType, afterType⟩, htype, h⟩ := exists_of_bind_eq_ok h
  obtain ⟨_, hempty, h⟩ := exists_of_bind_eq_ok h
  cases h
  dsimp only at *
  obtain ⟨hkvLt, rfl⟩ := getUint_eq_ok hkv
  obtain ⟨rfl, rfl⟩ := splitTo_eq_ok hbody
  obtain ⟨-, rfl⟩ := getUint_eq_ok hkeyLen
  obtain ⟨-, rfl⟩ := getUint_eq_ok hvalueLen
  obtain ⟨rfl, rfl⟩ := splitTo_eq_ok hkey
  obtain ⟨hrowLt, rfl⟩ := getUint_eq_ok hrowLen
  obtain ⟨rfl, rfl⟩ := splitTo_eq_ok hrow
  obtain ⟨hfamilyLt, rfl⟩ := getUint_eq_ok hfamilyLen
  obtain ⟨rfl, rfl⟩ := splitTo_eq_ok hfamily
  obtain ⟨rfl, rfl⟩ := splitTo_eq_ok hqualifier
  obtain ⟨htimeLt, rfl⟩ := getUint_eq_ok htime
  obtain ⟨htypeLt, rfl⟩ := getUint_eq_ok htype
  have hvalue : valueLen = value.length := by
    have hsum := of_decide_eq_true (require_eq_ok hlengths)
    rw [length_append] at hsum
    omega
  rw [List.isEmpty_iff.mp (require_eq_ok hempty), append_nil] at *
  subst hvalue
  have htimeOf : (UInt64.ofNat timestamp).toNat = timestamp := UInt64.toNat_ofNat_of_lt' htimeLt
  have htypeOf : [UInt8.ofNat cellType] = bigEndianBytes 1 cellType := rfl
  have hkeyEq : bigEndianBytes 2 row.length ++ (row ++ (bigEndianBytes 1 family.length ++ (family ++ (qualifier ++
      (bigEndianBytes 8 timestamp ++ bigEndianBytes 1 cellType)))))
        = key ⟨row, family, qualifier, .ofNat timestamp, .ofNat cellType, value⟩ := by
    rw [key, htimeOf, htypeOf]
  rw [hkeyEq, length_key] at hkvLt ⊢
  have hbodyEq := length_body ⟨row, family, qualifier, .ofNat timestamp, .ofNat cellType, value⟩
  rw [body] at hbodyEq
  rw [hbodyEq] at hkvLt ⊢
  refine ⟨⟨hrowLt, hfamilyLt, hkvLt⟩, ?_⟩
  rw [encode_eq, body, append_assoc]

end Cell

/-! ## Reads inside their buffer -/

/-- No read goes past the end. -/
def InBounds {α : Type} (x : Decoding α) : Prop := x ≠ .error .panic

section

variable {α β : Type}

theorem InBounds.bind {x : Decoding α} {f : α → Decoding β} (hx : InBounds x)
    (hf : ∀ a, x = .ok a → InBounds (f a)) : InBounds (x >>= f) := by
  cases x with
  | error e =>
    intro h
    exact hx (Except.error.inj h ▸ rfl)
  | ok a => exact hf a rfl

theorem inBounds_require (error : CellError) : InBounds (require holds (.cell error)) := by
  unfold require
  split <;> nofun

theorem inBounds_getUint (h : n ≤ buf.length) : InBounds (getUint n buf) := by
  rw [getUint, if_pos h]
  nofun

theorem inBounds_splitTo (h : n ≤ buf.length) : InBounds (splitTo n buf) := by
  rw [splitTo, if_pos h]
  nofun

/-- A guard, and what is behind it. -/
theorem InBounds.guard {p : Prop} [Decidable p] {error : CellError} {f : Unit → Decoding β}
    (hf : p → InBounds (f ())) : InBounds (require p (.cell error) >>= f) :=
  (inBounds_require error).bind fun _ h => hf (of_decide_eq_true (require_eq_ok h))

theorem InBounds.uint {f : ℕ × Bytes → Decoding β} (h : n ≤ buf.length)
    (hf : ∀ value rest, rest.length + n = buf.length → InBounds (f (value, rest))) : InBounds (getUint n buf >>= f) := by
  refine (inBounds_getUint h).bind fun ⟨value, rest⟩ hread => hf value rest ?_
  rw [(getUint_eq_ok hread).2, length_append, length_bigEndianBytes, Nat.add_comm]

theorem InBounds.split {f : Bytes × Bytes → Decoding β} (h : n ≤ buf.length)
    (hf : ∀ front rest, front.length = n → rest.length + n = buf.length → InBounds (f (front, rest))) :
    InBounds (splitTo n buf >>= f) := by
  refine (inBounds_splitTo h).bind fun ⟨front, rest⟩ hsplit => ?_
  obtain ⟨rfl, rfl⟩ := splitTo_eq_ok hsplit
  exact hf front rest rfl (by rw [length_append, Nat.add_comm])

end

theorem inBounds_decode (buf : Bytes) : InBounds (Cell.decode buf) := by
  unfold Cell.decode
  refine InBounds.guard fun h => InBounds.uint h fun kvLen afterKv _ => ?_
  refine InBounds.guard fun h => InBounds.split h fun body after hbody _ => ?_
  refine InBounds.guard fun h => InBounds.uint (by omega) fun keyLen afterKeyLen _ => ?_
  refine InBounds.uint (by omega) fun valueLen afterValueLen _ => ?_
  refine InBounds.guard fun h => InBounds.split (by omega) fun key value _ _ => ?_
  refine InBounds.guard fun h => InBounds.uint h fun rowLen afterRowLen _ => ?_
  refine InBounds.guard fun h => InBounds.split (by omega) fun row afterRow _ _ => ?_
  refine InBounds.uint (by omega) fun familyLen afterFamilyLen _ => ?_
  refine InBounds.guard fun h => InBounds.split (by omega) fun family afterFamily _ _ => ?_
  have hsub : lengthSub afterFamily.length 9 = .ok (afterFamily.length - 9) := if_pos (by omega)
  dsimp only
  rw [hsub, ok_bind]
  refine InBounds.split (by omega) fun qualifier afterQualifier _ _ => ?_
  dsimp only
  refine InBounds.uint (by omega) fun timestamp afterTime _ => ?_
  dsimp only
  refine InBounds.uint (by omega) fun cellType afterType _ => ?_
  have hempty : afterType = [] := length_eq_zero_iff.mp (by omega)
  subst hempty
  nofun

/-! ## Blocks -/

def encodeCellBlock (cells : List Cell) : Bytes := cells.flatMap Cell.encode

theorem length_decode_lt (h : Cell.decode buf = .ok (cell, rest)) : rest.length < buf.length := by
  rw [← (Cell.encode_decode h).2, length_append, Cell.length_encode]
  omega

/-- As many cells as the count says. -/
def decodeCount : ℕ → Bytes → Decoding (List Cell)
  | 0, _ => .ok []
  | n + 1, buf => do
    let (cell, buf) ← Cell.decode buf
    let cells ← decodeCount n buf
    pure (cell :: cells)

/-- Cells up to the end of the buffer. -/
def decodeAll (buf : Bytes) : Decoding (List Cell) :=
  if buf.isEmpty then .ok []
  else
    match _h : Cell.decode buf with
    | .error failure => .error failure
    | .ok (cell, rest) => (decodeAll rest).map (cell :: ·)
termination_by buf.length
decreasing_by exact length_decode_lt _h

def decodeCellBlock (block : Bytes) : Option ℕ → Decoding (List Cell)
  | some n => decodeCount n block
  | none => decodeAll block

theorem decodeAll_nil : decodeAll [] = .ok [] := by
  rw [decodeAll]
  rfl

theorem decodeAll_error (hne : buf ≠ [])
    (h : Cell.decode buf = .error failure) : decodeAll buf = .error failure := by
  rw [decodeAll, if_neg (mt List.isEmpty_iff.mp hne)]
  split
  · next h' => exact congrArg Except.error (Except.error.inj (h'.symm.trans h))
  · next h' => cases h'.symm.trans h

theorem decodeAll_ok (hne : buf ≠ []) (h : Cell.decode buf = .ok (cell, rest)) :
    decodeAll buf = (decodeAll rest).map (cell :: ·) := by
  rw [decodeAll, if_neg (mt List.isEmpty_iff.mp hne)]
  split
  · next h' => cases h'.symm.trans h
  · next h' =>
    cases h'.symm.trans h
    rfl

/-! ## Blocks come through -/

theorem encode_ne_nil (cell : Cell) (rest : Bytes) : cell.encode ++ rest ≠ [] := by
  intro hnil
  have hlength := congrArg List.length hnil
  rw [length_append, Cell.length_encode, length_nil] at hlength
  omega

variable {cells : List Cell}

theorem decodeAll_encode (h : ∀ cell ∈ cells, cell.Fits) :
    decodeAll (encodeCellBlock cells) = .ok cells := by
  induction cells with
  | nil => exact decodeAll_nil
  | cons cell cells ih =>
    obtain ⟨hcell, hcells⟩ := forall_mem_cons.mp h
    rw [encodeCellBlock, flatMap_cons, decodeAll_ok (encode_ne_nil cell _) (Cell.decode_encode hcell _),
      ← encodeCellBlock, ih hcells]
    rfl

theorem decodeCount_encode (h : ∀ cell ∈ cells, cell.Fits) (rest : Bytes) :
    decodeCount cells.length (encodeCellBlock cells ++ rest) = .ok cells := by
  induction cells with
  | nil => rfl
  | cons cell cells ih =>
    obtain ⟨hcell, hcells⟩ := forall_mem_cons.mp h
    rw [encodeCellBlock, flatMap_cons, append_assoc, length_cons, decodeCount,
      Cell.decode_encode hcell, ok_bind, ← encodeCellBlock]
    dsimp only
    rw [ih hcells, ok_bind]
    rfl

/-- By induction on the length: each cell that is read is written back in front of the others. -/
theorem encode_decodeAll {block : Bytes} (h : decodeAll block = .ok cells) :
    encodeCellBlock cells = block := by
  generalize hn : block.length = n
  induction n using Nat.strong_induction_on generalizing block cells with
  | _ n ih =>
    by_cases hne : block = []
    · subst hne
      rw [decodeAll_nil] at h
      cases h
      rfl
    · cases hcell : Cell.decode block with
      | error failure =>
        rw [decodeAll_error hne hcell] at h
        cases h
      | ok read =>
        obtain ⟨cell, rest⟩ := read
        rw [decodeAll_ok hne hcell] at h
        cases hrest : decodeAll rest with
        | error failure =>
          rw [hrest] at h
          cases h
        | ok others =>
          rw [hrest] at h
          cases h
          rw [encodeCellBlock, flatMap_cons, ← encodeCellBlock,
            ih rest.length (hn ▸ length_decode_lt hcell) hrest rfl, (Cell.encode_decode hcell).2]

theorem inBounds_decodeAll (block : Bytes) : InBounds (decodeAll block) := by
  generalize hn : block.length = n
  induction n using Nat.strong_induction_on generalizing block with
  | _ n ih =>
    by_cases hne : block = []
    · subst hne
      rw [decodeAll_nil]
      nofun
    · cases hcell : Cell.decode block with
      | error failure =>
        rw [decodeAll_error hne hcell]
        intro hpanic
        exact inBounds_decode block (hcell.trans (congrArg Except.error (Except.error.inj hpanic)))
      | ok read =>
        obtain ⟨cell, rest⟩ := read
        rw [decodeAll_ok hne hcell]
        have hrest := ih rest.length (hn ▸ length_decode_lt hcell) rest rfl
        cases hothers : decodeAll rest with
        | error failure =>
          rw [hothers] at hrest
          exact fun hpanic => hrest (congrArg Except.error (Except.error.inj hpanic))
        | ok others => nofun

theorem inBounds_decodeCount (n : ℕ) (block : Bytes) : InBounds (decodeCount n block) := by
  induction n generalizing block with
  | zero => nofun
  | succ n ih =>
    refine (inBounds_decode block).bind fun ⟨cell, rest⟩ _ => (ih rest).bind fun cells _ => ?_
    nofun

/-- Cells that fit come through a block, with and without their count; a block that is read to its end is
written back as it was; and no read goes past the end of any block. -/
theorem decodeCellBlock_encodeCellBlock : (∀ cells : List Cell, (∀ cell ∈ cells, cell.Fits) →
      decodeCellBlock (encodeCellBlock cells) none = .ok cells ∧
        decodeCellBlock (encodeCellBlock cells) (some cells.length) = .ok cells) ∧
    (∀ block cells, decodeCellBlock block none = .ok cells → encodeCellBlock cells = block) ∧
    ∀ block count, decodeCellBlock block count ≠ .error .panic := by
  refine ⟨fun cells hcells => ⟨decodeAll_encode hcells, ?_⟩, fun block cells h => encode_decodeAll h,
    fun block count => ?_⟩
  · rw [← append_nil (encodeCellBlock cells)]
    exact decodeCount_encode hcells []
  · cases count with
    | none => exact inBounds_decodeAll block
    | some n => exact inBounds_decodeCount n block

/-- A cell of one letter each. -/
def tinyCell : Cell := ⟨[114], [102], [113], 0x0102030405060708, 4, [118]⟩

theorem decodeCellBlock_tinyCell : decodeCellBlock (encodeCellBlock [tinyCell]) none = .ok [tinyCell] ∧
      decodeCellBlock (encodeCellBlock [tinyCell]) (some 1) = .ok [tinyCell] :=
  decodeCellBlock_encodeCellBlock.1 [tinyCell] (forall_mem_singleton.mpr ⟨by decide, by decide, by decide⟩)

end Taomni.Hbase.CellBlock
