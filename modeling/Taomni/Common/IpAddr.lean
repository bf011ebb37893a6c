import Mathlib.Algebra.Group.Nat.Defs
import Mathlib.Data.List.DropRight

/-!
# Addresses of the Internet protocol

`std::net::IpAddr` with its text form. Reading follows the parser of the standard library: a reader takes
what it reads off a text, and leaves the text as it was where it fails.
-/

namespace Taomni

inductive IpAddr where
  | v4 (bits : BitVec 32)
  | v6 (bits : BitVec 128)
deriving DecidableEq

namespace IpAddr

/-! ## Reading -/

/-- What is read, and the text after it. -/
abbrev Reader (α : Type) := List Char → Option (α × List Char)

/-- `char::to_digit`. -/
def toDigit (radix : ℕ) (c : Char) : Option ℕ :=
  let value :=
    if '0' ≤ c ∧ c ≤ '9' then some (c.toNat - '0'.toNat)
    else if 'a' ≤ c ∧ c ≤ 'z' then some (c.toNat - 'a'.toNat + 10)
    else if 'A' ≤ c ∧ c ≤ 'Z' then some (c.toNat - 'A'.toNat + 10)
    else none
  value.filter (· < radix)

/-- `read_number`, of a number below `limit` in at most `maxDigits` digits. -/
def readNumber (radix maxDigits limit : ℕ) (allowZeroPrefix : Bool) : Reader ℕ := fun s =>
  let digits := s.takeWhile fun c => (toDigit radix c).isSome
  let number := digits.foldl (fun n c => n * radix + (toDigit radix c).getD 0) 0
  if digits.isEmpty ∨ maxDigits < digits.length then none
  else if !allowZeroPrefix && digits.head? = some '0' && 1 < digits.length then none
  else if number < limit then some (number, s.drop digits.length) else none

/-- `read_separator`: every piece but the first follows a separator. -/
def readSeparator {α : Type} (sep : Char) (isFirst : Bool) (inner : Reader α) : Reader α
  | c :: s => if isFirst then inner (c :: s) else if c = sep then inner s else none
  | [] => if isFirst then inner [] else none

/-- `read_ipv4_addr`. -/
def readIpv4 : Reader (BitVec 32) := fun s => do
  let octet := readNumber 10 3 256 false
  let (a, s) ← readSeparator '.' true octet s
  let (b, s) ← readSeparator '.' false octet s
  let (c, s) ← readSeparator '.' false octet s
  let (d, s) ← readSeparator '.' false octet s
  some (BitVec.ofNat 32 (((a * 256 + b) * 256 + c) * 256 + d), s)

/-- `read_groups` with room for some groups: the groups, whether the last two were written as an IPv4
address, and the text after them. -/
def readGroups : ℕ → Bool → List Char → List ℕ × Bool × List Char
  | 0, _, s => ([], false, s)
  | room + 1, isFirst, s =>
    match if 0 < room then readSeparator ':' isFirst readIpv4 s else none with
    | some (address, s) => ([address.toNat / 2 ^ 16, address.toNat % 2 ^ 16], true, s)
    | none =>
      match readSeparator ':' isFirst (readNumber 16 4 (2 ^ 16) true) s with
      | some (group, s) =>
        let (groups, ipv4, s) := readGroups room false s
        (group :: groups, ipv4, s)
      | none => ([], false, s)

def ofGroups (groups : List ℕ) : BitVec 128 :=
  BitVec.ofNat 128 (groups.foldl (fun n group => n * 2 ^ 16 + group) 0)

/-- `read_ipv6_addr`. -/
def readIpv6 : Reader (BitVec 128) := fun s =>
  let (head, headIpv4, s) := readGroups 8 true s
  if head.length = 8 then some (ofGroups head, s)
  else if headIpv4 then none
  else
    match s with
    | ':' :: ':' :: s =>
      let (tail, _, s) := readGroups (8 - (head.length + 1)) true s
      some (ofGroups (head ++ List.replicate (8 - head.length - tail.length) 0 ++ tail), s)
    | _ => none

/-- `IpAddr::from_str`. -/
def parse (s : List Char) : Option IpAddr :=
  match readIpv4 s with
  | some (bits, rest) => if rest.isEmpty then some (v4 bits) else none
  | none =>
    match readIpv6 s with
    | some (bits, rest) => if rest.isEmpty then some (v6 bits) else none
    | none => none

/-! ## Writing -/

/-- The unsigned number in some base. -/
def digits (radix n : ℕ) : List Char := Nat.toDigits radix n

def writeV4 (bits : ℕ) : List Char :=
  ['.'].intercalate ([3, 2, 1, 0].map fun i => digits 10 (bits / 2 ^ (8 * i) % 2 ^ 8))

def groupsOf (bits : ℕ) : List ℕ := [7, 6, 5, 4, 3, 2, 1, 0].map fun i => bits / 2 ^ (16 * i) % 2 ^ 16

/-- A run of zero groups. -/
structure Span where
  start : ℕ := 0
  len : ℕ := 0

/-- The first of the longest runs of zero groups: the longest run so far, the current one, and the
number of the next group. -/
def longestZeros (longest current : Span) : ℕ → List ℕ → Span
  | _, [] => longest
  | i, group :: groups =>
    if group = 0 then
      let current : Span := if current.len = 0 then ⟨i, 1⟩ else ⟨current.start, current.len + 1⟩
      longestZeros (if longest.len < current.len then current else longest) current (i + 1) groups
    else longestZeros longest {} (i + 1) groups

def writeGroups (groups : List ℕ) : List Char := [':'].intercalate (groups.map (digits 16))

def writeV6 (bits : ℕ) : List Char :=
  let groups := groupsOf bits
  if bits / 2 ^ 32 = 0xffff then "::ffff:".toList ++ writeV4 (bits % 2 ^ 32)
  else
    let zeros := longestZeros {} {} 0 groups
    if 1 < zeros.len then
      writeGroups (groups.take zeros.start) ++ [':', ':'] ++
        writeGroups (groups.drop (zeros.start + zeros.len))
    else writeGroups groups

/-- `Display`. -/
def display : IpAddr → List Char
  | v4 bits => writeV4 bits.toNat
  | v6 bits => writeV6 bits.toNat

/-- `is_loopback`. -/
def isLoopback : IpAddr → Bool
  | v4 bits => bits.toNat / 2 ^ 24 = 127
  | v6 bits => bits.toNat = 1

end IpAddr

end Taomni
