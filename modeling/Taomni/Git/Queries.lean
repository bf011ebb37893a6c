import Taomni.Common.Utf8
import Taomni.Mail.VCard
import Taomni.Sockscap.AutoProxy

/-!
# Reading the output of git

Reference: `src-tauri/src/git/queries.rs`, `command_output` of `src-tauri/src/git/process.rs` and
`non_empty_string` of `src-tauri/src/git.rs`.

Texts are lists of characters. A slice inside of a character is a panic.
-/

namespace Taomni.Git

open List
open Agent (isWhitespace trim)
open Sockscap (strip textLines)
open Mail (trimStartMatches)

abbrev Text := List Char

/-! ## Text -/

/-- `split_once` at a word. -/
def splitOnce (word : Text) : Text → Option (Text × Text)
  | [] => if word.isEmpty then some ([], []) else none
  | c :: text =>
    if word.isPrefixOf (c :: text) then some ([], (c :: text).drop word.length)
    else (splitOnce word text).map fun (a, b) => (c :: a, b)

/-- `trim_end_matches`. -/
def trimEndMatches (word text : Text) : Text := (trimStartMatches word.reverse text.reverse).reverse

/-- `str::replace` of the two letters `a` and `b` by one. -/
@[grind =] def replacePair (a b by' : Char) : Text → Text
  | [] => []
  | [c] => [c]
  | c :: d :: text =>
    if c = a ∧ d = b then by' :: replacePair a b by' text else c :: replacePair a b by' (d :: text)

def nonEmptyString (value : Text) : Option Text :=
  let trimmed := trim value
  if trimmed.isEmpty then none else some trimmed

/-- `command_output` of a command that succeeds. -/
def commandOutput (stdout : Text) : Text := stdout.rdropWhile isWhitespace

/-! ## Status -/

inductive ChangeStatus where
  | conflicted | untracked | renamed | deleted | added | modified | copied
deriving DecidableEq

structure GitChange where
  path : Text
  oldPath : Option Text
  status : ChangeStatus
  staged : Bool
  unstaged : Bool
  conflict : Bool
deriving DecidableEq

def unquotePath (value : Text) : Text :=
  let trimmed := trim value
  if 2 ≤ byteLength trimmed ∧ trimmed.head? = some '"' ∧ trimmed.getLast? = some '"' then
    replacePair '\\' '\\' '\\' (replacePair '\\' '"' '"' (trimmed.drop 1).dropLast)
  else trimmed

def isConflict (x y : Char) : Bool :=
  [('U', 'U'), ('A', 'A'), ('D', 'D'), ('A', 'U'), ('U', 'A'), ('D', 'U'), ('U', 'D')].contains (x, y)

def changeStatus (x y : Char) : ChangeStatus :=
  if isConflict x y then .conflicted
  else if x = '?' ∧ y = '?' then .untracked
  else if x = 'R' ∨ y = 'R' then .renamed
  else if x = 'D' ∨ y = 'D' then .deleted
  else if x = 'A' ∨ y = 'A' then .added
  else .modified

def arrow : Text := [' ', '-', '>', ' ']

/-- The old path and the path. -/
def splitRename (rest : Text) : Option Text × Text :=
  match splitOnce arrow rest with
  | some (old, new) => (some (unquotePath old), unquotePath new)
  | none => (none, unquotePath rest)

/-- A line of at least four bytes. -/
def parseChange (line : Text) : Option GitChange :=
  (cutAt 3 line).map fun (_, rest) =>
    let x := line.head?.getD ' '
    let y := (line.drop 1).head?.getD ' '
    let (oldPath, path) := splitRename (trim rest)
    { path
      oldPath
      status := changeStatus x y
      staged := x ≠ ' ' && x ≠ '?'
      unstaged := y ≠ ' ' || x = '?'
      conflict := isConflict x y }

structure Status where
  currentBranch : Option Text
  detached : Bool
  changes : List GitChange

/-- The line of the branch. -/
def Status.header (s : Status) (rest : Text) : Status :=
  if "HEAD ".toList <+: rest ∨ "HEAD(".toList <+: rest then { s with detached := true }
  else
    let branchSource := (strip "No commits yet on ".toList rest).getD rest
    let branch := ((splitOnce "...".toList branchSource).map Prod.fst).getD branchSource
    { s with currentBranch := nonEmptyString (trim (trimEndMatches "[gone]".toList (trim branch))) }

/-- One line of the loop of `parse_status`. -/
def Status.line (s : Status) (line : Text) : Option Status :=
  match strip ['#', '#', ' '] line with
  | some rest => some (s.header rest)
  | none =>
    if byteLength line < 4 then some s
    else (parseChange line).map fun change => { s with changes := s.changes ++ [change] }

def parseStatus (output : Text) : Option Status :=
  (textLines output).foldlM Status.line ⟨none, false, []⟩

/-! ## Name status -/

def nameStatus (c0 : Char) : ChangeStatus :=
  if c0 = 'A' then .added
  else if c0 = 'D' then .deleted
  else if c0 = 'R' then .renamed
  else if c0 = 'C' then .copied
  else .modified

/-- The paths in the fields after the code. -/
def namePaths (c0 : Char) (fields : List Text) : Option Text × Text :=
  if c0 = 'R' ∨ c0 = 'C' then
    let old := fields.head?.map unquotePath
    (old, (((fields.drop 1).head?.map unquotePath).or old).getD [])
  else (none, (fields.head?.map unquotePath).getD [])

def parseNameLine (line : Text) : GitChange :=
  let parts := line.splitOn '\t'
  let code := parts.head?.getD []
  let c0 := code.head?.getD ' '
  let (oldPath, path) := namePaths c0 (parts.drop 1)
  { path, oldPath, status := nameStatus c0, staged := false, unstaged := false, conflict := false }

def parseNameStatus (output : Text) : List GitChange :=
  ((textLines output).filter fun line => !(trim line).isEmpty).map parseNameLine

/-!
# Paths as git writes them

A name with special characters or characters beyond ASCII is written as a C string literal, and the short
status puts a name with spaces between quotes as well. `unquotePath` takes back the quotes and the escapes
of quotes and backslashes, so it reads a name exactly when it needs no other escape.

Reference: `src-tauri/src/git/queries.rs`.
-/

/-! ## Writing a name -/

/-- Printable ASCII. -/
def plain (c : Char) : Bool := 0x20 ≤ c.toNat && c.toNat < 0x7F

def letterEscape (c : Char) : Option Char :=
  match c.toNat with
  | 7 => some 'a'
  | 8 => some 'b'
  | 9 => some 't'
  | 10 => some 'n'
  | 11 => some 'v'
  | 12 => some 'f'
  | 13 => some 'r'
  | _ => none

def octalEscape (b : UInt8) : Text :=
  ['\\', Nat.digitChar (b.toNat / 64), Nat.digitChar (b.toNat / 8 % 8), Nat.digitChar (b.toNat % 8)]

def quoteChar (c : Char) : Text :=
  if c = '"' ∨ c = '\\' then ['\\', c]
  else if plain c then [c]
  else
    match letterEscape c with
    | some letter => ['\\', letter]
    | none => (String.utf8EncodeChar c).flatMap octalEscape

def needsQuotes (c : Char) : Bool := c = '"' || c = '\\' || !plain c

def quoted (name : Text) : Text := '"' :: (name.flatMap quoteChar ++ ['"'])

/-- A name in a diff. -/
def quoteCStyle (name : Text) : Text := if name.any needsQuotes then quoted name else name

/-- A name in the short status. -/
def quotePath (name : Text) : Text :=
  if name.any needsQuotes || name.contains ' ' then quoted name else name

/-! ## The characters of an escape -/

/-- A character of an escape after its backslash. -/
def isEscapeLetter (c : Char) : Bool := plain c && c != ' ' && c != '"'

theorem isEscapeLetter_digitChar {n : ℕ} (h : n < 8) : isEscapeLetter (Nat.digitChar n) = true := by
  have htoNat := Nat.toNat_digitChar_of_lt_ten (show n < 10 by omega)
  have hne {c : Char} (hc : c.toNat < 48) : Nat.digitChar n ≠ c := fun heq => by
    rw [← heq, htoNat] at hc
    omega
  have hspace : Nat.digitChar n ≠ ' ' := hne (by decide)
  have hquote : Nat.digitChar n ≠ '"' := hne (by decide)
  unfold isEscapeLetter plain
  rw [htoNat, bne_iff_ne.mpr hspace, bne_iff_ne.mpr hquote, Bool.and_true, Bool.and_true,
    Bool.and_eq_true, decide_eq_true_eq, decide_eq_true_eq]
  omega

variable {c : Char}

theorem isEscapeLetter_of_letterEscape {letter : Char} (h : letterEscape c = some letter) :
    isEscapeLetter letter = true := by
  unfold letterEscape at h
  split at h
  case h_8 => cases h
  all_goals
    obtain rfl := Option.some.inj h
    decide

theorem mem_octalEscape {b : UInt8} (h : c ∈ octalEscape b) : c = '\\' ∨ isEscapeLetter c = true := by
  have hlt : b.toNat < 256 := b.toNat_lt
  unfold octalEscape at h
  rw [mem_cons, mem_cons, mem_cons, mem_singleton] at h
  rcases h with h | h | h | h
  · exact .inl h
  all_goals
    rw [h]
    exact .inr (isEscapeLetter_digitChar (by omega))

/-- A character stands for itself, or its escape starts with a backslash. -/
theorem quoteChar_cases (c : Char) : quoteChar c = [c] ∧ plain c = true ∧ c ≠ '"' ∧ c ≠ '\\' ∨
      ∃ rest, quoteChar c = '\\' :: rest ∧ ((c = '"' ∨ c = '\\') ∧ rest = [c] ∨
          plain c = false ∧ ∀ d ∈ rest, d = '\\' ∨ isEscapeLetter d = true) := by
  unfold quoteChar
  split
  · rename_i h
    exact .inr ⟨[c], rfl, .inl ⟨h, rfl⟩⟩
  · rename_i h
    split
    · rename_i hplain
      exact .inl ⟨rfl, hplain, not_or.mp h⟩
    · rename_i hplain
      rw [Bool.not_eq_true] at hplain
      split
      · rename_i letter hletter
        refine .inr ⟨[letter], rfl, .inr ⟨hplain, fun d hd => ?_⟩⟩
        rw [mem_singleton.mp hd]
        exact .inr (isEscapeLetter_of_letterEscape hletter)
      · obtain ⟨b, bytes, hbytes⟩ :=
          exists_cons_of_ne_nil (String.utf8EncodeChar_ne_nil (c := c))
        rw [hbytes, flatMap_cons]
        refine .inr ⟨_, rfl, .inr ⟨hplain, fun d hd => ?_⟩⟩
        rcases mem_append.mp hd with hd | hd
        · exact mem_octalEscape (mem_cons_of_mem _ hd)
        · obtain ⟨b', -, hd⟩ := mem_flatMap.mp hd
          exact mem_octalEscape hd

theorem plain_of_mem_quoteChar {d : Char} (h : d ∈ quoteChar c) : plain d = true := by
  have hletter (h : d = '\\' ∨ isEscapeLetter d = true) : plain d = true := by
    rcases h with rfl | h
    · decide
    · unfold isEscapeLetter at h
      rw [Bool.and_eq_true, Bool.and_eq_true] at h
      exact h.1.1
  rcases quoteChar_cases c with ⟨heq, hplain, -⟩ | ⟨rest, heq, ⟨hc, rfl⟩ | ⟨-, hrest⟩⟩
  · rw [heq, mem_singleton] at h
    rw [h]
    exact hplain
  · rw [heq, mem_cons, mem_singleton] at h
    rcases h with rfl | rfl
    · decide
    · rcases hc with rfl | rfl <;> decide
  · rw [heq, mem_cons] at h
    exact hletter (h.imp_right (hrest d)|>.elim .inl id)

/-- Only a space is written with a space. -/
theorem eq_of_space_mem_quoteChar (h : ' ' ∈ quoteChar c) : c = ' ' := by
  rcases quoteChar_cases c with ⟨heq, -⟩ | ⟨rest, heq, ⟨hc, rfl⟩ | ⟨-, hrest⟩⟩
  · rw [heq, mem_singleton] at h
    exact h.symm
  · rw [heq, mem_cons, mem_singleton] at h
    exact (h.resolve_left (by decide)).symm
  · rw [heq, mem_cons] at h
    exact absurd (hrest ' ' (h.resolve_left (by decide))) (by decide)

/-! ## Reading a name -/

theorem replacePair_cons {a b by' : Char} {text : Text} (h : c ≠ a ∨ text.head? ≠ some b) :
    replacePair a b by' (c :: text) = c :: replacePair a b by' text := by
  cases text with
  | nil => rfl
  | cons d text =>
    rw [replacePair, if_neg]
    rintro ⟨rfl, rfl⟩
    exact h.elim (fun h => h rfl) fun h => h rfl

theorem replacePair_pair (a b by' : Char) (text : Text) :
    replacePair a b by' (a :: b :: text) = by' :: replacePair a b by' text := by
  rw [replacePair, if_pos ⟨rfl, rfl⟩]

theorem mem_replacePair {a b by' : Char} (hby : by' = b) {text : Text}
    (h : c ∈ replacePair a b by' text) : c ∈ text := by
  induction text using replacePair.induct a b with
  | case1 => exact h
  | case2 d => exact h
  | case3 d e text hpair ih =>
    rw [replacePair, if_pos hpair, mem_cons] at h
    rcases h with rfl | h
    · rw [hby, hpair.2]
      exact mem_cons_of_mem _ mem_cons_self
    · exact mem_cons_of_mem _ (mem_cons_of_mem _ (ih h))
  | case4 d e text hne ih =>
    rw [replacePair, if_neg hne, mem_cons] at h
    exact mem_cons.mpr (h.imp_right ih)

/-- Backslashes are still doubled once the quotes have been taken back. -/
def halfQuoted (c : Char) : Text := if c = '\\' then ['\\', '\\'] else [c]

variable {name : Text}

theorem replacePair_quotes (h : ∀ c ∈ name, plain c = true) :
    replacePair '\\' '"' '"' (name.flatMap quoteChar) = name.flatMap halfQuoted := by
  induction name with
  | nil => rfl
  | cons c name ih =>
    obtain ⟨hc, hname⟩ := forall_mem_cons.mp h
    have hhead : (name.flatMap quoteChar).head? ≠ some '"' := by
      cases name with
      | nil => exact fun h => Option.some_ne_none _ h.symm
      | cons d name =>
        rw [flatMap_cons]
        rcases quoteChar_cases d with ⟨heq, -, hquote, -⟩ | ⟨rest, heq, -⟩
        · rw [heq]
          exact fun h => hquote (Option.some.inj h)
        · rw [heq]
          exact fun h => absurd (Option.some.inj h) (by decide)
    rw [flatMap_cons, flatMap_cons, ← ih hname]
    rcases quoteChar_cases c with ⟨heq, -, -, hne⟩ | ⟨rest, heq, ⟨rfl | rfl, rfl⟩ | ⟨hnot, -⟩⟩
    · rw [heq]
      unfold halfQuoted
      rw [if_neg hne, singleton_append, singleton_append, replacePair_cons (.inl hne)]
    · rw [heq]
      exact replacePair_pair _ _ _ _
    · rw [heq]
      have hbackslash : ('\\' :: name.flatMap quoteChar).head? ≠ some '"' :=
        fun h => absurd (Option.some.inj h) (by decide)
      show replacePair _ _ _ ('\\' :: '\\' :: name.flatMap quoteChar) = '\\' :: '\\' :: _
      rw [replacePair_cons (.inr hbackslash), replacePair_cons (.inr hhead)]
      rfl
    · rw [hc] at hnot
      cases hnot

theorem replacePair_backslashes (name : Text) :
    replacePair '\\' '\\' '\\' (name.flatMap halfQuoted) = name := by
  induction name with
  | nil => rfl
  | cons c name ih =>
    rw [flatMap_cons]
    unfold halfQuoted
    by_cases hc : c = '\\'
    · rw [if_pos hc, hc]
      show replacePair _ _ _ ('\\' :: '\\' :: name.flatMap halfQuoted) = _
      rw [replacePair_pair, ih]
    · rw [if_neg hc, singleton_append, replacePair_cons (.inl hc)]
      exact congrArg _ ih

theorem mem_trim {s : Text} (h : c ∈ trim s) : c ∈ s :=
  (dropWhile_sublist _).subset ((List.rdropWhile_prefix _ _).subset h)

theorem mem_unquotePath {s : Text} (h : c ∈ unquotePath s) : c ∈ s := by
  unfold unquotePath at h
  dsimp only at h
  split at h
  · exact mem_trim (mem_of_mem_drop (dropLast_subset _
      (mem_replacePair rfl (mem_replacePair rfl h))))
  · exact mem_trim h

theorem trim_quoted (name : Text) : trim (quoted name) = quoted name := by
  refine Agent.trim_eq_self (fun c hc => ?_) fun c hc => ?_
  · obtain rfl : '"' = c := Option.some.inj hc
    decide
  · rw [quoted, ← cons_append, getLast?_concat] at hc
    obtain rfl : '"' = c := Option.some.inj hc
    decide

theorem unquotePath_quoted (h : ∀ c ∈ name, plain c = true) : unquotePath (quoted name) = name := by
  have hlength : 2 ≤ byteLength (quoted name) := by
    refine le_trans ?_ (length_le_byteLength _)
    show 2 ≤ (name.flatMap quoteChar ++ ['"']).length + 1
    rw [length_append, length_singleton]
    omega
  have hlast : (quoted name).getLast? = some '"' := by
    show ('"' :: (name.flatMap quoteChar ++ ['"'])).getLast? = _
    rw [← cons_append, getLast?_concat]
  have hinner : ((quoted name).drop 1).dropLast = name.flatMap quoteChar := dropLast_concat
  unfold unquotePath
  rw [trim_quoted, if_pos ⟨hlength, rfl, hlast⟩, hinner, replacePair_quotes h,
    replacePair_backslashes]

/-- A name that needs no quotes is trimmed. -/
theorem unquotePath_of_not_needsQuotes (h : ∀ c ∈ name, needsQuotes c = false) :
    unquotePath name = trim name := by
  unfold unquotePath
  dsimp only
  rw [if_neg]
  rintro ⟨-, hhead, -⟩
  exact absurd (h _ (mem_trim (mem_of_mem_head? hhead))) (by decide)

theorem plain_of_mem_quoted (h : c ∈ quoted name) : plain c = true := by
  unfold quoted at h
  rw [mem_cons, mem_append, mem_singleton] at h
  rcases h with rfl | h | rfl
  · decide
  · obtain ⟨d, -, hd⟩ := mem_flatMap.mp h
    exact plain_of_mem_quoteChar hd
  · decide

theorem unquotePath_quoted_iff : unquotePath (quoted name) = name ↔ ∀ c ∈ name, plain c = true := by
  refine ⟨fun h c hc => ?_, unquotePath_quoted⟩
  rw [← h] at hc
  exact plain_of_mem_quoted (mem_unquotePath hc)

theorem plain_of_not_needsQuotes (h : needsQuotes c = false) : plain c = true := by
  unfold needsQuotes at h
  rw [Bool.or_eq_false_iff, Bool.not_eq_false'] at h
  exact h.2

theorem eq_space_of_plain (h : plain c = true) (hspace : isWhitespace c = true) : c = ' ' := by
  unfold plain at h
  unfold isWhitespace at hspace
  rw [Bool.and_eq_true, decide_eq_true_eq, decide_eq_true_eq] at h
  simp only [Bool.or_eq_true, Bool.and_eq_true, decide_eq_true_eq, beq_iff_eq] at hspace
  have htoNat : c.toNat = ' '.toNat := by
    show c.toNat = 32
    omega
  exact Char.toNat_inj.mp htoNat

/-- A name in the short status. -/
theorem unquotePath_quotePath_iff :
    unquotePath (quotePath name) = name ↔ ∀ c ∈ name, plain c = true := by
  unfold quotePath
  split
  · exact unquotePath_quoted_iff
  · rename_i hnone
    rw [Bool.or_eq_true, not_or, any_eq_true, contains_iff_mem] at hnone
    have hneeds (c : Char) (hc : c ∈ name) : needsQuotes c = false :=
      Bool.eq_false_iff.mpr fun h => hnone.1 ⟨c, hc, h⟩
    have hplain (c : Char) (hc : c ∈ name) : plain c = true :=
      plain_of_not_needsQuotes (hneeds c hc)
    refine iff_of_true ?_ hplain
    rw [unquotePath_of_not_needsQuotes hneeds]
    refine Agent.trim_of_forall fun c hc => Bool.eq_false_iff.mpr fun h => hnone.2 ?_
    rw [← eq_space_of_plain (hplain c hc) h]
    exact hc

/-- A name in a diff: outside of quotes it loses the spaces at its ends. -/
def Readable (name : Text) : Prop :=
  (∀ c ∈ name, plain c = true) ∧ (name.any needsQuotes = true ∨ trim name = name)

theorem unquotePath_quoteCStyle_iff : unquotePath (quoteCStyle name) = name ↔ Readable name := by
  unfold quoteCStyle Readable
  split
  · rename_i hneeds
    rw [unquotePath_quoted_iff, and_iff_left (.inl hneeds)]
  · rename_i hnone
    have hneeds (c : Char) (hc : c ∈ name) : needsQuotes c = false :=
      Bool.eq_false_iff.mpr fun h => hnone (any_eq_true.mpr ⟨c, hc, h⟩)
    rw [unquotePath_of_not_needsQuotes hneeds,
      and_iff_right fun c hc => plain_of_not_needsQuotes (hneeds c hc), or_iff_right hnone]

end Taomni.Git
