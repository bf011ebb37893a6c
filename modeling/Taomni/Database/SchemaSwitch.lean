import Taomni.Agent.CommandLine
import Taomni.Common.Utf8
import Taomni.Database.GridChanges

/-!
# Statements that switch the default schema

Reference: `src-tauri/src/database/sql/statements.rs`.

An index is a count of bytes. A slice with `[..]` panics at an offset that is no boundary of a character,
and a function that can panic has no value then; `get` returns nothing.
-/

namespace Taomni.Database

open List
open Agent (isWhitespace trim)
open Option (bind_some map_eq_some_iff map_some)

/-- The tables of the characters, which are fixed for ASCII. -/
structure CharTables where
  isAlphabetic : Char → Bool
  toUppercase : Char → Text
  ascii : ∀ c : Char, c.toNat < 128 → isAlphabetic c = c.isAlpha ∧ toUppercase c = [c.toUpper]

/-- The tables of ASCII alone. -/
def CharTables.onlyAscii : CharTables := ⟨Char.isAlpha, fun c => [c.toUpper], fun _ _ => ⟨rfl, rfl⟩⟩

/-! ## Slices -/

/-- `str::find`. -/
def find (word : Text) : Text → Option ℕ
  | [] => if word.isEmpty then some 0 else none
  | c :: text =>
    if word.isPrefixOf (c :: text) then some 0 else (find word text).map (c.utf8Size + ·)

/-- `text[offset..]`. -/
def sliceFrom (offset : ℕ) (text : Text) : Option Text := (cutAt offset text).map Prod.snd

/-- `text[start..stop]`. -/
def slice (start stop : ℕ) (text : Text) : Option Text :=
  if start ≤ stop then (cutAt stop text).bind fun cut => sliceFrom start cut.1 else none

def trimStart (text : Text) : Text := text.dropWhile isWhitespace

def toAsciiUppercase (text : Text) : Text := text.map Char.toUpper

/-! ## The head of a statement -/

/-- What ends the comment that a text starts with, and the text after its marker. -/
def openComment (rest : Text) : Option (Text × Text) :=
  match rest with
  | '-' :: '-' :: after => some (['\n'], after)
  | '#' :: after => some (['\n'], after)
  | '/' :: '*' :: after => some (['*', '/'], after)
  | _ => none

def afterComment (terminator after : Text) : Option Text :=
  match find terminator after with
  | some index => (sliceFrom (index + terminator.length) after).map trimStart
  | none => some []

theorem length_openComment {rest terminator after : Text} (h : openComment rest = some (terminator, after)) :
    after.length < rest.length := by
  unfold openComment at h
  split at h
  · cases h
    exact Nat.lt_add_of_pos_right Nat.two_pos
  · cases h
    exact Nat.lt_succ_self _
  · cases h
    exact Nat.lt_add_of_pos_right Nat.two_pos
  · cases h

theorem length_sliceFrom_le {offset : ℕ} {text rest : Text} (h : sliceFrom offset text = some rest) :
    rest.length ≤ text.length := by
  obtain ⟨⟨front, back⟩, hcut, rfl⟩ := map_eq_some_iff.mp h
  rw [(cutAt_eq_some hcut).1, length_append]
  exact Nat.le_add_left _ _

theorem length_afterComment_le {terminator after rest : Text} (h : afterComment terminator after = some rest) :
    rest.length ≤ after.length := by
  unfold afterComment at h
  split at h
  · obtain ⟨rest, hslice, rfl⟩ := map_eq_some_iff.mp h
    exact (dropWhile_suffix _).length_le.trans (length_sliceFrom_le hslice)
  · cases h
    exact Nat.zero_le _

/-- The loop of `executable_sql_head`. -/
def skipComments (rest : Text) : Option Text :=
  match _ : openComment rest with
  | some (terminator, after) =>
    match _ : afterComment terminator after with
    | some rest' => skipComments rest'
    | none => none
  | none => some rest
termination_by rest.length
decreasing_by exact (length_afterComment_le ‹_›).trans_lt (length_openComment ‹_›)

def executableSqlHead (sql : Text) : Option Text := skipComments (trimStart sql)

section

variable (tables : CharTables)

/-- The keyword of a head. -/
def keywordOf (head : Text) : Text := (head.takeWhile tables.isAlphabetic).flatMap tables.toUppercase

def sqlHeadKeyword (sql : Text) : Option Text := (executableSqlHead sql).map (keywordOf tables)

end

/-! ## The target of a switch -/

/-- The first word, or the whole text if there is none. -/
def firstWord (text : Text) : Text :=
  let word := (trimStart text).takeWhile fun c => !isWhitespace c
  if word.isEmpty then text else word

/-- The part after the last period. -/
def lastComponent (text : Text) : Text := text.rtakeWhile (· != '.')

/-- The part before the first comma. -/
def firstEntry (text : Text) : Text := text.takeWhile (· != ',')

def useTarget (keyword head : Text) : Option Text :=
  (sliceFrom (byteLength keyword) head).map fun rest => lastComponent (firstWord (trim rest))

def setTarget (keyword head : Text) : Option Text :=
  (sliceFrom (byteLength keyword) head).bind fun rest =>
    let rest := trim rest
    if "SEARCH_PATH".toList.isPrefixOf (toAsciiUppercase rest) then
      (sliceFrom (byteLength "search_path".toList) rest).map fun after =>
        let after := trimStart after
        let after :=
          if "TO".toList.isPrefixOf (toAsciiUppercase after) then trimStart ((sliceFrom 2 after).getD [])
          else if after.head? = some '=' then trimStart ((sliceFrom 1 after).getD [])
          else after
        trim (firstEntry after)
    else none

def alterTarget (head : Text) : Option Text :=
  (find "CURRENT_SCHEMA".toList (toAsciiUppercase head)).bind fun index =>
    (sliceFrom (index + byteLength "CURRENT_SCHEMA".toList) head).map fun after =>
      let after := trimStart after
      let after := if after.head? = some '=' then trim (after.drop 1) else after
      firstWord after

/-- The text that names the schema. -/
def switchTarget (keyword head : Text) : Option Text :=
  if keyword = "USE".toList then useTarget keyword head
  else if keyword = "SET".toList then setTarget keyword head
  else if keyword = "ALTER".toList then alterTarget head
  else none

/-! ## Quotes -/

def quotePairs : List (Char × Char) := [('`', '`'), ('"', '"'), ('[', ']'), ('\'', '\'')]

/-- The letters of which two become one. -/
def doubledQuotes : List Char := ['`', '"', ']', '\'']

/-- Both quotes of a pair stand at the ends. -/
def isQuoted (text : Text) : Bool :=
  quotePairs.any fun pair => text.head? == some pair.1 && text.getLast? == some pair.2

def identText (raw : Text) : Text := trim ((trim raw).rdropWhile (· == ';'))

def undoubleQuotes (inner : Text) : Text := doubledQuotes.foldl (fun text q => undoubled q text) inner

/-- `None` if the name is empty. -/
def nonEmpty (text : Text) : Option Text := if text.isEmpty then none else some text

def unquoteSqlIdent (raw : Text) : Option (Option Text) :=
  let trimmed := identText raw
  if trimmed.isEmpty then some none
  else if isQuoted trimmed then
    (slice 1 (byteLength trimmed - 1) trimmed).map fun inner => nonEmpty (trim (undoubleQuotes inner))
  else some (nonEmpty (trim trimmed))

/-- What a head names, if it switches the schema. -/
def schemaSwitchOf (tables : CharTables) (head : Text) : Option (Option Text) :=
  match switchTarget (keywordOf tables head) head with
  | some target => unquoteSqlIdent target
  | none => some none

def parseDefaultSchemaSwitch (tables : CharTables) (sql : Text) : Option (Option Text) :=
  (executableSqlHead sql).bind (schemaSwitchOf tables)

/-!
# When a switch of the default schema is read

Reference: `src-tauri/src/database/sql/statements.rs`.

The slices behind a comment are at boundaries, so only the slice between the quotes can fail: a lone quote
is both quotes of its pair. What a `USE` statement names comes back if no rule but the one of its own
quotes touches it.
-/

open Agent (isWhitespace trim eq_trim trim_eq_self trim_of_forall trim_append)

/-! ## Slices -/

theorem sliceFrom_append (front rest : Text) : sliceFrom (byteLength front) (front ++ rest) = some rest := by
  rw [sliceFrom, cutAt_append, map_some]

theorem find_eq_some {word text : Text} {index : ℕ} (h : find word text = some index) :
    ∃ front rest, text = front ++ (word ++ rest) ∧ byteLength front = index := by
  induction text generalizing index with
  | nil =>
    rw [find] at h
    split at h
    · next hempty =>
      cases h
      exact ⟨[], [], by rw [List.isEmpty_iff.mp hempty]; rfl, rfl⟩
    · cases h
  | cons c text ih =>
    rw [find] at h
    split at h
    · next hprefix =>
      cases h
      obtain ⟨rest, hrest⟩ := isPrefixOf_iff_prefix.mp hprefix
      exact ⟨[], rest, hrest.symm, rfl⟩
    · obtain ⟨i, hi, rfl⟩ := map_eq_some_iff.mp h
      obtain ⟨front, rest, rfl, rfl⟩ := ih hi
      exact ⟨c :: front, rest, rfl, rfl⟩

variable {c : Char}

theorem byteLength_singleton (h : c.toNat < 128) : byteLength [c] = 1 := by
  rw [byteLength, utf8Size_eq_one h, byteLength]

/-- What is between the first and the last letter of a text, if these are ASCII. -/
theorem slice_between {opening closing : Char} (hopening : opening.toNat < 128)
    (hclosing : closing.toNat < 128) (inner : Text) :
    slice 1 (byteLength (opening :: (inner ++ [closing])) - 1) (opening :: (inner ++ [closing]))
      = some inner := by
  have hfront : byteLength (opening :: inner) = 1 + byteLength inner := by
    rw [byteLength, utf8Size_eq_one hopening]
  have hlength : byteLength (opening :: (inner ++ [closing])) - 1 = byteLength (opening :: inner) := by
    rw [← cons_append, byteLength_append, byteLength_singleton hclosing, Nat.add_sub_cancel]
  rw [slice, hlength, if_pos (by omega), ← cons_append, cutAt_append, bind_some]
  have hslice := sliceFrom_append [opening] inner
  rwa [byteLength_singleton hopening] at hslice

/-! ## Comments -/

/-- A comment is skipped at a boundary. -/
theorem exists_afterComment {rest terminator after : Text}
    (h : openComment rest = some (terminator, after)) : ∃ rest', afterComment terminator after = some rest' := by
  have hascii : ∀ c ∈ terminator, c.toNat < 128 := by
    unfold openComment at h
    split at h
    · cases h
      exact forall_mem_singleton.mpr (by decide)
    · cases h
      exact forall_mem_singleton.mpr (by decide)
    · cases h
      exact forall_mem_cons.mpr ⟨by decide, forall_mem_singleton.mpr (by decide)⟩
    · cases h
  unfold afterComment
  cases hfind : find terminator after with
  | none => exact ⟨[], rfl⟩
  | some index =>
    obtain ⟨front, back, rfl, rfl⟩ := find_eq_some hfind
    have hslice := sliceFrom_append (front ++ terminator) back
    rw [byteLength_append, byteLength_of_ascii hascii, append_assoc] at hslice
    exact ⟨trimStart back, by dsimp only; rw [hslice, map_some]⟩

theorem exists_skipComments (rest : Text) : ∃ head, skipComments rest = some head := by
  fun_induction skipComments rest with
  | case1 rest terminator after hopen rest' hafter ih => exact ih
  | case2 rest terminator after hopen hafter =>
    obtain ⟨rest', hrest⟩ := exists_afterComment hopen
    rw [hrest] at hafter
    cases hafter
  | case3 rest hopen => exact ⟨rest, rfl⟩

theorem exists_executableSqlHead (sql : Text) : ∃ head, executableSqlHead sql = some head :=
  exists_skipComments (trimStart sql)

theorem skipComments_eq_self {rest : Text} (h : openComment rest = none) : skipComments rest = some rest := by
  rw [skipComments]
  split
  · next hopen => rw [h] at hopen; cases hopen
  · rfl

/-! ## Quotes -/

/-- A quote that is the opening and the closing one. -/
def loneQuotes : List Text := [['`'], ['"'], ['\'']]

theorem ascii_of_mem_quotePairs : ∀ pair ∈ quotePairs, pair.1.toNat < 128 ∧ pair.2.toNat < 128 := by
  decide

theorem isQuoted_singleton (c : Char) : isQuoted [c] = true ↔ [c] ∈ loneQuotes := by
  simp only [isQuoted, quotePairs, loneQuotes, any_cons, any_nil, head?_cons,
    getLast?_singleton, Bool.or_false, Bool.or_eq_true, Bool.and_eq_true, beq_iff_eq,
    Option.some.injEq, mem_cons, List.cons.injEq, and_true, not_mem_nil, or_false, and_self]
  refine ⟨?_, ?_⟩
  · rintro (h | h | ⟨rfl, h⟩ | h)
    · exact .inl h
    · exact .inr (.inl h)
    · exact absurd h (by decide)
    · exact .inr (.inr h)
  · rintro (h | h | h)
    · exact .inl h
    · exact .inr (.inl h)
    · exact .inr (.inr (.inr h))

/-- The name between quotes is sliced unless they are one quote. -/
theorem unquoteSqlIdent_eq_none_iff (raw : Text) : unquoteSqlIdent raw = none ↔ identText raw ∈ loneQuotes := by
  unfold unquoteSqlIdent
  dsimp only
  generalize identText raw = text
  match text with
  | [] => exact ⟨nofun, fun h => absurd h (by decide)⟩
  | [c] =>
    rw [if_neg (by rw [isEmpty_cons]; exact Bool.false_ne_true)]
    rw [← isQuoted_singleton]
    by_cases hquoted : isQuoted [c] = true
    · rw [if_pos hquoted]
      obtain ⟨pair, hpair, hends⟩ := any_eq_true.mp hquoted
      obtain ⟨hhead, -⟩ := Bool.and_eq_true_iff.mp hends
      have hc : c = pair.1 := Option.some.inj (beq_iff_eq.mp hhead)
      rw [byteLength_singleton (hc ▸ (ascii_of_mem_quotePairs pair hpair).1)]
      exact ⟨fun _ => hquoted, fun _ => rfl⟩
    · rw [if_neg hquoted]
      exact ⟨nofun, fun h => absurd h hquoted⟩
  | opening :: d :: rest =>
    have hlone : (opening :: d :: rest : Text) ∉ loneQuotes := by
      intro h
      simp only [loneQuotes, mem_cons, List.cons.injEq, reduceCtorEq, and_false, not_mem_nil,
        or_self] at h
    obtain ⟨inner, closing, heq⟩ : ∃ inner closing, d :: rest = inner ++ [closing] :=
      ⟨_, _, (dropLast_append_getLast (cons_ne_nil d rest)).symm⟩
    rw [if_neg (by rw [isEmpty_cons]; exact Bool.false_ne_true)]
    refine ⟨fun h => ?_, fun h => absurd h hlone⟩
    split at h
    · next hquoted =>
      obtain ⟨pair, hpair, hends⟩ := any_eq_true.mp hquoted
      obtain ⟨hhead, hlast⟩ := Bool.and_eq_true_iff.mp hends
      obtain ⟨hopening, hclosing⟩ := ascii_of_mem_quotePairs pair hpair
      rw [heq] at hlast h
      have hc : opening = pair.1 := Option.some.inj (beq_iff_eq.mp hhead)
      have hd : closing = pair.2 := by
        rw [← cons_append, getLast?_concat] at hlast
        exact Option.some.inj (beq_iff_eq.mp hlast)
      rw [slice_between (hc ▸ hopening) (hd ▸ hclosing)] at h
      cases h
    · cases h

/-! ## The letters of a name -/

theorem mem_of_mem_trim {text : Text} (h : c ∈ trim text) : c ∈ text :=
  (dropWhile_suffix _).subset ((List.rdropWhile_prefix _ _).subset h)

theorem mem_of_mem_identText {raw : Text} (h : c ∈ identText raw) : c ∈ raw :=
  mem_of_mem_trim ((List.rdropWhile_prefix _ _).subset (mem_of_mem_trim h))

theorem mem_of_slice {start stop : ℕ} {text part : Text} (h : slice start stop text = some part)
    (hc : c ∈ part) : c ∈ text := by
  unfold slice at h
  split at h
  · obtain ⟨⟨front, back⟩, hcut, hslice⟩ := Option.bind_eq_some_iff.mp h
    obtain ⟨⟨front', back'⟩, hcut', rfl⟩ := map_eq_some_iff.mp hslice
    obtain ⟨hfront, -⟩ := cutAt_eq_some hcut'
    dsimp only at hfront
    rw [(cutAt_eq_some hcut).1, hfront]
    exact mem_append_left _ (mem_append_right _ hc)
  · cases h

theorem nonEmpty_eq_some_iff {text name : Text} : nonEmpty text = some name ↔ name ≠ [] ∧ text = name := by
  unfold nonEmpty
  split
  · next hempty =>
    rw [List.isEmpty_iff.mp hempty]
    exact ⟨nofun, fun h => absurd h.2.symm h.1⟩
  · next hne =>
    refine ⟨fun h => ?_, fun h => congrArg some h.2⟩
    cases h
    exact ⟨fun h => hne (List.isEmpty_iff.mpr h), rfl⟩

/-- A name is not empty and has no letter of its own. -/
theorem mem_of_unquoteSqlIdent {raw name : Text} (h : unquoteSqlIdent raw = some (some name)) :
    name ≠ [] ∧ ∀ c ∈ name, c ∈ raw := by
  unfold unquoteSqlIdent at h
  dsimp only at h
  split at h
  · cases h
  · split at h
    · obtain ⟨inner, hslice, heq⟩ := map_eq_some_iff.mp h
      obtain ⟨hne, rfl⟩ := nonEmpty_eq_some_iff.mp heq
      refine ⟨hne, fun c hc => mem_of_mem_identText (mem_of_slice hslice ?_)⟩
      exact mem_of_mem_foldl_undoubled (mem_of_mem_trim hc)
    · obtain ⟨hne, rfl⟩ := nonEmpty_eq_some_iff.mp (Option.some.inj h)
      exact ⟨hne, fun c hc => mem_of_mem_identText (mem_of_mem_trim hc)⟩

/-! ## A quoted name -/

inductive IdentQuoting where
  | backticks
  | doubleQuotes
  | brackets
deriving DecidableEq

def IdentQuoting.quotes : IdentQuoting → Char × Char
  | backticks => ('`', '`')
  | doubleQuotes => ('"', '"')
  | brackets => ('[', ']')

/-- A name in quotes, with the closing one doubled. -/
def quoted (quoting : IdentQuoting) (name : Text) : Text :=
  quoting.quotes.1 :: (doubled quoting.quotes.2 name ++ [quoting.quotes.2])

/-- What no rule but the one of its quotes touches. -/
structure PlainName (quoting : IdentQuoting) (name : Text) : Prop where
  nonempty : name ≠ []
  oneWord : ∀ c ∈ name, isWhitespace c = false ∧ c ≠ '.'
  noPairs : ∀ q ∈ doubledQuotes, q ≠ quoting.quotes.2 → ¬[q, q] <:+: name

variable {quoting : IdentQuoting} {name : Text}

theorem IdentQuoting.mem_quotePairs (quoting : IdentQuoting) : quoting.quotes ∈ quotePairs := by
  cases quoting <;> decide

theorem IdentQuoting.mem_doubledQuotes (quoting : IdentQuoting) : quoting.quotes.2 ∈ doubledQuotes := by
  cases quoting <;> decide

theorem IdentQuoting.isWhitespace_quotes (quoting : IdentQuoting) :
    isWhitespace quoting.quotes.1 = false ∧ isWhitespace quoting.quotes.2 = false := by
  cases quoting <;> decide

theorem mem_quoted : c ∈ quoted quoting name →
    c = quoting.quotes.1 ∨ c = quoting.quotes.2 ∨ c ∈ name := by
  intro h
  rcases mem_cons.mp h with rfl | h
  · exact .inl rfl
  · rcases mem_append.mp h with h | h
    · obtain ⟨d, hd, hc⟩ := mem_flatMap.mp h
      split at hc
      · next heq =>
        rcases mem_pair.mp hc with rfl | rfl <;> exact .inr (.inl rfl)
      · rw [mem_singleton.mp hc]
        exact .inr (.inr hd)
    · exact .inr (.inl (mem_singleton.mp h))

theorem trim_quoted (quoting : IdentQuoting) (name : Text) : trim (quoted quoting name) = quoted quoting name := by
  refine trim_eq_self (fun c hc => ?_) (fun c hc => ?_)
  · rw [← Option.some.inj hc]
    exact quoting.isWhitespace_quotes.1
  · rw [quoted, ← cons_append, getLast?_concat] at hc
    rw [← Option.some.inj hc]
    exact quoting.isWhitespace_quotes.2

theorem identText_quoted (quoting : IdentQuoting) (name : Text) :
    identText (quoted quoting name) = quoted quoting name := by
  have hlast : (quoted quoting name).rdropWhile (· == ';') = quoted quoting name := by
    rw [quoted, ← cons_append, rdropWhile_concat_neg]
    cases quoting <;> decide
  rw [identText, trim_quoted, hlast, trim_quoted]

theorem unquoteSqlIdent_quoted (quoting : IdentQuoting) (name : Text) :
    unquoteSqlIdent (quoted quoting name)
      = some (nonEmpty (trim (undoubleQuotes (doubled quoting.quotes.2 name)))) := by
  obtain ⟨hopening, hclosing⟩ := ascii_of_mem_quotePairs _ quoting.mem_quotePairs
  have hquoted : isQuoted (quoted quoting name) = true := by
    refine any_eq_true.mpr ⟨_, quoting.mem_quotePairs, ?_⟩
    rw [quoted, head?_cons, ← cons_append, getLast?_concat, beq_self_eq_true,
      beq_self_eq_true, Bool.and_true]
  unfold unquoteSqlIdent
  dsimp only
  rw [identText_quoted, if_pos hquoted, if_neg (by rw [quoted, isEmpty_cons]; exact Bool.false_ne_true)]
  rw [quoted, slice_between hopening hclosing, map_some]

/-- The name between quotes comes back if it has no pairs of the other quotes. -/
theorem unquoteSqlIdent_quoted_iff (hword : ∀ c ∈ name, isWhitespace c = false) :
    unquoteSqlIdent (quoted quoting name) = some (some name)
      ↔ name ≠ [] ∧ ∀ q ∈ doubledQuotes, q ≠ quoting.quotes.2 → ¬[q, q] <:+: name := by
  have htrim : trim (undoubleQuotes (doubled quoting.quotes.2 name))
      = undoubleQuotes (doubled quoting.quotes.2 name) := by
    refine trim_of_forall fun c hc => ?_
    rcases mem_quoted (mem_cons_of_mem _ (mem_append_left _ (mem_of_mem_foldl_undoubled hc)))
      with rfl | rfl | hc
    · exact quoting.isWhitespace_quotes.1
    · exact quoting.isWhitespace_quotes.2
    · exact hword c hc
  rw [unquoteSqlIdent_quoted, htrim, Option.some_inj, nonEmpty_eq_some_iff, undoubleQuotes,
    foldl_undoubled_doubled_iff (by decide) quoting.mem_doubledQuotes]

/-! ## `USE` -/

/-- The statement that switches to a name. -/
def useStatement (quoting : IdentQuoting) (name : Text) : Text := "USE ".toList ++ quoted quoting name

variable (tables : CharTables)

theorem executableSqlHead_useStatement (quoting : IdentQuoting) (name : Text) :
    executableSqlHead (useStatement quoting name) = some (useStatement quoting name) :=
  skipComments_eq_self rfl

theorem keywordOf_useStatement (quoting : IdentQuoting) (name : Text) :
    keywordOf tables (useStatement quoting name) = "USE".toList := by
  have hletter : ∀ c ∈ "USE".toList, tables.isAlphabetic c = true ∧ tables.toUppercase c = [c] := by
    intro c hc
    have hascii : ("USE".toList.all fun d => decide (d.toNat < 128 ∧ d.isAlpha = true ∧ d.toUpper = d)) = true := by
      decide
    obtain ⟨hsmall, halpha, hupper⟩ := of_decide_eq_true (all_eq_true.mp hascii c hc)
    obtain ⟨hleft, hright⟩ := tables.ascii c hsmall
    exact ⟨hleft.trans halpha, hright.trans (congrArg (fun d => [d]) hupper)⟩
  have hspace : tables.isAlphabetic ' ' = false := (tables.ascii ' ' (by decide)).1
  have hsplit : useStatement quoting name = "USE".toList ++ ' ' :: quoted quoting name := rfl
  rw [keywordOf, hsplit, takeWhile_append_of_pos fun c hc => (hletter c hc).1,
    takeWhile_cons_of_neg (by rw [hspace]; exact Bool.false_ne_true), append_nil,
    flatMap_congr fun c hc => (hletter c hc).2, flatMap_singleton']

theorem useTarget_useStatement (quoting : IdentQuoting) (name : Text) :
    useTarget "USE".toList (useStatement quoting name)
      = some (lastComponent (firstWord (quoted quoting name))) := by
  have hspace : ∀ c ∈ [' '], isWhitespace c = true := forall_mem_singleton.mpr rfl
  have htrim : trim (' ' :: quoted quoting name) = quoted quoting name := by
    have happend := @trim_append [' '] (quoted quoting name) [] hspace nofun
    rw [append_nil, trim_quoted] at happend
    exact happend
  have hslice : sliceFrom (byteLength "USE".toList) (useStatement quoting name)
      = some (' ' :: quoted quoting name) := sliceFrom_append "USE".toList _
  rw [useTarget, hslice, map_some, htrim]

theorem parseDefaultSchemaSwitch_useStatement (quoting : IdentQuoting) (name : Text) :
    parseDefaultSchemaSwitch tables (useStatement quoting name)
      = unquoteSqlIdent (lastComponent (firstWord (quoted quoting name))) := by
  rw [parseDefaultSchemaSwitch, executableSqlHead_useStatement, bind_some, schemaSwitchOf,
    keywordOf_useStatement, switchTarget, if_pos rfl, useTarget_useStatement]

theorem firstWord_quoted (quoting : IdentQuoting) (name : Text) :
    firstWord (quoted quoting name) = (quoted quoting name).takeWhile fun c => !isWhitespace c := by
  have hopening := quoting.isWhitespace_quotes.1
  have hstart : trimStart (quoted quoting name) = quoted quoting name := by
    rw [quoted, trimStart, dropWhile_cons_of_neg (by rw [hopening]; exact Bool.false_ne_true)]
  rw [firstWord, hstart, quoted, takeWhile_cons_of_pos (by rw [hopening]; rfl), isEmpty_cons,
    if_neg Bool.false_ne_true]

/-- The first word of a quoted name, up to its last period. -/
theorem mem_target (h : c ∈ lastComponent (firstWord (quoted quoting name))) :
    isWhitespace c = false ∧ c ≠ '.' := by
  have hperiod : (c != '.') = true := mem_rtakeWhile_imp (p := fun d => d != '.') h
  refine ⟨?_, bne_iff_ne.mp hperiod⟩
  have hword := (rtakeWhile_suffix _ _).subset h
  rw [firstWord_quoted] at hword
  have hletter := mem_takeWhile_imp hword
  exact (Bool.eq_false_or_eq_true _).resolve_left fun h => by rw [h] at hletter; cases hletter

theorem target_of_oneWord (h : ∀ c ∈ name, isWhitespace c = false ∧ c ≠ '.') :
    lastComponent (firstWord (quoted quoting name)) = quoted quoting name := by
  have hquotes : quoting.quotes.1 ≠ '.' ∧ quoting.quotes.2 ≠ '.' := by cases quoting <;> decide
  have hletters : ∀ c ∈ quoted quoting name, isWhitespace c = false ∧ c ≠ '.' := by
    intro c hc
    rcases mem_quoted hc with rfl | rfl | hc
    · exact ⟨quoting.isWhitespace_quotes.1, hquotes.1⟩
    · exact ⟨quoting.isWhitespace_quotes.2, hquotes.2⟩
    · exact h c hc
  rw [firstWord_quoted, List.takeWhile_eq_self_iff.mpr fun c hc => by rw [(hletters c hc).1]; rfl]
  exact List.rtakeWhile_eq_self_iff.mpr fun c hc => bne_iff_ne.mpr (hletters c hc).2

theorem parse_useStatement_iff :
    parseDefaultSchemaSwitch tables (useStatement quoting name) = some (some name) ↔ PlainName quoting name := by
  rw [parseDefaultSchemaSwitch_useStatement]
  refine ⟨fun h => ?_, fun h => ?_⟩
  · obtain ⟨hne, hmem⟩ := mem_of_unquoteSqlIdent h
    have hword : ∀ c ∈ name, isWhitespace c = false ∧ c ≠ '.' := fun c hc => mem_target (hmem c hc)
    rw [target_of_oneWord hword, unquoteSqlIdent_quoted_iff fun c hc => (hword c hc).1] at h
    exact ⟨hne, hword, h.2⟩
  · rw [target_of_oneWord h.oneWord, unquoteSqlIdent_quoted_iff fun c hc => (h.oneWord c hc).1]
    exact ⟨h.nonempty, h.noPairs⟩

/-! ## Every statement -/

/-- The head of a statement names the schema by a quote alone. -/
def LoneQuote (sql : Text) : Prop :=
  ∃ head target, executableSqlHead sql = some head ∧ switchTarget (keywordOf tables head) head = some target ∧
    identText target ∈ loneQuotes

theorem parseDefaultSchemaSwitch_ne_none_iff {sql : Text} :
    parseDefaultSchemaSwitch tables sql ≠ none ↔ ¬LoneQuote tables sql := by
  obtain ⟨head, hhead⟩ := exists_executableSqlHead sql
  refine not_congr ?_
  rw [parseDefaultSchemaSwitch, hhead, bind_some, schemaSwitchOf]
  cases htarget : switchTarget (keywordOf tables head) head with
  | none =>
    refine ⟨nofun, fun ⟨head', target, hhead', htarget', _⟩ => ?_⟩
    rw [hhead] at hhead'
    cases hhead'
    rw [htarget] at htarget'
    cases htarget'
  | some target =>
    rw [unquoteSqlIdent_eq_none_iff]
    refine ⟨fun h => ⟨head, target, hhead, htarget, h⟩, fun ⟨head', target', hhead', htarget', h⟩ => ?_⟩
    rw [hhead] at hhead'
    cases hhead'
    rw [htarget] at htarget'
    cases htarget'
    exact h

/-- A statement is read without a panic unless the schema it names is a lone quote, and a quoted name is
read back if it is one word without periods and without pairs of the other quotes. -/
theorem parseDefaultSchemaSwitch_iff (sql : Text) (quoting : IdentQuoting) (name : Text) :
    (parseDefaultSchemaSwitch tables sql ≠ none ↔ ¬LoneQuote tables sql) ∧
      (parseDefaultSchemaSwitch tables (useStatement quoting name) = some (some name)
        ↔ PlainName quoting name) :=
  ⟨parseDefaultSchemaSwitch_ne_none_iff tables, parse_useStatement_iff tables⟩

/-- `USE` and one backtick, and a name of two words in backticks. -/
theorem parseDefaultSchemaSwitch_wrong : parseDefaultSchemaSwitch .onlyAscii "USE `".toList = none ∧
      parseDefaultSchemaSwitch .onlyAscii (useStatement .backticks "my db".toList)
        = some (some "`my".toList) := by
  refine ⟨?_, ?_⟩
  · have hhead : executableSqlHead "USE `".toList = some "USE `".toList := skipComments_eq_self rfl
    rw [parseDefaultSchemaSwitch, hhead]
    rfl
  · rw [parseDefaultSchemaSwitch_useStatement]
    rfl

end Taomni.Database
