import Taomni.Common.Quoting
import Taomni.Mail.VCard

/-!
# Search criteria for an IMAP server

Reference: `search_terms` and `imap_search_criteria` of `src-tauri/src/mail/search.rs`, and
`quote_imap_string` of `src-tauri/src/mail/sync/imap_protocol.rs`.

The server splits a command into tokens, atoms and quoted strings with one space between them, and takes
search keys from these.
-/

namespace Taomni.Mail

open List
open Agent (isWhitespace trim)

/-! ## The criteria -/

inductive MailSearchField where
  | all
  | subject
  | sender
  | recipients
  | body
deriving DecidableEq

structure MailSearchQuery where
  text : Text
  field : MailSearchField
  unreadOnly : Bool
  flaggedOnly : Bool
  /-- Only messages with this keyword. -/
  keyword : Option Text

/-- The loop of `search_terms`. -/
structure TermSplit where
  terms : List Text
  current : Text
  quoted : Bool

namespace TermSplit

def pushed (s : TermSplit) : List Text :=
  if (trim s.current).isEmpty then s.terms else s.terms ++ [trim s.current]

def step (s : TermSplit) (c : Char) : TermSplit :=
  if c = '"' then
    if s.quoted ∧ ¬(trim s.current).isEmpty then ⟨s.pushed, [], false⟩ else { s with quoted := !s.quoted }
  else if isWhitespace c ∧ ¬s.quoted then ⟨s.pushed, [], s.quoted⟩
  else { s with current := s.current ++ [c] }

end TermSplit

/-- The terms of a text, with "double quoted phrases". -/
def searchTerms (text : Text) : List Text := (text.foldl TermSplit.step ⟨[], [], false⟩).pushed

def quoteImapString (value : Text) : Text :=
  '"' :: ((value.flatMap fun c =>
    (if c = '"' ∨ c = '\\' then ['\\'] else []) ++ if c ≠ '\r' ∧ c ≠ '\n' then [c] else []) ++ ['"'])

def searchKeyName : MailSearchField → Text
  | .all => "TEXT".toList
  | .subject => "SUBJECT".toList
  | .sender => "FROM".toList
  | .recipients => "TO".toList
  | .body => "BODY".toList

/-- The letters that a keyword loses. -/
def keywordAtom (keyword : Text) : Text :=
  keyword.filter fun c => !(c == ' ' || c == '"' || c == '(' || c == ')')

def isAscii (text : Text) : Bool := text.all fun c => c.toNat < 128

/-- The `parts` of the criteria. -/
def searchParts (query : MailSearchQuery) : List Text :=
  let key := searchKeyName query.field
  let parts := (searchTerms query.text).map fun term => key ++ ' ' :: quoteImapString term
  let parts := if query.unreadOnly then parts ++ ["UNSEEN".toList] else parts
  let parts := if query.flaggedOnly then parts ++ ["FLAGGED".toList] else parts
  match query.keyword.filter fun keyword => !keyword.isEmpty with
  | some keyword => parts ++ ["KEYWORD ".toList ++ keywordAtom keyword]
  | none => parts

/-- Whether the criteria are for UTF-8, and the criteria. -/
def imapSearchCriteria (query : MailSearchQuery) : Bool × Text :=
  let parts := searchParts query
  let parts := if parts.isEmpty then ["ALL".toList] else parts
  let utf8 := !isAscii query.text
  let criteria := [' '].intercalate parts
  (utf8, if utf8 then "CHARSET UTF-8 ".toList ++ criteria else criteria)

/-! ## The grammar -/

/-- The characters of an atom: no space, no control character, none that has a meaning of its own. -/
def isAtomChar (c : Char) : Bool :=
  32 < c.toNat && c.toNat < 127 && !"()\x7b%*\"\\]".toList.contains c

/-- The characters of a quoted string, apart from quotes and backslashes. -/
def isQuotedChar (c : Char) : Bool := c != '\x00' && c != '\r' && c != '\n'

inductive ImapToken where
  | atom (letters : Text)
  | quoted (value : Text)
deriving DecidableEq

def readAtom (text : Text) : Option (Text × Text) :=
  if (text.takeWhile isAtomChar).isEmpty then none
  else some (text.takeWhile isAtomChar, text.dropWhile isAtomChar)

/-- What comes after an opening quote, up to the closing one. -/
@[grind =] def readQuotedString : Text → Option (Text × Text)
  | [] => none
  | [c] => if c = '"' then some ([], []) else none
  | c :: d :: rest =>
    if c = '"' then some ([], d :: rest)
    else if c = '\\' then
      if d = '"' ∨ d = '\\' then (readQuotedString rest).map fun r => (d :: r.1, r.2) else none
    else if isQuotedChar c then (readQuotedString (d :: rest)).map fun r => (c :: r.1, r.2)
    else none

@[grind =] def readToken (text : Text) : Option (ImapToken × Text) :=
  match expect ['"'] text with
  | some rest => (readQuotedString rest).map fun r => (.quoted r.1, r.2)
  | none => (readAtom text).map fun r => (.atom r.1, r.2)

def readTokens (text : Text) : Option (List ImapToken) :=
  (readSeparated [' '] readToken text.length text).bind fun (tokens, rest) =>
    if rest.isEmpty then some tokens else none

inductive SearchKey where
  /-- A text is looked for. -/
  | string (name value : Text)
  | unseen
  | flagged
  | keyword (flag : Text)
  | all
deriving DecidableEq

def ImapToken.value : ImapToken → Text
  | atom letters => letters
  | quoted value => value

def stringKeys : List Text :=
  ["TEXT".toList, "SUBJECT".toList, "FROM".toList, "TO".toList, "BODY".toList]

def plainKey (name : Text) : Option SearchKey :=
  if name = "UNSEEN".toList then some .unseen
  else if name = "FLAGGED".toList then some .flagged
  else if name = "ALL".toList then some .all
  else none

/-- The search keys of tokens. All of them have to match. -/
def readKeys : List ImapToken → Option (List SearchKey)
  | [] => some []
  | .quoted _ :: _ => none
  | .atom name :: tokens =>
    if name ∈ stringKeys then
      match tokens with
      | [] => none
      | token :: tokens => (readKeys tokens).map (.string name token.value :: ·)
    else if name = "KEYWORD".toList then
      match tokens with
      | .atom flag :: tokens => (readKeys tokens).map (.keyword flag :: ·)
      | _ => none
    else (plainKey name).bind fun key => (readKeys tokens).map (key :: ·)

/-- The keys of a search program, without its charset. -/
def searchProgram : List ImapToken → Option (List SearchKey)
  | .atom name :: tokens =>
    if name = "CHARSET".toList then
      match tokens with
      | [] => none
      | _ :: tokens => readKeys tokens
    else readKeys (.atom name :: tokens)
  | tokens => readKeys tokens

def readCriteria (criteria : Text) : Option (List SearchKey) := (readTokens criteria).bind searchProgram

/-! ## What a query asks for -/

/-- A term without its line breaks. -/
def withoutBreaks (term : Text) : Text := term.filter fun c => c != '\r' && c != '\n'

/-- One key for each term, the flags, and one keyword at most. -/
def Requests (query : MailSearchQuery) (keys : List SearchKey) : Prop :=
  ∃ tag : List Text, tag.length ≤ 1 ∧
    let wanted := (searchTerms query.text).map (fun term =>
        SearchKey.string (searchKeyName query.field) (withoutBreaks term)) ++
      (if query.unreadOnly then [.unseen] else []) ++ (if query.flaggedOnly then [.flagged] else []) ++
      tag.map .keyword
    keys = if wanted.isEmpty then [.all] else wanted

/-- The criteria are one line, and the server reads in them what the query asks for. -/
structure NotInjected (query : MailSearchQuery) : Prop where
  noCarriage : '\r' ∉ (imapSearchCriteria query).2
  noNewline : '\n' ∉ (imapSearchCriteria query).2
  read : ∃ keys, readCriteria (imapSearchCriteria query).2 = some keys ∧ Requests query keys

/-- The text has no NUL, and the keyword is an atom once it has lost its blanks, quotes and parentheses. -/
structure PlainQuery (query : MailSearchQuery) : Prop where
  noNul : '\x00' ∉ query.text
  atom : ∀ keyword, query.keyword = some keyword → keyword ≠ [] →
    keywordAtom keyword ≠ [] ∧ ∀ c ∈ keywordAtom keyword, isAtomChar c = true

/-!
# How a server reads search criteria

Every term comes through as one quoted string, unless it has a NUL, and the flags are words of their own.
Only the keyword is not quoted: it is the last token, and the server reads it as an atom if it is one.

Reference: `imap_search_criteria` of `src-tauri/src/mail/search.rs`.
-/

/-! ## Tokens -/

/-- A token as the criteria write it: a word, or a term in quotes. -/
inductive CriteriaToken where
  | word (letters : Text)
  | term (raw : Text)

namespace CriteriaToken

def write : CriteriaToken → Text
  | word letters => letters
  | term raw => quoteImapString raw

def value : CriteriaToken → ImapToken
  | word letters => .atom letters
  | term raw => .quoted (withoutBreaks raw)

/-- A token that a server can read. -/
def Legible : CriteriaToken → Prop
  | word letters => letters ≠ [] ∧ ∀ c ∈ letters, isAtomChar c = true
  | term raw => '\x00' ∉ raw

end CriteriaToken

/-- No letter of an atom is next. -/
def EndsAtom (rest : Text) : Prop := ∀ c, rest.head? = some c → isAtomChar c = false

theorem endsAtom_space (rest : Text) : EndsAtom ([' '] ++ rest) := by
  intro c hc
  cases hc
  rfl

theorem readAtom_append {letters rest : Text} (hne : letters ≠ []) (h : ∀ c ∈ letters, isAtomChar c = true)
    (hrest : EndsAtom rest) : readAtom (letters ++ rest) = some (letters, rest) := by
  have hstop : rest.takeWhile isAtomChar = [] ∧ rest.dropWhile isAtomChar = rest := by
    cases rest with
    | nil => exact ⟨rfl, rfl⟩
    | cons c rest =>
      have hc : ¬isAtomChar c = true := by
        rw [hrest c rfl]
        exact Bool.false_ne_true
      exact ⟨takeWhile_cons_of_neg hc, dropWhile_cons_of_neg hc⟩
  rw [readAtom, takeWhile_append_of_pos h, dropWhile_append_of_pos h, hstop.1, hstop.2, append_nil,
    if_neg (mt List.isEmpty_iff.mp hne)]

variable {c : Char}

theorem isAtomChar_ne (h : isAtomChar c = true) : c ≠ '"' ∧ c ≠ ' ' ∧ c ≠ '\r' ∧ c ≠ '\n' := by
  refine ⟨?_, ?_, ?_, ?_⟩ <;> rintro rfl <;> exact absurd h (by decide)

/-! ## Quoted strings -/

/-- What is written between the quotes. -/
def quotedBody (raw : Text) : Text := raw.flatMap fun c =>
  (if c = '"' ∨ c = '\\' then ['\\'] else []) ++ if c ≠ '\r' ∧ c ≠ '\n' then [c] else []

theorem quotedBody_escaped (h : c = '"' ∨ c = '\\') (raw : Text) :
    quotedBody (c :: raw) = '\\' :: c :: quotedBody raw := by
  have hbreak : c ≠ '\r' ∧ c ≠ '\n' := by rcases h with rfl | rfl <;> decide
  rw [quotedBody, flatMap_cons, if_pos h, if_pos hbreak]
  rfl

theorem quotedBody_break (h : c = '\r' ∨ c = '\n') (raw : Text) :
    quotedBody (c :: raw) = quotedBody raw := by
  rw [quotedBody, flatMap_cons]
  rcases h with rfl | rfl <;> rfl

theorem quotedBody_letter (hquote : ¬(c = '"' ∨ c = '\\')) (hbreak : c ≠ '\r' ∧ c ≠ '\n') (raw : Text) :
    quotedBody (c :: raw) = c :: quotedBody raw := by
  rw [quotedBody, flatMap_cons, if_neg hquote, if_pos hbreak]
  rfl

theorem readQuotedString_escaped (h : c = '"' ∨ c = '\\') (text : Text) :
    readQuotedString ('\\' :: c :: text) = (readQuotedString text).map fun r => (c :: r.1, r.2) := by
  rw [readQuotedString, if_neg (by decide), if_pos rfl, if_pos h]

theorem readQuotedString_close (rest : Text) : readQuotedString ('"' :: rest) = some ([], rest) := by
  cases rest <;> rfl

theorem readQuotedString_letter (h : ¬(c = '"' ∨ c = '\\')) (text : Text) : readQuotedString (c :: text)
      = if isQuotedChar c then (readQuotedString text).map fun r => (c :: r.1, r.2) else none := by
  obtain ⟨hquote, hbackslash⟩ := not_or.mp h
  cases text with
  | nil => exact (if_neg hquote).trans (ite_self none).symm
  | cons d rest => rw [readQuotedString, if_neg hquote, if_neg hbackslash]

/-- A term comes through without its line breaks if it has no NUL, and is not read if it has one. -/
theorem readQuotedString_quotedBody (raw rest : Text) : readQuotedString (quotedBody raw ++ '"' :: rest)
    = if '\x00' ∈ raw then none else some (withoutBreaks raw, rest) := by
  induction raw with
  | nil =>
    rw [if_neg not_mem_nil]
    exact readQuotedString_close rest
  | cons c raw ih =>
    have hcons (hc : c ≠ '\x00') : '\x00' ∈ c :: raw ↔ '\x00' ∈ raw := by
      rw [mem_cons]
      exact or_iff_right (Ne.symm hc)
    have hmap (value : Text) : (if '\x00' ∈ raw then none else some (withoutBreaks raw, rest)).map
        (fun r : Text × Text => (value ++ r.1, r.2))
          = if '\x00' ∈ raw then none else some (value ++ withoutBreaks raw, rest) := by
      split <;> rfl
    by_cases hescape : c = '"' ∨ c = '\\'
    · have hkept : withoutBreaks (c :: raw) = [c] ++ withoutBreaks raw := by
        rcases hescape with rfl | rfl <;> rfl
      have hnul : c ≠ '\x00' := by rcases hescape with rfl | rfl <;> decide
      rw [quotedBody_escaped hescape, cons_append, cons_append, readQuotedString_escaped hescape, ih, hkept]
      simp only [hcons hnul]
      exact hmap [c]
    by_cases hbreak : c = '\r' ∨ c = '\n'
    · have hlost : withoutBreaks (c :: raw) = withoutBreaks raw := by
        rcases hbreak with rfl | rfl <;> rfl
      have hnul : c ≠ '\x00' := by rcases hbreak with rfl | rfl <;> decide
      rw [quotedBody_break hbreak, ih, hlost]
      simp only [hcons hnul]
    rw [quotedBody_letter hescape (not_or.mp hbreak), cons_append, readQuotedString_letter hescape, ih]
    by_cases hnul : c = '\x00'
    · subst hnul
      rw [if_pos mem_cons_self]
      rfl
    · have hquoted : isQuotedChar c = true := by
        obtain ⟨hcarriage, hnewline⟩ := not_or.mp hbreak
        simp only [isQuotedChar, Bool.and_eq_true, bne_iff_ne]
        exact ⟨⟨hnul, hcarriage⟩, hnewline⟩
      have hkept : withoutBreaks (c :: raw) = [c] ++ withoutBreaks raw := by
        obtain ⟨hcarriage, hnewline⟩ := not_or.mp hbreak
        refine filter_cons_of_pos ?_
        simp only [Bool.and_eq_true, bne_iff_ne]
        exact ⟨hcarriage, hnewline⟩
      rw [if_pos hquoted, hkept]
      simp only [hcons hnul]
      exact hmap [c]

theorem readToken_term (raw rest : Text) : readToken (quoteImapString raw ++ rest)
    = if '\x00' ∈ raw then none else some (.quoted (withoutBreaks raw), rest) := by
  have hquoted : quoteImapString raw ++ rest = ['"'] ++ (quotedBody raw ++ '"' :: rest) := by
    rw [quoteImapString, quotedBody]
    simp only [cons_append, append_assoc, nil_append]
  rw [readToken, hquoted, expect_append]
  dsimp only
  rw [readQuotedString_quotedBody]
  split <;> rfl

variable {token : CriteriaToken}

theorem readToken_write (h : token.Legible) {rest : Text} (hrest : EndsAtom rest) :
    readToken (token.write ++ rest) = some (token.value, rest) := by
  cases token with
  | word letters =>
    obtain ⟨hne, hletters⟩ := h
    obtain ⟨c, letters, rfl⟩ := exists_cons_of_ne_nil hne
    have hquote : expect ['"'] (CriteriaToken.write (.word (c :: letters)) ++ rest) = none :=
      expect_cons_ne (isAtomChar_ne (hletters c mem_cons_self)).1.symm
    rw [readToken, hquote]
    dsimp only
    rw [CriteriaToken.write, readAtom_append hne hletters hrest]
    rfl
  | term raw => exact (readToken_term raw rest).trans (if_neg h)

/-! ## The tokens of a query -/

section

variable (query : MailSearchQuery)

/-- The keyword, if there is one. -/
def wantedKeyword : Option Text := query.keyword.filter fun keyword => !keyword.isEmpty

/-- The tokens of each key but the one of the keyword. -/
def keyTokens : List (List CriteriaToken) :=
  (searchTerms query.text).map (fun term => [.word (searchKeyName query.field), .term term]) ++
    (if query.unreadOnly then [[.word "UNSEEN".toList]] else []) ++
    if query.flaggedOnly then [[.word "FLAGGED".toList]] else []

def keywordTokens : List (List CriteriaToken) :=
  (wantedKeyword query).toList.map fun keyword => [.word "KEYWORD".toList, .word (keywordAtom keyword)]

def charsetTokens : List (List CriteriaToken) :=
  if isAscii query.text then [] else [[.word "CHARSET".toList, .word "UTF-8".toList]]

def programTokens : List (List CriteriaToken) :=
  if (keyTokens query ++ keywordTokens query).isEmpty then [[.word "ALL".toList]]
  else keyTokens query ++ keywordTokens query

end

/-- The text of a key. -/
def writeKey (tokens : List CriteriaToken) : Text := [' '].intercalate (tokens.map CriteriaToken.write)

variable {query : MailSearchQuery}

variable {tokens : List CriteriaToken}

theorem ne_nil_of_mem_keyTokens (h : tokens ∈ keyTokens query ++ keywordTokens query) : tokens ≠ [] := by
  simp only [keyTokens, keywordTokens, mem_append, mem_map, mem_ite_nil_right,
    mem_singleton] at h
  rcases h with ((⟨term, -, rfl⟩ | ⟨-, rfl⟩) | ⟨-, rfl⟩) | ⟨keyword, -, rfl⟩ <;> exact cons_ne_nil _ _

theorem programTokens_ne_nil (query : MailSearchQuery) : programTokens query ≠ [] := by
  rw [programTokens]
  split
  · exact cons_ne_nil _ _
  · next h => exact mt List.isEmpty_iff.mpr h

theorem ne_nil_of_mem_tokens
    (h : tokens ∈ charsetTokens query ++ programTokens query) : tokens ≠ [] := by
  rcases mem_append.mp h with h | h
  · rw [charsetTokens] at h
    split at h
    · cases h
    · rw [mem_singleton.mp h]
      exact cons_ne_nil _ _
  · rw [programTokens] at h
    split at h
    · rw [mem_singleton.mp h]
      exact cons_ne_nil _ _
    · exact ne_nil_of_mem_keyTokens h

theorem writeKey_word (letters : Text) : writeKey [.word letters] = letters := intercalate_singleton

theorem writeKey_pair (first second : CriteriaToken) :
    writeKey [first, second] = first.write ++ ' ' :: second.write := by
  rw [writeKey, map_cons, map_singleton, intercalate_cons_cons, intercalate_singleton,
    append_assoc]
  rfl

/-- The parts of the criteria are the texts of the keys. -/
theorem searchParts_eq (query : MailSearchQuery) :
    searchParts query = (keyTokens query ++ keywordTokens query).map writeKey := by
  have hif (b : Bool) (parts : List Text) (tokens : List CriteriaToken) :
      (if b then parts ++ [writeKey tokens] else parts) = parts ++ (if b then [tokens] else []).map writeKey := by
    cases b
    · exact (append_nil parts).symm
    · rfl
  have hterms : ((searchTerms query.text).map fun term => searchKeyName query.field ++ ' ' :: quoteImapString term)
      = ((searchTerms query.text).map fun term =>
          [CriteriaToken.word (searchKeyName query.field), .term term]).map writeKey := by
    rw [map_map]
    exact map_congr_left fun term _ => (writeKey_pair (.word (searchKeyName query.field)) (.term term)).symm
  have hunseen := hif query.unreadOnly ((searchTerms query.text).map fun term =>
    searchKeyName query.field ++ ' ' :: quoteImapString term) [.word "UNSEEN".toList]
  rw [writeKey_word, hterms, ← map_append] at hunseen
  have hflagged := hif query.flaggedOnly (((searchTerms query.text).map fun term =>
    [CriteriaToken.word (searchKeyName query.field), .term term]) ++
      (if query.unreadOnly then [[CriteriaToken.word "UNSEEN".toList]] else []) |>.map writeKey) [.word "FLAGGED".toList]
  rw [writeKey_word, ← map_append] at hflagged
  unfold searchParts
  dsimp only
  rw [hterms, hunseen, hflagged, ← keyTokens, keywordTokens, wantedKeyword]
  cases query.keyword.filter fun keyword => !keyword.isEmpty with
  | none => rw [Option.toList_none, map_nil, append_nil]
  | some keyword =>
    rw [Option.toList_some, map_singleton, map_append, map_singleton, writeKey_pair]
    rfl

theorem imapSearchCriteria_eq (query : MailSearchQuery) : (imapSearchCriteria query).2
    = [' '].intercalate ((charsetTokens query ++ programTokens query).flatten.map CriteriaToken.write) := by
  have hkeys : [' '].intercalate ((charsetTokens query ++ programTokens query).flatten.map CriteriaToken.write)
      = [' '].intercalate ((charsetTokens query ++ programTokens query).map writeKey) := by
    have hne : ∀ texts ∈ (charsetTokens query ++ programTokens query).map (List.map CriteriaToken.write),
        texts ≠ [] := by
      intro texts htexts
      obtain ⟨tokens, htokens, rfl⟩ := mem_map.mp htexts
      exact mt map_eq_nil_iff.mp (ne_nil_of_mem_tokens htokens)
    rw [map_flatten, ← intercalate_flatten [' '] hne, map_map]
    rfl
  have hprogram : (if ((keyTokens query ++ keywordTokens query).map writeKey).isEmpty then ["ALL".toList]
      else (keyTokens query ++ keywordTokens query).map writeKey) = (programTokens query).map writeKey := by
    rw [programTokens, isEmpty_map]
    split <;> rfl
  rw [hkeys, imapSearchCriteria]
  dsimp only
  rw [searchParts_eq, hprogram, charsetTokens]
  cases isAscii query.text with
  | true => rfl
  | false =>
    have hne : (programTokens query).map writeKey ≠ [] := mt map_eq_nil_iff.mp (programTokens_ne_nil query)
    rw [Bool.not_false, if_pos rfl, if_neg Bool.false_ne_true, singleton_append, map_cons,
      intercalate_cons_of_ne_nil hne, writeKey_pair, append_assoc, append_assoc]
    rfl

/-! ## Reading -/

/-- The tokens in turn. -/
def criteriaTokens (query : MailSearchQuery) : List CriteriaToken :=
  (charsetTokens query ++ programTokens query).flatten

theorem criteriaTokens_ne_nil (query : MailSearchQuery) : criteriaTokens query ≠ [] := by
  intro hnil
  obtain ⟨tokens, rest, hprogram⟩ := exists_cons_of_ne_nil (programTokens_ne_nil query)
  have hmem : tokens ∈ charsetTokens query ++ programTokens query := by
    rw [hprogram]
    exact mem_append_right _ mem_cons_self
  exact ne_nil_of_mem_tokens hmem (List.flatten_eq_nil_iff.mp hnil tokens hmem)

theorem write_ne_nil (h : token.Legible) : token.write ≠ [] := by
  cases token with
  | word letters => exact h.1
  | term raw => exact cons_ne_nil _ _

theorem endsAtom_nil : EndsAtom [] := nofun

/-- Legible tokens are read one by one. -/
theorem readTokens_of_legible (hne : tokens ≠ []) (h : ∀ token ∈ tokens, token.Legible) :
    readTokens ([' '].intercalate (tokens.map CriteriaToken.write)) = some (tokens.map CriteriaToken.value) := by
  have hlength : tokens.length ≤ ([' '].intercalate (tokens.map CriteriaToken.write)).length := by
    have hle := length_le_intercalate [' '] (forall_mem_map.mpr fun token htoken => write_ne_nil (h token htoken))
    rwa [length_map] at hle
  have hread := readSeparated_intercalate endsAtom_space endsAtom_nil rfl hne
    (fun token htoken rest hrest => readToken_write (h token htoken) hrest) hlength
  rw [append_nil] at hread
  rw [readTokens, hread]
  rfl

theorem length_le_flatMap {f : CriteriaToken → Text} (h : ∀ token, f token ≠ []) :
    tokens.length ≤ (tokens.flatMap f).length := by
  induction tokens with
  | nil => exact Nat.zero_le _
  | cons token tokens ih =>
    have hpos := length_pos_iff.mpr (h token)
    rw [flatMap_cons, length_append, length_cons]
    omega

/-- A token that is not read, or not to its end, after legible ones. -/
theorem readTokens_of_stuck {front : List CriteriaToken} (hfront : ∀ token ∈ front, token.Legible) {text : Text}
    (h : ∀ n tokens rest, readSeparated [' '] readToken n text = some (tokens, rest) → rest ≠ []) :
    readTokens ((front.flatMap fun token => token.write ++ [' ']) ++ text) = none := by
  generalize hwhole : (front.flatMap fun token => token.write ++ [' ']) ++ text = whole
  have hlength : front.length ≤ whole.length := by
    rw [← hwhole, length_append]
    exact (length_le_flatMap fun token => append_ne_nil_of_right_ne_nil token.write (cons_ne_nil ' ' [])).trans
      (Nat.le_add_right _ _)
  obtain ⟨n, hn⟩ := Nat.exists_eq_add_of_le hlength
  have hread := readSeparated_append endsAtom_space
    (fun token htoken rest hrest => readToken_write (hfront token htoken) hrest) n text
  rw [readTokens, hn, ← hwhole, hread]
  cases htext : readSeparated [' '] readToken n text with
  | none => rfl
  | some read =>
    have hrest := h n read.1 read.2 htext
    exact if_neg (mt List.isEmpty_iff.mp hrest)

theorem stuck_of_nul {raw : Text} (h : '\x00' ∈ raw) (more : Text) (n : ℕ) (tokens : List ImapToken) (rest : Text) :
    readSeparated [' '] readToken n (quoteImapString raw ++ more) = some (tokens, rest) → rest ≠ [] := by
  intro hread
  cases n with
  | zero => cases hread
  | succ n =>
    rw [readSeparated, readToken_term, if_pos h] at hread
    cases hread

/-- A keyword that is no atom is not read to its end. -/
theorem stuck_of_keyword {letters : Text} (hletters : ∀ c ∈ letters, c ≠ ' ' ∧ c ≠ '"')
    (h : ¬(CriteriaToken.word letters).Legible) (n : ℕ) (tokens : List ImapToken) (rest : Text) :
    readSeparated [' '] readToken n letters = some (tokens, rest) → rest ≠ [] := by
  intro hread
  cases n with
  | zero => cases hread
  | succ n =>
    have hquote : expect ['"'] letters = none := expect_eq_none fun hstart =>
      (hletters '"' (hstart.subset mem_cons_self)).2 rfl
    have hspace : expect [' '] (letters.dropWhile isAtomChar) = none := expect_eq_none fun hstart =>
      (hletters ' ' ((dropWhile_suffix _).subset (hstart.subset mem_cons_self))).1 rfl
    have htoken : readToken letters = (readAtom letters).map fun r => (.atom r.1, r.2) := by
      rw [readToken, hquote]
    rw [readSeparated, htoken, readAtom] at hread
    split at hread
    · cases hread
    · next hne =>
      rw [Option.map_some, Option.bind_some] at hread
      dsimp only at hread
      rw [hspace] at hread
      cases hread
      intro hnil
      refine h ⟨fun hempty => ?_, List.dropWhile_eq_nil_iff.mp hnil⟩
      rw [hempty] at hne
      exact hne rfl

/-! ## Keywords and terms -/

/-- The tokens but the keyword. -/
def firstTokens (query : MailSearchQuery) : List CriteriaToken :=
  (charsetTokens query).flatten ++
    if (wantedKeyword query).isSome then (keyTokens query).flatten ++ [.word "KEYWORD".toList]
    else if (keyTokens query).isEmpty then [.word "ALL".toList]
    else (keyTokens query).flatten

def tagTokens (query : MailSearchQuery) : List CriteriaToken :=
  (wantedKeyword query).toList.map fun keyword => .word (keywordAtom keyword)

theorem criteriaTokens_eq (query : MailSearchQuery) : criteriaTokens query = firstTokens query ++ tagTokens query := by
  rw [criteriaTokens, firstTokens, tagTokens, programTokens, keywordTokens, flatten_append]
  cases wantedKeyword query with
  | none =>
    simp only [Option.toList_none, map_nil, append_nil, Option.isSome_none, Bool.false_eq_true, if_false]
    split <;> rfl
  | some keyword =>
    have hne : (keyTokens query ++
        [[CriteriaToken.word "KEYWORD".toList, .word (keywordAtom keyword)]]).isEmpty = false :=
      isEmpty_eq_false_iff.mpr (append_ne_nil_of_right_ne_nil _ (cons_ne_nil _ _))
    simp only [Option.toList_some, map_cons, map_nil, hne, Option.isSome_some, if_true, Bool.false_eq_true,
      if_false, flatten_append, append_assoc]
    rfl

theorem keywordAtom_letters {keyword : Text} : ∀ c ∈ keywordAtom keyword, c ≠ ' ' ∧ c ≠ '"' := by
  intro c hc
  have hkept := (mem_filter.mp hc).2
  simp only [Bool.not_eq_true', Bool.or_eq_false_iff, beq_eq_false_iff_ne] at hkept
  exact ⟨hkept.1.1.1, hkept.1.1.2⟩

variable (field : MailSearchField)

theorem legible_searchKeyName : (CriteriaToken.word (searchKeyName field)).Legible := by
  have hall : (searchKeyName field).all isAtomChar = true := by cases field <;> decide
  have hne : searchKeyName field ≠ [] := by cases field <;> decide
  exact ⟨hne, all_eq_true.mp hall⟩

theorem legible_word {letters : Text} (hne : letters.isEmpty = false) (hall : letters.all isAtomChar = true) :
    (CriteriaToken.word letters).Legible :=
  ⟨isEmpty_eq_false_iff.mp hne, all_eq_true.mp hall⟩

/-- The words before the keyword are legible, and the rest are the terms. -/
theorem mem_firstTokens (h : token ∈ firstTokens query) :
    token.Legible ∨ ∃ term ∈ searchTerms query.text, token = .term term := by
  have hkeys {token : CriteriaToken} (h : token ∈ (keyTokens query).flatten) :
      token.Legible ∨ ∃ term ∈ searchTerms query.text, token = .term term := by
    obtain ⟨tokens, htokens, htoken⟩ := List.mem_flatten.mp h
    simp only [keyTokens, mem_append, mem_map, mem_ite_nil_right, mem_singleton] at htokens
    rcases htokens with (⟨term, hterm, rfl⟩ | ⟨-, rfl⟩) | ⟨-, rfl⟩
    · rcases mem_pair.mp htoken with rfl | rfl
      · exact .inl (legible_searchKeyName query.field)
      · exact .inr ⟨term, hterm, rfl⟩
    · rw [mem_singleton.mp htoken]
      exact .inl (legible_word rfl (by decide))
    · rw [mem_singleton.mp htoken]
      exact .inl (legible_word rfl (by decide))
  rcases mem_append.mp h with h | h
  · rw [charsetTokens] at h
    split at h
    · cases h
    · rcases mem_pair.mp h with rfl | rfl
      · exact .inl (legible_word rfl (by decide))
      · exact .inl (legible_word rfl (by decide))
  · split at h
    · rcases mem_append.mp h with h | h
      · exact hkeys h
      · rw [mem_singleton.mp h]
        exact .inl (legible_word rfl (by decide))
    · split at h
      · rw [mem_singleton.mp h]
        exact .inl (legible_word rfl (by decide))
      · exact hkeys h

theorem term_mem_firstTokens {term : Text} (h : term ∈ searchTerms query.text) : .term term ∈ firstTokens query := by
  have htokens : [CriteriaToken.word (searchKeyName query.field), .term term] ∈ keyTokens query :=
    mem_append_left _ (mem_append_left _ (mem_map_of_mem h))
  have hmem : CriteriaToken.term term ∈ (keyTokens query).flatten :=
    List.mem_flatten.mpr ⟨_, htokens, mem_cons_of_mem _ mem_cons_self⟩
  refine mem_append_right _ ?_
  split
  · exact mem_append_left _ hmem
  · rw [if_neg fun hempty => ne_nil_of_mem htokens (List.isEmpty_iff.mp hempty)]
    exact hmem

theorem exists_illegible (h : ¬∀ token ∈ tokens, token.Legible) :
    ∃ front token back, tokens = front ++ token :: back ∧ (∀ token ∈ front, token.Legible) ∧ ¬token.Legible := by
  induction tokens with
  | nil => exact absurd nofun h
  | cons token tokens ih =>
    by_cases htoken : token.Legible
    · obtain ⟨front, bad, back, rfl, hfront, hbad⟩ :=
        ih fun hall => h (forall_mem_cons.mpr ⟨htoken, hall⟩)
      exact ⟨token :: front, bad, back, rfl, forall_mem_cons.mpr ⟨htoken, hfront⟩, hbad⟩
    · exact ⟨[], token, tokens, rfl, nofun, htoken⟩

theorem write_append {front back : List CriteriaToken} (hback : back ≠ []) :
    [' '].intercalate ((front ++ back).map CriteriaToken.write)
      = (front.flatMap fun token => token.write ++ [' ']) ++ [' '].intercalate (back.map CriteriaToken.write) := by
  rw [map_append, intercalate_append_of_ne_nil _ _ (mt map_eq_nil_iff.mp hback), flatMap_map]

/-- Criteria with an illegible token are not read. -/
theorem readTokens_eq_none (h : ¬∀ token ∈ criteriaTokens query, token.Legible) :
    readTokens (imapSearchCriteria query).2 = none := by
  rw [imapSearchCriteria_eq, ← criteriaTokens]
  rw [criteriaTokens_eq] at h ⊢
  by_cases hfirst : ∀ token ∈ firstTokens query, token.Legible
  · have htag : ¬∀ token ∈ tagTokens query, token.Legible := fun htag =>
      h (forall_mem_append.mpr ⟨hfirst, htag⟩)
    rw [tagTokens] at htag ⊢
    cases hkeyword : wantedKeyword query with
    | none =>
      rw [hkeyword] at htag
      exact absurd nofun htag
    | some keyword =>
      rw [hkeyword, Option.toList_some, map_singleton, forall_mem_singleton] at htag
      rw [Option.toList_some, map_singleton, write_append (cons_ne_nil _ _), map_singleton,
        intercalate_singleton]
      exact readTokens_of_stuck hfirst (stuck_of_keyword keywordAtom_letters htag)
  · obtain ⟨front, bad, back, heq, hfront, hbad⟩ := exists_illegible hfirst
    have hmem : bad ∈ firstTokens query := by
      rw [heq]
      exact mem_append_right _ mem_cons_self
    obtain ⟨term, -, rfl⟩ := (mem_firstTokens hmem).resolve_left hbad
    have hnul : '\x00' ∈ term := not_not.mp hbad
    rw [heq, append_assoc, cons_append, write_append (cons_ne_nil _ _), map_cons]
    cases hmore : (back ++ tagTokens query).map CriteriaToken.write with
    | nil =>
      rw [intercalate_singleton, ← append_nil (CriteriaToken.write _)]
      exact readTokens_of_stuck hfront (stuck_of_nul hnul [])
    | cons next more =>
      rw [intercalate_cons_cons, append_assoc]
      exact readTokens_of_stuck hfront (stuck_of_nul hnul _)

/-! ## Letters of the terms -/

theorem mem_trim_iff (h : isWhitespace c = false) {text : Text} : c ∈ trim text ↔ c ∈ text := by
  have hc : ¬isWhitespace c = true := by
    rw [h]
    exact Bool.false_ne_true
  constructor
  · intro hmem
    exact (dropWhile_suffix _).subset ((List.rdropWhile_prefix _ _).subset hmem)
  · intro hmem
    rw [← takeWhile_append_dropWhile (p := isWhitespace) (l := text)] at hmem
    have hrest := (mem_append.mp hmem).resolve_left fun htake => hc (mem_takeWhile_imp htake)
    exact mem_rdropWhile hrest hc

namespace TermSplit

/-- A letter is in one of the terms or in the one that is being read. -/
def Holds (c : Char) (s : TermSplit) : Prop := (∃ term ∈ s.terms, c ∈ term) ∨ c ∈ s.current

variable {c : Char}

theorem mem_pushed_iff (h : isWhitespace c = false) (s : TermSplit) :
    (∃ term ∈ s.pushed, c ∈ term) ↔ s.Holds c := by
  have htrim : c ∈ trim s.current ↔ c ∈ s.current := mem_trim_iff h
  rw [pushed, Holds]
  split
  · next hempty =>
    have hnot : c ∉ s.current := by
      rw [← htrim, List.isEmpty_iff.mp hempty]
      exact not_mem_nil
    exact (or_iff_left hnot).symm
  · simp only [mem_append, mem_singleton, or_and_right, exists_or, exists_eq_left, htrim]

theorem holds_step_iff (hspace : isWhitespace c = false) (hquote : c ≠ '"') (s : TermSplit) (d : Char) :
    (s.step d).Holds c ↔ s.Holds c ∨ c = d := by
  have hpushed (quoted : Bool) : (TermSplit.mk s.pushed [] quoted).Holds c ↔ s.Holds c := by
    rw [← mem_pushed_iff hspace s, Holds]
    exact or_iff_left not_mem_nil
  rw [step]
  split
  · next hd =>
    rw [or_iff_left (hd ▸ hquote)]
    split
    · exact hpushed false
    · exact Iff.rfl
  · split
    · next hd =>
      have hne : c ≠ d := by
        rintro rfl
        exact Bool.false_ne_true (hspace.symm.trans hd.1)
      rw [or_iff_left hne]
      exact hpushed s.quoted
    · simp only [Holds, mem_append, mem_singleton, or_assoc]

theorem holds_foldl_iff (hspace : isWhitespace c = false) (hquote : c ≠ '"') (text : Text) (s : TermSplit) :
    (text.foldl step s).Holds c ↔ s.Holds c ∨ c ∈ text := by
  induction text generalizing s with
  | nil => exact (or_iff_left not_mem_nil).symm
  | cons d text ih => rw [foldl_cons, ih, holds_step_iff hspace hquote, mem_cons, or_assoc]

end TermSplit

/-- The terms keep every letter but whitespace and quotes. -/
theorem mem_searchTerms_iff (hspace : isWhitespace c = false) (hquote : c ≠ '"') (text : Text) :
    (∃ term ∈ searchTerms text, c ∈ term) ↔ c ∈ text := by
  rw [searchTerms, TermSplit.mem_pushed_iff hspace, TermSplit.holds_foldl_iff hspace hquote]
  exact or_iff_right (not_or.mpr ⟨fun ⟨_, hterm, _⟩ => not_mem_nil hterm, not_mem_nil⟩)

theorem legible_iff (query : MailSearchQuery) :
    (∀ token ∈ criteriaTokens query, token.Legible) ↔ PlainQuery query := by
  have hwanted (keyword : Text) :
      wantedKeyword query = some keyword ↔ query.keyword = some keyword ∧ keyword ≠ [] := by
    rw [wantedKeyword, Option.filter_eq_some_iff, Bool.not_eq_true', isEmpty_eq_false_iff]
  have htag {keyword : Text} (h : wantedKeyword query = some keyword) :
      CriteriaToken.word (keywordAtom keyword) ∈ criteriaTokens query := by
    rw [criteriaTokens_eq, tagTokens, h]
    exact mem_append_right _ mem_cons_self
  constructor
  · intro h
    refine ⟨fun hnul => ?_, fun keyword hkeyword hne => h _ (htag ((hwanted keyword).mpr ⟨hkeyword, hne⟩))⟩
    obtain ⟨term, hterm, hmem⟩ := (mem_searchTerms_iff (c := '\x00') rfl (by decide) query.text).mpr hnul
    have hfirst := mem_append_left (tagTokens query) (term_mem_firstTokens hterm)
    rw [← criteriaTokens_eq] at hfirst
    exact h _ hfirst hmem
  · intro h token htoken
    rw [criteriaTokens_eq] at htoken
    rcases mem_append.mp htoken with hfirst | htag
    · rcases mem_firstTokens hfirst with hlegible | ⟨term, hterm, rfl⟩
      · exact hlegible
      · intro hmem
        exact h.noNul ((mem_searchTerms_iff rfl (by decide) query.text).mp ⟨term, hterm, hmem⟩)
    · obtain ⟨keyword, hkeyword, rfl⟩ := mem_map.mp htag
      obtain ⟨heq, hne⟩ := (hwanted keyword).mp (Option.mem_toList.mp hkeyword)
      exact h.atom keyword heq hne

/-! ## Keys -/

theorem readKeys_string (token : ImapToken) (tokens : List ImapToken) :
    readKeys (.atom (searchKeyName field) :: token :: tokens)
      = (readKeys tokens).map (.string (searchKeyName field) token.value :: ·) := by
  have hmem : searchKeyName field ∈ stringKeys := by cases field <;> decide
  delta readKeys
  exact if_pos hmem

theorem readKeys_terms (terms : List Text) (tokens : List ImapToken) :
    readKeys ((terms.flatMap fun term => [.atom (searchKeyName field), .quoted (withoutBreaks term)]) ++ tokens)
      = (readKeys tokens).map ((terms.map fun term => .string (searchKeyName field) (withoutBreaks term)) ++ ·) := by
  induction terms with
  | nil => exact Option.map_id'.symm
  | cons term terms ih =>
    rw [flatMap_cons, append_assoc, cons_append, singleton_append, readKeys_string, ih,
      Option.map_map]
    rfl

/-- The keyword as the criteria write it. -/
def keywordTag (query : MailSearchQuery) : List Text := (wantedKeyword query).toList.map keywordAtom

/-- The keys that are asked for, if there are any. -/
def wantedKeys (query : MailSearchQuery) : List SearchKey :=
  (searchTerms query.text).map (fun term => .string (searchKeyName query.field) (withoutBreaks term)) ++
    (if query.unreadOnly then [.unseen] else []) ++ (if query.flaggedOnly then [.flagged] else []) ++
    (keywordTag query).map .keyword

theorem readKeys_flags (unread flagged : Bool) (keyword : Option Text) :
    readKeys (((if unread then [[CriteriaToken.word "UNSEEN".toList]] else []) ++
        (if flagged then [[CriteriaToken.word "FLAGGED".toList]] else []) ++
        keyword.toList.map fun keyword =>
          [CriteriaToken.word "KEYWORD".toList, .word (keywordAtom keyword)]).flatten.map CriteriaToken.value)
      = some ((if unread then [.unseen] else []) ++ (if flagged then [.flagged] else []) ++
          (keyword.toList.map keywordAtom).map .keyword) := by
  cases unread <;> cases flagged <;> cases keyword <;> rfl

theorem readKeys_keyTokens (query : MailSearchQuery) :
    readKeys ((keyTokens query ++ keywordTokens query).flatten.map CriteriaToken.value) = some (wantedKeys query) := by
  have hterms (terms : List Text) :
      (terms.map fun term => [CriteriaToken.word (searchKeyName query.field), .term term]).flatten.map
          CriteriaToken.value
        = terms.flatMap fun term => [.atom (searchKeyName query.field), .quoted (withoutBreaks term)] := by
    rw [← flatMap_def, map_flatMap]
    rfl
  rw [keyTokens, keywordTokens, wantedKeys, keywordTag, append_assoc, append_assoc, flatten_append,
    map_append, hterms, readKeys_terms, ← append_assoc, readKeys_flags, Option.map_some,
    append_assoc, append_assoc, append_assoc]

theorem isEmpty_wantedKeys (query : MailSearchQuery) :
    (wantedKeys query).isEmpty = (keyTokens query ++ keywordTokens query).isEmpty := by
  rw [wantedKeys, keyTokens, keywordTokens, keywordTag, Bool.eq_iff_iff]
  simp only [List.isEmpty_iff, append_eq_nil_iff, map_eq_nil_iff, ite_eq_right_iff, cons_ne_nil]

theorem readKeys_programTokens (query : MailSearchQuery) :
    readKeys ((programTokens query).flatten.map CriteriaToken.value)
      = some (if (wantedKeys query).isEmpty then [.all] else wantedKeys query) := by
  rw [programTokens, isEmpty_wantedKeys]
  split
  · rfl
  · exact readKeys_keyTokens query

theorem readKeys_charset (tokens : List ImapToken) : readKeys (.atom "CHARSET".toList :: tokens) = none := by
  match tokens with
  | [] => rfl
  | .atom _ :: _ => rfl
  | .quoted _ :: _ => rfl

/-- A program that has no charset is its keys. -/
theorem searchProgram_of_readKeys {tokens : List ImapToken} {keys : List SearchKey} (h : readKeys tokens = some keys) :
    searchProgram tokens = some keys := by
  match tokens with
  | [] => exact h
  | .quoted value :: tokens => exact h
  | .atom name :: tokens =>
    have hname : name ≠ "CHARSET".toList := by
      rintro rfl
      rw [readKeys_charset] at h
      cases h
    exact (if_neg hname).trans h

theorem searchProgram_criteriaTokens (query : MailSearchQuery) :
    searchProgram ((criteriaTokens query).map CriteriaToken.value)
      = some (if (wantedKeys query).isEmpty then [.all] else wantedKeys query) := by
  have hprogram := readKeys_programTokens query
  rw [criteriaTokens, charsetTokens]
  split
  · exact searchProgram_of_readKeys hprogram
  · exact hprogram

/-! ## One line -/

theorem mem_quoteImapString {raw : Text} (h : c ∈ quoteImapString raw) : c ≠ '\r' ∧ c ≠ '\n' := by
  rw [quoteImapString, mem_cons, mem_append, mem_singleton] at h
  rcases h with rfl | h | rfl
  · decide
  · obtain ⟨d, -, hd⟩ := mem_flatMap.mp h
    rcases mem_append.mp hd with hd | hd
    · rw [(mem_ite_nil_right.mp hd).2 |> mem_singleton.mp]
      decide
    · obtain ⟨hbreak, hd⟩ := mem_ite_nil_right.mp hd
      rwa [mem_singleton.mp hd]
  · decide

theorem mem_write (h : token.Legible) (hc : c ∈ token.write) : c ≠ '\r' ∧ c ≠ '\n' := by
  cases token with
  | word letters => exact (isAtomChar_ne (h.2 c hc)).2.2
  | term raw => exact mem_quoteImapString hc

/-- Legible tokens make one line. -/
theorem mem_criteria {query : MailSearchQuery} (h : ∀ token ∈ criteriaTokens query, token.Legible)
    (hc : c ∈ (imapSearchCriteria query).2) : c ≠ '\r' ∧ c ≠ '\n' := by
  rw [imapSearchCriteria_eq] at hc
  rcases mem_intercalate hc with hc | ⟨text, htext, hc⟩
  · rw [mem_singleton.mp hc]
    decide
  · obtain ⟨token, htoken, rfl⟩ := mem_map.mp htext
    exact mem_write (h token htoken) hc

/-! ## What is not injected -/

theorem length_keywordTag_le (query : MailSearchQuery) : (keywordTag query).length ≤ 1 := by
  rw [keywordTag, length_map]
  cases wantedKeyword query with
  | none => exact Nat.zero_le 1
  | some keyword => exact Nat.le_refl 1

/-- A server reads what a query asks for exactly if every text of it can be read. -/
theorem notInjected_imapSearchCriteria_iff (query : MailSearchQuery) : NotInjected query ↔ PlainQuery query := by
  rw [← legible_iff]
  constructor
  · intro h
    obtain ⟨keys, hkeys, -⟩ := h.read
    by_contra hlegible
    rw [readCriteria, readTokens_eq_none hlegible] at hkeys
    cases hkeys
  · intro h
    refine ⟨fun hc => (mem_criteria h hc).1 rfl, fun hc => (mem_criteria h hc).2 rfl, _, ?_,
      keywordTag query, length_keywordTag_le query, rfl⟩
    rw [readCriteria, imapSearchCriteria_eq, ← criteriaTokens, readTokens_of_legible (criteriaTokens_ne_nil query) h,
      Option.bind_some]
    exact searchProgram_criteriaTokens query

/-- A keyword keeps its line breaks, and with them a command of its own. -/
theorem notInjected_imapSearchCriteria_wrong :
    ¬NotInjected ⟨[], .all, false, false, some "a\r\nb LOGOUT".toList⟩ := by
  intro h
  exact h.noCarriage (by decide)

end Taomni.Mail
