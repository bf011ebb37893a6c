import Mathlib.Data.List.Chain
import Taomni.Agent.CommandLine

/-!
# The classifier of SQL statements

Reference: `src-tauri/src/agent/sql_classify.rs`.

The bytes of the text are characters, as `strip_comments` pushes them. `sqlRead` reads the text with
its literals, quoted identifiers and comments; the classifier is compared with it.
-/

namespace Taomni.Agent

open List
open Bool (and_eq_true not_eq_true not_eq_true' or_eq_true)

/-! ## The classifier -/

inductive SqlClass where
  | readOnly
  | mutating
deriving DecidableEq

def readLeaders : List String :=
  ["select", "show", "desc", "describe", "explain", "with", "values", "table", "pragma"]

def mutatingWords : List String :=
  ["insert", "update", "delete", "merge", "replace", "upsert", "create", "alter", "drop", "truncate",
   "grant", "revoke", "call", "exec", "execute", "copy", "load", "import", "attach", "rename",
   "vacuum", "optimize", "reindex", "cluster", "lock", "comment", "refresh", "set"]

def isWordByte (c : Char) : Bool := c.isAlphanum || c == '_'

/-- The needle begins here as a whole word. -/
def wordAt (needle : Text) (prev : Option Char) (haystack : Text) : Bool :=
  needle.isPrefixOf haystack && !prev.any isWordByte &&
    !(haystack.drop needle.length).head?.any isWordByte

/-- The occurrences of the needle, one after the other. -/
def hasWordFrom (needle : Text) : Option Char → Text → Bool
  | _, [] => false
  | prev, c :: haystack =>
    wordAt needle prev (c :: haystack) || hasWordFrom needle (some c) haystack

def hasWord (haystack needle : Text) : Bool := hasWordFrom needle none haystack

inductive StripMode where
  | code
  | line
  | block
deriving DecidableEq

/-- The loop of `strip_comments`; its inner loops are modes. -/
def stripLoop : StripMode → Text → Text
  | .code, '-' :: '-' :: sql => stripLoop .line sql
  | .code, '/' :: '*' :: sql => stripLoop .block sql
  | .code, c :: sql => c :: stripLoop .code sql
  | .line, '\n' :: sql => '\n' :: stripLoop .code sql
  | .line, _ :: sql => stripLoop .line sql
  | .block, '*' :: '/' :: sql => ' ' :: stripLoop .code sql
  | .block, _ :: sql => stripLoop .block sql
  | .block, [] => [' ']
  | _, [] => []

def stripComments (sql : Text) : Text := stripLoop .code sql

/-- The first run of letters. -/
def firstLetters (s : Text) : Text := (s.dropWhile (!·.isAlpha)).takeWhile Char.isAlpha

def classifySql (sql : Text) : SqlClass :=
  let trimmed := trim (stripComments sql)
  if trimmed.isEmpty then .mutating
  else
    let body := (trimmed.rdropWhile (· == ';')).rdropWhile isWhitespace
    if body.contains ';' then .mutating
    else
      let lower := body.map Char.toLower
      let leader := firstLetters lower
      if !listed readLeaders leader then .mutating
      else if leader = "select".toList then
        if hasWord lower "into".toList then .mutating else .readOnly
      else if leader = "with".toList then
        if mutatingWords.any (hasWord lower ·.toList) then .mutating else .readOnly
      else if leader = "explain".toList then
        if hasWord lower "analyze".toList || mutatingWords.any (hasWord lower ·.toList) then .mutating
        else .readOnly
      else .readOnly

/-! ## Reading with literals and comments -/

/-- A character outside comments, and whether it belongs to a literal or a quoted identifier. -/
structure SqlChar where
  char : Char
  quoted : Bool
deriving DecidableEq

inductive SqlMode where
  | code
  | quoted (quote : Char)
  | line
  | block
deriving DecidableEq

def isQuote (c : Char) : Bool := c == '\'' || c == '"' || c == '`'

/-- A doubled quote ends one literal and begins the next, with nothing in between. -/
def sqlRead : SqlMode → Text → List SqlChar
  | .code, '-' :: '-' :: sql => sqlRead .line sql
  | .code, '/' :: '*' :: sql => sqlRead .block sql
  | .code, c :: sql =>
    if isQuote c then ⟨c, true⟩ :: sqlRead (.quoted c) sql else ⟨c, false⟩ :: sqlRead .code sql
  | .quoted quote, c :: sql =>
    ⟨c, true⟩ :: if c = quote then sqlRead .code sql else sqlRead (.quoted quote) sql
  | .line, '\n' :: sql => ⟨'\n', false⟩ :: sqlRead .code sql
  | .line, _ :: sql => sqlRead .line sql
  | .block, '*' :: '/' :: sql => ⟨' ', false⟩ :: sqlRead .code sql
  | .block, _ :: sql => sqlRead .block sql
  | .block, [] => [⟨' ', false⟩]
  | _, [] => []

namespace SqlChar

def isSeparator (u : SqlChar) : Bool := !u.quoted && u.char == ';'

def isBlank (u : SqlChar) : Bool := !u.quoted && isWhitespace u.char

def isWord (u : SqlChar) : Bool := !u.quoted && isWordByte u.char

/-- In lower case, and without the text of literals. -/
def masked (u : SqlChar) : Char := if u.quoted then '\'' else u.char.toLower

end SqlChar

/-- The statements that are not blank. -/
def sqlStatements (sql : Text) : List (List SqlChar) :=
  ((sqlRead .code sql).splitOnP SqlChar.isSeparator).filter fun stmt => !stmt.all SqlChar.isBlank

/-- The first word of a statement outside literals. -/
def firstWord (stmt : List SqlChar) : Text :=
  ((stmt.dropWhile (!·.isWord)).takeWhile SqlChar.isWord).map SqlChar.char

/-- A statement that reads: its first word is a read leader, a SELECT has no INTO, and a WITH or an EXPLAIN
no mutating word. -/
structure ReadStatement (stmt : List SqlChar) : Prop where
  leader : listed readLeaders ((firstWord stmt).map Char.toLower) = true
  select : (firstWord stmt).map Char.toLower = "select".toList →
    hasWord (stmt.map SqlChar.masked) "into".toList = false
  wrapper : (firstWord stmt).map Char.toLower = "with".toList ∨
      (firstWord stmt).map Char.toLower = "explain".toList →
    ∀ w ∈ mutatingWords, hasWord (stmt.map SqlChar.masked) w.toList = false

instance (stmt : List SqlChar) : Decidable (ReadStatement stmt) :=
  decidable_of_iff (_ ∧ _ ∧ _) ⟨fun ⟨hleader, hselect, hwrapper⟩ => ⟨hleader, hselect, hwrapper⟩,
    fun h => ⟨h.leader, h.select, h.wrapper⟩⟩

/-- What the classifier promises of a text. -/
def SqlSafe (sql : Text) : Prop := ∃ stmt, sqlStatements sql = [stmt] ∧ ReadStatement stmt

instance (sql : Text) : Decidable (SqlSafe sql) :=
  decidable_of_iff (∃ stmt ∈ sqlStatements sql, sqlStatements sql = [stmt] ∧ ReadStatement stmt)
    ⟨fun ⟨stmt, _, h⟩ => ⟨stmt, h⟩, fun ⟨stmt, h⟩ => ⟨stmt, h.1 ▸ mem_singleton_self stmt, h⟩⟩

/-! ## Texts that are read alike -/

/-- No comment begins in a literal or a quoted identifier. -/
def commentsPlain : SqlMode → Text → Bool
  | .code, '-' :: '-' :: sql => commentsPlain .line sql
  | .code, '/' :: '*' :: sql => commentsPlain .block sql
  | .code, c :: sql => if isQuote c then commentsPlain (.quoted c) sql else commentsPlain .code sql
  | .quoted _, '-' :: '-' :: _ => false
  | .quoted _, '/' :: '*' :: _ => false
  | .quoted quote, c :: sql =>
    if c = quote then commentsPlain .code sql else commentsPlain (.quoted quote) sql
  | .line, '\n' :: sql => commentsPlain .code sql
  | .line, _ :: sql => commentsPlain .line sql
  | .block, '*' :: '/' :: sql => commentsPlain .code sql
  | .block, _ :: sql => commentsPlain .block sql
  | _, [] => true

/-- The first letters of the text are its first word. -/
def LeaderPlain (sql : Text) : Prop :=
  firstWord (sqlRead .code sql) = firstLetters ((sqlRead .code sql).map SqlChar.char)

instance (sql : Text) : Decidable (LeaderPlain sql) :=
  inferInstanceAs (Decidable (firstWord _ = firstLetters _))

/-!
# Soundness of the classifier of SQL statements

Reference: `src-tauri/src/agent/sql_classify.rs`.

`strip_comments` takes a `--` or a `/*` inside a literal for a comment. Where there is none it leaves
the characters that `sqlRead` reads (`stripComments_eq`), and what is then found read-only by its first
word is one statement that reads (`sqlSafe_of_plain`).
-/

/-! ## Comments -/

/-- The mode of `strip_comments`, which knows no literals. -/
def SqlMode.strip : SqlMode → StripMode
  | code => .code
  | quoted _ => .code
  | line => .line
  | block => .block

variable {sql : Text}

theorem stripLoop_eq {mode : SqlMode} (h : commentsPlain mode sql = true) :
    stripLoop mode.strip sql = (sqlRead mode sql).map SqlChar.char := by
  induction mode, sql using commentsPlain.induct with
  | case1 sql ih => exact ih h
  | case2 sql ih => exact ih h
  | case3 c sql hline hblock hquote ih =>
    rw [commentsPlain.eq_3 c sql hline hblock, if_pos hquote] at h
    rw [sqlRead.eq_3 c sql hline hblock, if_pos hquote, map_cons, ← ih h]
    exact stripLoop.eq_3 c sql hline hblock
  | case4 c sql hline hblock hquote ih =>
    rw [commentsPlain.eq_3 c sql hline hblock, if_neg hquote] at h
    rw [sqlRead.eq_3 c sql hline hblock, if_neg hquote, map_cons, ← ih h]
    exact stripLoop.eq_3 c sql hline hblock
  | case5 quote tail => cases h
  | case6 quote tail => cases h
  | case7 c sql hline hblock ih =>
    rw [commentsPlain.eq_6 _ c sql hline hblock, if_pos rfl] at h
    rw [sqlRead, if_pos rfl, map_cons, ← ih h]
    exact stripLoop.eq_3 c sql hline hblock
  | case8 quote c sql hline hblock hne ih =>
    rw [commentsPlain.eq_6 _ c sql hline hblock, if_neg hne] at h
    rw [sqlRead, if_neg hne, map_cons, ← ih h]
    exact stripLoop.eq_3 c sql hline hblock
  | case9 sql ih =>
    rw [sqlRead, map_cons, ← ih h]
    exact stripLoop.eq_4 sql
  | case10 c sql hne ih =>
    rw [commentsPlain.eq_8 c sql hne] at h
    rw [sqlRead.eq_6 c sql hne, ← ih h]
    exact stripLoop.eq_5 c sql hne
  | case11 sql ih =>
    rw [sqlRead, map_cons, ← ih h]
    exact stripLoop.eq_6 sql
  | case12 c sql hne ih =>
    rw [commentsPlain.eq_10 c sql hne] at h
    rw [sqlRead.eq_8 c sql hne, ← ih h]
    exact stripLoop.eq_7 c sql hne
  | case13 mode => cases mode <;> rfl

/-- Where no comment begins in a literal, only comments are stripped. -/
theorem stripComments_eq (h : commentsPlain .code sql = true) :
    stripComments sql = (sqlRead .code sql).map SqlChar.char := stripLoop_eq h

/-! ## Literals -/

/-- Literals begin and end with a quote. -/
def SqlChar.Next (a b : SqlChar) : Prop :=
  (b.quoted = true → a.quoted = true ∨ isQuote b.char = true) ∧
    (a.quoted = true → b.quoted = true ∨ isQuote a.char = true)

/-- What may stand before the characters that are read in a mode. -/
def SqlMode.Follows (a : SqlChar) : SqlMode → Prop
  | quoted quote => a.quoted = true ∧ isQuote quote = true
  | _ => a.quoted = true → isQuote a.char = true

variable {a : SqlChar}

theorem SqlChar.next_of_not_quoted (c : Char)
    (h : a.quoted = true → isQuote a.char = true) : SqlChar.Next a ⟨c, false⟩ :=
  ⟨Bool.noConfusion, fun ha => .inr (h ha)⟩

theorem isChain_sqlRead {mode : SqlMode} (h : mode.Follows a) :
    (a :: sqlRead mode sql).IsChain SqlChar.Next := by
  induction mode, sql using sqlRead.induct generalizing a with
  | case1 sql ih => exact ih h
  | case2 sql ih => exact ih h
  | case3 c sql hline hblock hquote ih =>
    rw [sqlRead.eq_3 c sql hline hblock, if_pos hquote, isChain_cons_cons]
    exact ⟨⟨fun _ => .inr hquote, fun _ => .inl rfl⟩, ih ⟨rfl, hquote⟩⟩
  | case4 c sql hline hblock hquote ih =>
    rw [sqlRead.eq_3 c sql hline hblock, if_neg hquote, isChain_cons_cons]
    exact ⟨SqlChar.next_of_not_quoted c h, ih Bool.noConfusion⟩
  | case5 quote c sql ihcode ihquoted =>
    rw [sqlRead, isChain_cons_cons]
    refine ⟨⟨fun _ => .inl h.1, fun _ => .inl rfl⟩, ?_⟩
    split
    · next hclose => exact ihcode fun _ => hclose ▸ h.2
    · exact ihquoted ⟨rfl, h.2⟩
  | case6 sql ih =>
    rw [sqlRead, isChain_cons_cons]
    exact ⟨SqlChar.next_of_not_quoted _ h, ih Bool.noConfusion⟩
  | case7 c sql hne ih =>
    rw [sqlRead.eq_6 c sql hne]
    exact ih h
  | case8 sql ih =>
    rw [sqlRead, isChain_cons_cons]
    exact ⟨SqlChar.next_of_not_quoted _ h, ih Bool.noConfusion⟩
  | case9 c sql hne ih =>
    rw [sqlRead.eq_8 c sql hne]
    exact ih h
  | case10 =>
    rw [sqlRead, isChain_cons_cons]
    exact ⟨SqlChar.next_of_not_quoted _ h, List.IsChain.singleton _⟩
  | case11 mode hne =>
    rw [sqlRead.eq_10 mode hne]
    exact List.IsChain.singleton _

/-! ## Letters and words -/

/-- Only letters have a lower case of their own. -/
theorem toLower_cases (c : Char) : c.toLower = c ∨ (c.isAlpha = true ∧ c.toLower.isAlpha = true) := by
  unfold Char.toLower
  split
  · next h =>
    have hupper : 65 ≤ c.val.toNat ∧ c.val.toNat ≤ 90 := h
    have hsum : (c.val + ('a'.val - 'A'.val)).toNat = c.val.toNat + 32 := by
      rw [UInt32.toNat_add]
      change (c.val.toNat + 32) % 4294967296 = _
      omega
    right
    unfold Char.isAlpha Char.isUpper Char.isLower
    simp only [or_eq_true, and_eq_true, decide_eq_true_eq, ge_iff_le,
      UInt32.le_iff_toNat_le]
    refine ⟨.inl hupper, .inr ?_⟩
    rw [hsum]
    change 97 ≤ _ ∧ _ ≤ 122
    omega
  · exact .inl rfl

theorem isAlpha_toLower (c : Char) : c.toLower.isAlpha = c.isAlpha := by
  rcases toLower_cases c with h | ⟨h, h'⟩
  · rw [h]
  · rw [h, h']

variable {c : Char}

theorem isWordByte_of_isAlpha (h : c.isAlpha = true) : isWordByte c = true := by
  rw [isWordByte, Char.isAlphanum, h, Bool.true_or, Bool.true_or]

theorem isWordByte_toLower (c : Char) : isWordByte c.toLower = isWordByte c := by
  rcases toLower_cases c with h | ⟨h, h'⟩
  · rw [h]
  · rw [isWordByte_of_isAlpha h, isWordByte_of_isAlpha h']

theorem wordAt_iff (needle : Text) (prev : Option Char) (haystack : Text) :
    wordAt needle prev haystack = true ↔ ∃ post, haystack = needle ++ post ∧
      prev.any isWordByte = false ∧ post.head?.any isWordByte = false := by
  rw [wordAt, and_eq_true, and_eq_true, isPrefixOf_iff_prefix, not_eq_true',
    not_eq_true']
  constructor
  · rintro ⟨⟨⟨post, rfl⟩, hprev⟩, hpost⟩
    rw [drop_left] at hpost
    exact ⟨post, rfl, hprev, hpost⟩
  · rintro ⟨post, rfl, hprev, hpost⟩
    rw [drop_left]
    exact ⟨⟨⟨post, rfl⟩, hprev⟩, hpost⟩

variable {needle : Text}

/-- The needle stands somewhere with no word character next to it. -/
theorem hasWordFrom_iff (hne : needle ≠ []) (prev : Option Char) (haystack : Text) :
    hasWordFrom needle prev haystack = true ↔ ∃ pre post, haystack = pre ++ needle ++ post ∧
      (pre.getLast?.or prev).any isWordByte = false ∧ post.head?.any isWordByte = false := by
  induction haystack generalizing prev with
  | nil =>
    constructor
    · exact Bool.noConfusion
    · rintro ⟨pre, post, hempty, -⟩
      obtain ⟨hpre, -⟩ := append_eq_nil_iff.mp hempty.symm
      exact absurd (append_eq_nil_iff.mp hpre).2 hne
  | cons c haystack ih =>
    rw [hasWordFrom, or_eq_true, wordAt_iff, ih]
    have hlast (pre : Text) : (c :: pre).getLast?.or prev = pre.getLast?.or (some c) := by
      rw [getLast?_cons]
      cases pre.getLast? <;> rfl
    constructor
    · rintro (⟨post, heq, hprev, hpost⟩ | ⟨pre, post, rfl, hprev, hpost⟩)
      · exact ⟨[], post, heq, hprev, hpost⟩
      · exact ⟨c :: pre, post, rfl, (hlast pre).symm ▸ hprev, hpost⟩
    · rintro ⟨pre, post, heq, hprev, hpost⟩
      cases pre with
      | nil => exact .inl ⟨post, heq, hprev, hpost⟩
      | cons d pre =>
        cases (List.cons.inj heq).1
        exact .inr ⟨pre, post, (List.cons.inj heq).2, hlast pre ▸ hprev, hpost⟩

theorem hasWord_iff (hne : needle ≠ []) (haystack : Text) :
    hasWord haystack needle = true ↔ ∃ pre post, haystack = pre ++ needle ++ post ∧
      pre.getLast?.any isWordByte = false ∧ post.head?.any isWordByte = false := by
  rw [hasWord, hasWordFrom_iff hne]
  simp only [Option.or_none]

private theorem hasWord_of_cons {text : Text} (hne : needle ≠ [])
    (hneedle : ∀ c ∈ needle, isWordByte c = true) (hc : isWordByte c = false)
    (h : hasWord (c :: text) needle = true) : hasWord text needle = true := by
  rw [hasWord_iff hne] at h ⊢
  obtain ⟨pre, post, heq, hprev, hpost⟩ := h
  cases pre with
  | nil =>
    cases needle with
    | nil => exact absurd rfl hne
    | cons d needle =>
      cases (List.cons.inj heq).1
      exact absurd (hc.symm.trans (hneedle c mem_cons_self)) Bool.false_ne_true
  | cons d pre =>
    refine ⟨pre, post, (List.cons.inj heq).2, ?_, hpost⟩
    cases hlast : pre.getLast? with
    | none => rfl
    | some e =>
      rw [getLast?_cons, hlast] at hprev
      exact hprev

private theorem hasWord_of_concat {text : Text} (hne : needle ≠ [])
    (hneedle : ∀ c ∈ needle, isWordByte c = true) (hc : isWordByte c = false)
    (h : hasWord (text ++ [c]) needle = true) : hasWord text needle = true := by
  rw [hasWord_iff hne] at h ⊢
  obtain ⟨pre, post, heq, hprev, hpost⟩ := h
  rcases eq_nil_or_concat' post with rfl | ⟨post, d, rfl⟩
  · rcases eq_nil_or_concat' needle with rfl | ⟨needle, d, rfl⟩
    · exact absurd rfl hne
    · rw [append_nil, ← append_assoc] at heq
      cases (append_inj' heq rfl).2
      exact absurd (hc.symm.trans (hneedle c (mem_append_right _ (mem_singleton.mpr rfl))))
        Bool.false_ne_true
  · rw [← append_assoc] at heq
    refine ⟨pre, post, (append_inj' heq rfl).1, hprev, ?_⟩
    cases post with
    | nil => rfl
    | cons e post => exact hpost

/-- Nothing that is no word character makes a word. -/
theorem hasWord_of_append {before text after : Text} (hne : needle ≠ [])
    (hneedle : ∀ c ∈ needle, isWordByte c = true) (hbefore : ∀ c ∈ before, isWordByte c = false)
    (hafter : ∀ c ∈ after, isWordByte c = false)
    (h : hasWord (before ++ text ++ after) needle = true) : hasWord text needle = true := by
  induction before with
  | nil =>
    rw [nil_append] at h
    induction after using List.reverseRecOn with
    | nil => rwa [append_nil] at h
    | append_singleton after c ih =>
      rw [← append_assoc] at h
      refine ih (fun d hd => hafter d (mem_append_left _ hd)) (hasWord_of_concat hne hneedle ?_ h)
      exact hafter c (mem_append_right _ (mem_singleton.mpr rfl))
  | cons c before ih =>
    obtain ⟨hc, hbefore⟩ := forall_mem_cons.mp hbefore
    exact ih hbefore (hasWord_of_cons hne hneedle hc h)

theorem isWordByte_of_isQuote (h : isQuote c = true) : isWordByte c.toLower = false := by
  rw [isQuote, or_eq_true, or_eq_true, beq_iff_eq, beq_iff_eq, beq_iff_eq] at h
  rcases h with (rfl | rfl) | rfl <;> decide

/-- In lower case, with the text of literals. -/
def SqlChar.lower (u : SqlChar) : Char := u.char.toLower

variable {units : List SqlChar}

/-- A word outside literals is a word of the whole text: literals are set off by quotes. -/
theorem hasWord_of_masked (hne : needle ≠ []) (hneedle : ∀ c ∈ needle, isWordByte c = true)
    (hchain : units.IsChain SqlChar.Next) (h : hasWord (units.map SqlChar.masked) needle = true) :
    hasWord (units.map SqlChar.lower) needle = true := by
  rw [hasWord_iff hne] at h ⊢
  obtain ⟨pre, post, heq, hprev, hpost⟩ := h
  obtain ⟨before, after, rfl, hbefore, rfl⟩ := List.map_eq_append_iff.mp heq
  obtain ⟨first, middle, rfl, rfl, hmiddle⟩ := List.map_eq_append_iff.mp hbefore
  -- the word itself is outside literals
  have hquote : isWordByte '\'' = false := by decide
  have hplain : ∀ u ∈ middle, u.quoted = false := by
    intro u hu
    have hword := hneedle u.masked (hmiddle ▸ mem_map_of_mem hu)
    rw [← not_eq_true]
    intro hquoted
    rw [SqlChar.masked, hquoted, if_pos rfl, hquote] at hword
    cases hword
  have hlower (u : SqlChar) (hu : u.quoted = false) : u.masked = u.lower := by
    rw [SqlChar.masked, hu, if_neg Bool.false_ne_true, SqlChar.lower]
  have hmiddle' : middle.map SqlChar.lower = needle := by
    rw [← hmiddle]
    exact (map_congr_left fun u hu => hlower u (hplain u hu)).symm
  have hmiddle_ne : middle ≠ [] := by
    rintro rfl
    exact hne hmiddle'.symm
  obtain ⟨hleft, -, hright⟩ := List.isChain_append.mp hchain
  obtain ⟨-, -, hinner⟩ := List.isChain_append.mp hleft
  refine ⟨first.map SqlChar.lower, after.map SqlChar.lower, ?_, ?_, ?_⟩
  · rw [map_append, map_append, hmiddle']
  · rw [getLast?_map] at hprev ⊢
    cases hlast : first.getLast? with
    | none => rfl
    | some p =>
      rw [hlast] at hprev
      cases hquoted : p.quoted with
      | false =>
        rw [Option.map_some, hlower p hquoted] at hprev
        exact hprev
      | true =>
        cases hhead : middle.head? with
        | none => exact absurd (head?_eq_none_iff.mp hhead) hmiddle_ne
        | some m =>
          have hm := hplain m (mem_of_head? hhead)
          rcases (hinner p hlast m hhead).2 hquoted with hm' | hp
          · rw [hm] at hm'
            cases hm'
          · exact isWordByte_of_isQuote hp
  · rw [head?_map] at hpost ⊢
    cases hhead : after.head? with
    | none => rfl
    | some q =>
      rw [hhead] at hpost
      cases hquoted : q.quoted with
      | false =>
        rw [Option.map_some, hlower q hquoted] at hpost
        exact hpost
      | true =>
        cases hlast : middle.getLast? with
        | none => exact absurd (List.getLast?_eq_none_iff.mp hlast) hmiddle_ne
        | some m =>
          have hm := hplain m (mem_of_getLast? hlast)
          have hlast' : (first ++ middle).getLast? = some m := by
            rw [getLast?_append, hlast]
            rfl
          rcases (hright m hlast' q hhead).1 hquoted with hm' | hq
          · rw [hm] at hm'
            cases hm'
          · exact isWordByte_of_isQuote hq

/-! ## The first word -/

/-- What has no letters around it does not change the first run of them. -/
theorem firstRun_append {α : Type} {p : α → Bool} {before run after : List α}
    (hbefore : ∀ a ∈ before, p a = false) (hafter : ∀ a ∈ after, p a = false) :
    ((before ++ run ++ after).dropWhile (!p ·)).takeWhile p = (run.dropWhile (!p ·)).takeWhile p := by
  rw [append_assoc, dropWhile_append_of_pos fun a ha => by rw [hbefore a ha]; rfl]
  -- nothing is taken of what comes after
  have htake (rest : List α) : (rest ++ after).takeWhile p = rest.takeWhile p := by
    induction rest with
    | nil =>
      cases after with
      | nil => rfl
      | cons a after =>
        exact takeWhile_cons_of_neg (not_eq_true _ ▸ hafter a mem_cons_self)
    | cons a rest ih => rw [cons_append, takeWhile_cons, takeWhile_cons, ih]
  induction run with
  | nil =>
    have hnone : after.dropWhile (!p ·) = [] :=
      List.dropWhile_eq_nil_iff.mpr fun a ha => by rw [hafter a ha]; rfl
    rw [nil_append, hnone]
    rfl
  | cons a run ih =>
    rw [cons_append, dropWhile_cons, dropWhile_cons]
    split
    · exact ih
    · rw [← cons_append, htake]

theorem firstLetters_map_toLower (s : Text) :
    firstLetters (s.map Char.toLower) = (firstLetters s).map Char.toLower := by
  have halpha : Char.isAlpha ∘ Char.toLower = Char.isAlpha := funext isAlpha_toLower
  have hnot : (fun c : Char => !c.isAlpha) ∘ Char.toLower = fun c => !c.isAlpha :=
    funext fun c => congrArg Bool.not (isAlpha_toLower c)
  rw [firstLetters, dropWhile_map, takeWhile_map, halpha, hnot, firstLetters]

/-! ## Statements -/

/-- What is trimmed from the statement. -/
theorem exists_body (s : Text) : ∃ before after,
    s = before ++ ((trim s).rdropWhile (· == ';')).rdropWhile isWhitespace ++ after ∧
      (∀ c ∈ before, isWhitespace c = true) ∧ ∀ c ∈ after, isWhitespace c = true ∨ c = ';' := by
  let closed := (trim s).rdropWhile (· == ';')
  refine ⟨leading s, closed.rtakeWhile isWhitespace ++ (trim s).rtakeWhile (· == ';') ++ trailing s,
    ?_, fun c hc => mem_takeWhile_imp hc, fun c hc => ?_⟩
  · rw [← append_assoc, ← append_assoc, append_assoc (leading s),
      rdropWhile_append_rtakeWhile, append_assoc (leading s),
      rdropWhile_append_rtakeWhile]
    exact eq_trim s
  · rcases mem_append.mp hc with hc | hc
    · rcases mem_append.mp hc with hc | hc
      · exact .inl (mem_rtakeWhile_imp hc)
      · exact .inr (beq_iff_eq.mp (mem_rtakeWhile_imp (p := (· == ';')) hc))
    · exact .inl (mem_rtakeWhile_imp hc)

theorem toNat_of_isWordByte (h : isWordByte c = true) : 48 ≤ c.toNat ∧ c.toNat ≤ 122 ∧ c.toNat ≠ 59 := by
  unfold isWordByte Char.isAlphanum Char.isAlpha Char.isUpper Char.isLower Char.isDigit at h
  simp only [or_eq_true, and_eq_true, decide_eq_true_eq, ge_iff_le,
    UInt32.le_iff_toNat_le, beq_iff_eq] at h
  rcases h with ((⟨h, h'⟩ | ⟨h, h'⟩) | ⟨h, h'⟩) | rfl
  · change 65 ≤ c.toNat at h
    change c.toNat ≤ 90 at h'
    omega
  · change 97 ≤ c.toNat at h
    change c.toNat ≤ 122 at h'
    omega
  · change 48 ≤ c.toNat at h
    change c.toNat ≤ 57 at h'
    omega
  · decide

/-- A character that is trimmed belongs to no word. -/
theorem isWordByte_of_trimmed (h : isWhitespace c = true ∨ c = ';') : isWordByte c = false := by
  rw [← not_eq_true]
  intro hword
  obtain ⟨hlow, hhigh, hsemi⟩ := toNat_of_isWordByte hword
  rcases h with h | rfl
  · simp only [isWhitespace, or_eq_true, and_eq_true, decide_eq_true_eq, beq_iff_eq] at h
    omega
  · exact hsemi rfl

theorem isQuote_of_trimmed (h : isWhitespace c = true ∨ c = ';') : isQuote c = false := by
  rw [← not_eq_true]
  intro hquote
  rw [isQuote, or_eq_true, or_eq_true, beq_iff_eq, beq_iff_eq, beq_iff_eq] at hquote
  rcases hquote with (rfl | rfl) | rfl <;> revert h <;> decide

/-- Without quotes, what follows a character outside literals is outside them. -/
theorem unquoted_of_isChain (hchain : (a :: units).IsChain SqlChar.Next) (ha : a.quoted = false)
    (hunits : ∀ u ∈ units, isQuote u.char = false) : ∀ u ∈ units, u.quoted = false := by
  induction units generalizing a with
  | nil => exact fun u hu => absurd hu not_mem_nil
  | cons b units ih =>
    obtain ⟨hnext, hchain⟩ := isChain_cons_cons.mp hchain
    obtain ⟨hb, hunits⟩ := forall_mem_cons.mp hunits
    have hplain : b.quoted = false := by
      rw [← not_eq_true]
      intro hquoted
      rcases hnext.1 hquoted with h | h
      · rw [ha] at h
        cases h
      · rw [hb] at h
        cases h
    exact forall_mem_cons.mpr ⟨hplain, ih hchain hplain hunits⟩

/-- Outside literals, what is trimmed holds no statement. -/
theorem splitOnP_blank (hplain : ∀ u ∈ units, u.quoted = false)
    (htrimmed : ∀ u ∈ units, isWhitespace u.char = true ∨ u.char = ';') :
    (units.splitOnP SqlChar.isSeparator).filter (fun stmt => !stmt.all SqlChar.isBlank) = [] := by
  rw [filter_eq_nil_iff]
  intro stmt hstmt
  have hblank : stmt.all SqlChar.isBlank = true := by
    rw [all_eq_true]
    intro u hu
    obtain ⟨hmem, hsep⟩ := mem_of_mem_splitOnP hstmt u hu
    rw [SqlChar.isSeparator, hplain u hmem, Bool.not_false, Bool.true_and] at hsep
    rw [SqlChar.isBlank, hplain u hmem, Bool.not_false, Bool.true_and]
    rcases htrimmed u hmem with h | h
    · exact h
    · rw [h] at hsep
      cases hsep
  rw [hblank]
  exact Bool.false_ne_true

/-- Text without a separator that is not blank is the one statement, whatever is trimmed after it. -/
theorem exists_statement {text after : List SqlChar} (hchain : (text ++ after).IsChain SqlChar.Next)
    (htext : ∀ u ∈ text, u.isSeparator = false) (hsome : ∃ u ∈ text, u.isBlank = false)
    (hafter : ∀ u ∈ after, isWhitespace u.char = true ∨ u.char = ';') :
    ∃ stmt rest, text ++ after = stmt ++ rest ∧ (∃ more, stmt = text ++ more ∧ more ⊆ after) ∧
      rest ⊆ after ∧
      ((text ++ after).splitOnP SqlChar.isSeparator).filter (fun stmt => !stmt.all SqlChar.isBlank) =
        [stmt] := by
  -- the separators begin here
  let more := after.takeWhile (!·.isSeparator)
  have hmore : ∀ u ∈ text ++ more, u.isSeparator = false := by
    intro u hu
    rcases mem_append.mp hu with hu | hu
    · exact htext u hu
    · exact (not_eq_true' _).mp (mem_takeWhile_imp (p := fun u : SqlChar => !u.isSeparator) hu)
  have hnotBlank : (text ++ more).all SqlChar.isBlank = false := by
    obtain ⟨u, hu, hblank⟩ := hsome
    exact List.all_eq_false.mpr ⟨u, mem_append_left _ hu, not_eq_true _ ▸ hblank⟩
  have hsub : more ⊆ after := (List.takeWhile_prefix _).subset
  have hafter_eq : after = more ++ after.dropWhile (!·.isSeparator) :=
    takeWhile_append_dropWhile.symm
  cases hdrop : after.dropWhile (!·.isSeparator) with
  | nil =>
    rw [hdrop, append_nil] at hafter_eq
    refine ⟨text ++ more, [], ?_, ⟨more, rfl, hsub⟩, nil_subset _, ?_⟩
    · rw [append_nil, ← hafter_eq]
    · rw [hafter_eq, splitOnP_eq_singleton hmore, filter_singleton, hnotBlank]
      rfl
  | cons sep rest =>
    rw [hdrop] at hafter_eq
    have hsep : sep.isSeparator = true := by
      have h := head?_dropWhile_not (fun u : SqlChar => !u.isSeparator) after
      rw [hdrop] at h
      exact (Bool.not_eq_false' _).mp h
    have hplain : sep.quoted = false := by
      rw [SqlChar.isSeparator, and_eq_true, not_eq_true'] at hsep
      exact hsep.1
    have hrest : rest ⊆ after := fun u hu =>
      hafter_eq ▸ mem_append_right _ (mem_cons_of_mem _ hu)
    refine ⟨text ++ more, sep :: rest, ?_, ⟨more, rfl, hsub⟩, ?_, ?_⟩
    · rw [append_assoc, ← hafter_eq]
    · intro u hu
      rw [hafter_eq]
      exact mem_append_right _ hu
    · rw [hafter_eq, ← append_assoc] at hchain ⊢
      have hchain := (List.isChain_append.mp hchain).2.1
      have hquotes : ∀ u ∈ rest, isQuote u.char = false := fun u hu =>
        isQuote_of_trimmed (hafter u (hrest hu))
      rw [splitOnP_append_cons_of_forall_mem hmore sep hsep, filter_cons, hnotBlank,
        splitOnP_blank (unquoted_of_isChain hchain hplain hquotes) fun u hu => hafter u (hrest hu)]
      rfl

/-! ## Texts found read-only -/

/-- The statement that is classified, in its own case. -/
def statementBody (sql : Text) : Text :=
  ((trim (stripComments sql)).rdropWhile (· == ';')).rdropWhile isWhitespace

/-- What the classifier has checked of a text that it finds read-only. -/
structure Checked (body : Text) : Prop where
  single : ';' ∉ body
  leader : listed readLeaders (firstLetters (body.map Char.toLower)) = true
  select : firstLetters (body.map Char.toLower) = "select".toList →
    hasWord (body.map Char.toLower) "into".toList = false
  wrapper : firstLetters (body.map Char.toLower) = "with".toList ∨
      firstLetters (body.map Char.toLower) = "explain".toList →
    ∀ w ∈ mutatingWords, hasWord (body.map Char.toLower) w.toList = false

/-- A check that the text must not pass. -/
private theorem check_failed {check : Bool} {cls : SqlClass}
    (h : (if check then .mutating else cls) = .readOnly) : check = false ∧ cls = .readOnly := by
  cases check with
  | true => cases h
  | false => exact ⟨rfl, h⟩

theorem checked_of_readOnly (h : classifySql sql = .readOnly) : Checked (statementBody sql) := by
  simp only [classifySql, ← statementBody.eq_1] at h
  obtain ⟨-, h⟩ := check_failed h
  obtain ⟨hsemi, h⟩ := check_failed h
  obtain ⟨hleader, h⟩ := check_failed h
  refine ⟨?_, (Bool.not_eq_false' _).mp hleader, ?_, ?_⟩
  · intro hmem
    exact Bool.false_ne_true (hsemi.symm.trans (contains_iff_mem.mpr hmem))
  · intro hselect
    rw [if_pos hselect] at h
    exact (check_failed h).1
  · rintro (hwith | hexplain) w hw
    · rw [if_neg (by rw [hwith]; decide), if_pos hwith] at h
      have hany := (check_failed h).1
      rw [any_eq_false] at hany
      exact not_eq_true _ ▸ hany w hw
    · rw [if_neg (by rw [hexplain]; decide), if_neg (by rw [hexplain]; decide), if_pos hexplain] at h
      have hany := (Bool.or_eq_false_iff.mp (check_failed h).1).2
      rw [any_eq_false] at hany
      exact not_eq_true _ ▸ hany w hw

/-- A leader has letters. -/
theorem exists_letter {body : Text}
    (h : listed readLeaders (firstLetters (body.map Char.toLower)) = true) :
    ∃ c ∈ body, c.isAlpha = true := by
  have hne : firstLetters (body.map Char.toLower) ≠ [] := by
    intro hempty
    rw [hempty] at h
    revert h
    decide
  obtain ⟨c, hc⟩ := exists_mem_of_ne_nil _ hne
  rw [firstLetters_map_toLower] at hc
  obtain ⟨d, hd, -⟩ := mem_map.mp hc
  exact ⟨d, (dropWhile_sublist _).subset ((List.takeWhile_prefix _).subset hd),
    mem_takeWhile_imp hd⟩

theorem words_plain : ∀ w ∈ "into" :: mutatingWords,
    w.toList ≠ [] ∧ ∀ c ∈ w.toList, isWordByte c = true := by
  have hall : ("into" :: mutatingWords).all (fun w => w.toList ≠ [] && w.toList.all isWordByte) := by
    decide
  intro w hw
  have h := all_eq_true.mp hall w hw
  rw [and_eq_true, decide_eq_true_iff, all_eq_true] at h
  exact h

variable {u : SqlChar}

theorem isSeparator_of_ne (h : u.char ≠ ';') : u.isSeparator = false := by
  rw [SqlChar.isSeparator, beq_eq_false_iff_ne.mpr h, Bool.and_false]

theorem isWord_of_trimmed (h : isWhitespace u.char = true ∨ u.char = ';') : u.isWord = false := by
  rw [SqlChar.isWord, isWordByte_of_trimmed h, Bool.and_false]

theorem isBlank_of_isAlpha (h : u.char.isAlpha = true) : u.isBlank = false := by
  rw [SqlChar.isBlank, Bool.and_eq_false_iff]
  refine .inr (Bool.eq_false_iff.mpr fun hblank => ?_)
  have hword := isWordByte_of_isAlpha h
  rw [isWordByte_of_trimmed (.inl hblank)] at hword
  cases hword

/-- Letters that are trimmed away are none. -/
theorem firstLetters_append {before body after : Text} (hbefore : ∀ c ∈ before, isWhitespace c = true)
    (hafter : ∀ c ∈ after, isWhitespace c = true ∨ c = ';') :
    firstLetters (before ++ body ++ after) = firstLetters body := by
  have hletter {c : Char} (h : isWhitespace c = true ∨ c = ';') : c.isAlpha = false := by
    rw [← not_eq_true]
    intro halpha
    have hword := isWordByte_of_isAlpha halpha
    rw [isWordByte_of_trimmed h] at hword
    cases hword
  exact firstRun_append (fun c hc => hletter (.inl (hbefore c hc))) fun c hc => hletter (hafter c hc)

/-- The first word of a statement does not depend on what is trimmed after it. -/
theorem firstWord_append {stmt rest : List SqlChar}
    (hrest : ∀ u ∈ rest, isWhitespace u.char = true ∨ u.char = ';') :
    firstWord (stmt ++ rest) = firstWord stmt := by
  have hnone : ∀ u ∈ ([] : List SqlChar), u.isWord = false := fun u hu => absurd hu not_mem_nil
  have h := @firstRun_append _ _ _ stmt _ hnone fun u hu => isWord_of_trimmed (hrest u hu)
  rw [nil_append] at h
  rw [firstWord, h, firstWord]

/-- A word that the classifier has not found is not outside literals either. -/
theorem hasWord_masked_eq_false {body : Text} {first inner more : List SqlChar}
    (hne : needle ≠ []) (hneedle : ∀ c ∈ needle, isWordByte c = true)
    (hchain : (first ++ inner ++ more).IsChain SqlChar.Next) (hinner : inner.map SqlChar.char = body)
    (hfirst : ∀ u ∈ first, isWhitespace u.char = true)
    (hmore : ∀ u ∈ more, isWhitespace u.char = true ∨ u.char = ';')
    (h : hasWord (body.map Char.toLower) needle = false) :
    hasWord ((first ++ inner ++ more).map SqlChar.masked) needle = false := by
  rw [← not_eq_true] at h ⊢
  intro hmasked
  apply h
  have hlower := hasWord_of_masked hne hneedle hchain hmasked
  rw [map_append, map_append] at hlower
  have htrimmed {u : SqlChar} (hu : isWhitespace u.char = true ∨ u.char = ';') :
      isWordByte u.lower = false := (isWordByte_toLower _).trans (isWordByte_of_trimmed hu)
  have hbody : inner.map SqlChar.lower = body.map Char.toLower := by
    rw [← hinner, map_map]
    rfl
  rw [← hbody]
  refine hasWord_of_append hne hneedle ?_ ?_ hlower
  · exact forall_mem_map.mpr fun u hu => htrimmed (.inl (hfirst u hu))
  · exact forall_mem_map.mpr fun u hu => htrimmed (hmore u hu)

/-- Where comments are plain and the first letters are the first word, what is found read-only is one
statement that reads. -/
theorem sqlSafe_of_plain {sql : Text} (h : classifySql sql = .readOnly)
    (hcomments : commentsPlain .code sql = true) (hleader : LeaderPlain sql) : SqlSafe sql := by
  obtain ⟨hsingle, hlisted, hselect, hwrapper⟩ := checked_of_readOnly h
  obtain ⟨before, after, hstrip, hbefore, hafter⟩ := exists_body (stripComments sql)
  change stripComments sql = before ++ statementBody sql ++ after at hstrip
  rw [stripComments_eq hcomments] at hstrip
  -- the characters of the text, with their literals
  have hfollows : SqlMode.code.Follows ⟨' ', false⟩ := Bool.noConfusion
  have hchain : (sqlRead .code sql).IsChain SqlChar.Next := (isChain_sqlRead hfollows).tail
  rw [LeaderPlain, hstrip, firstLetters_append hbefore hafter] at hleader
  obtain ⟨text, rest, hunits, htext, rfl⟩ := List.map_eq_append_iff.mp hstrip
  obtain ⟨first, inner, rfl, rfl, hinner⟩ := List.map_eq_append_iff.mp htext
  rw [forall_mem_map] at hbefore hafter
  rw [hunits] at hchain hleader
  -- the one statement
  obtain ⟨c, hc, hletter⟩ := exists_letter hlisted
  have hplain : ∀ u ∈ first ++ inner, u.isSeparator = false := by
    intro u hu
    refine isSeparator_of_ne fun hsemi => ?_
    rcases mem_append.mp hu with hu | hu
    · have hblank := hbefore u hu
      rw [hsemi] at hblank
      revert hblank
      decide
    · exact hsingle (hinner ▸ hsemi ▸ mem_map_of_mem hu)
  have hsome : ∃ u ∈ first ++ inner, u.isBlank = false := by
    rw [← hinner] at hc
    obtain ⟨u, hu, rfl⟩ := mem_map.mp hc
    exact ⟨u, mem_append_right _ hu, isBlank_of_isAlpha hletter⟩
  obtain ⟨stmt, tail, hstmt, ⟨more, rfl, hmore⟩, htail, hsplit⟩ :=
    exists_statement hchain hplain hsome hafter
  refine ⟨first ++ inner ++ more, by rw [sqlStatements, hunits, hsplit], ?_⟩
  rw [hstmt, firstWord_append fun u hu => hafter u (htail hu)] at hleader
  rw [hstmt] at hchain
  have hword : (firstWord (first ++ inner ++ more)).map Char.toLower =
      firstLetters ((statementBody sql).map Char.toLower) := by
    rw [hleader, firstLetters_map_toLower]
  have hmissing (w : String) (hw : w ∈ "into" :: mutatingWords)
      (h : hasWord ((statementBody sql).map Char.toLower) w.toList = false) :
      hasWord ((first ++ inner ++ more).map SqlChar.masked) w.toList = false :=
    hasWord_masked_eq_false (words_plain w hw).1 (words_plain w hw).2
      (List.isChain_append.mp hchain).1 hinner hbefore (fun u hu => hafter u (hmore hu)) h
  refine ⟨hword ▸ hlisted, fun hread => ?_, fun hread w hw => ?_⟩
  · exact hmissing "into" mem_cons_self (hselect (hword ▸ hread))
  · exact hmissing w (mem_cons_of_mem _ hw) (hwrapper (hword ▸ hread) w hw)

theorem sqlSafe_of_plain_quoted : SqlSafe "select 'it''s' -- a 'note'\nfrom t;".toList :=
  sqlSafe_of_plain (by decide) (by decide) (by decide)

/-- A comment that is none hides the second statement, or the word that follows; the first letters may
stand in a literal or in a longer word. -/
theorem not_sqlSafe_of_hidden :
    (classifySql "SELECT '--'; DROP TABLE t".toList = .readOnly ∧
      ¬ SqlSafe "SELECT '--'; DROP TABLE t".toList) ∧
    (classifySql "SELECT '/*' INTO t".toList = .readOnly ∧ ¬ SqlSafe "SELECT '/*' INTO t".toList) ∧
    (classifySql "'select' DROP TABLE t".toList = .readOnly ∧ ¬ SqlSafe "'select' DROP TABLE t".toList) ∧
    (classifySql "show_2 t".toList = .readOnly ∧ ¬ SqlSafe "show_2 t".toList) := by
  decide

end Taomni.Agent
