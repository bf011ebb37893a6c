import Taomni.Common.Words
import Taomni.Database.GridChanges
import Taomni.Git.Queries

/-!
# Manual commit

What a session knows of its open transaction. The effect of a statement is taken from its first words.

Reference: `src-tauri/src/database/tx.rs`, and `tx_before_statement` and `tx_after_statement` of
`src-tauri/src/database/session.rs`.
-/

namespace Taomni.Database.Tx

open List
open Agent (Text isWhitespace)
open Git (splitOnce)
open Words (words)

/-! ## Effects -/

/-- `TxEffect`: `Begin` and `End` are `begins` and `ends`. -/
inductive TxEffect where
  | read
  | write
  | implicitCommit
  | begins
  | ends
deriving DecidableEq

/-- The text after a word, or nothing. -/
def afterWord (word text : Text) : Text := ((splitOnce word text).map Prod.snd).getD []

theorem length_of_splitOnce {word text a b : Text} (h : splitOnce word text = some (a, b)) :
    b.length + word.length ≤ text.length := by
  induction text generalizing a with
  | nil =>
    rw [splitOnce] at h
    split at h
    · rename_i hempty
      cases h
      rw [List.isEmpty_iff.1 hempty]
      exact Nat.le_refl _
    · exact nomatch h
  | cons c text ih =>
    rw [splitOnce] at h
    split at h
    · rename_i hfront
      cases h
      have hle := (List.isPrefixOf_iff_prefix.1 hfront).length_le
      rw [length_drop]
      omega
    · obtain ⟨⟨front, back⟩, hrest, heq⟩ := Option.map_eq_some_iff.1 h
      cases heq
      exact (ih hrest).trans (Nat.le_succ _)

theorem length_afterWord_le (word text : Text) : (afterWord word text).length ≤ text.length - word.length := by
  rw [afterWord]
  cases hsplit : splitOnce word text with
  | none => exact Nat.zero_le _
  | some pair =>
    obtain ⟨a, b⟩ := pair
    have hlength : b.length + word.length ≤ text.length := length_of_splitOnce hsplit
    rw [Option.map_some, Option.getD_some]
    exact Nat.le_sub_of_add_le hlength

/-- The text after the comment that a text begins with. -/
def afterComment (rest : Text) (mysql : Bool) : Option Text :=
  if "--".toList.isPrefixOf rest then some (afterWord ['\n'] (rest.drop 2))
  else if mysql && "#".toList.isPrefixOf rest then some (afterWord ['\n'] rest)
  else if "/*".toList.isPrefixOf rest then some (afterWord "*/".toList (rest.drop 2))
  else none

theorem length_afterComment_lt {rest more : Text} {mysql : Bool} (h : afterComment rest mysql = some more) :
    more.length < rest.length := by
  have hpos : ∀ {mark : Text}, mark ≠ [] → mark.isPrefixOf rest = true → 0 < rest.length := by
    intro mark hne hmark
    exact (length_pos_of_ne_nil hne).trans_le (List.isPrefixOf_iff_prefix.1 hmark).length_le
  rw [afterComment] at h
  split at h
  · rename_i hmark
    cases h
    have hrest := hpos (by decide) hmark
    have hafter := length_afterWord_le ['\n'] (rest.drop 2)
    rw [length_drop] at hafter
    omega
  split at h
  · rename_i hmark
    cases h
    have hrest := hpos (by decide) (Bool.and_eq_true _ _ ▸ hmark).2
    have hafter := length_afterWord_le ['\n'] rest
    rw [length_singleton] at hafter
    omega
  split at h
  · rename_i hmark
    cases h
    have hrest := hpos (by decide) hmark
    have hafter := length_afterWord_le "*/".toList (rest.drop 2)
    rw [length_drop] at hafter
    omega
  · exact nomatch h

/-- `skip_leading_comments`. -/
def skipLeadingComments (sql : Text) (mysql : Bool) : Text :=
  match _ : afterComment (sql.dropWhile isWhitespace) mysql with
  | some rest => skipLeadingComments rest mysql
  | none => sql.dropWhile isWhitespace
termination_by sql.length
decreasing_by
  rename_i hcomment
  exact (length_afterComment_lt hcomment).trans_le (dropWhile_suffix _).length_le

def isSqlWordChar (c : Char) : Bool := c.isAlphanum || c = '_'

/-- `words` of the text after the leading comments. -/
def tokens (sql : Text) (mysql : Bool) : List Text :=
  (words isSqlWordChar (skipLeadingComments sql mysql)).map (·.map Char.toUpper)

/-- A word is one of some keywords. -/
def isOneOf (keywords : List String) (word : Text) : Bool := keywords.any (·.toList = word)

def readKeywords : List String :=
  ["SELECT", "SHOW", "EXPLAIN", "DESC", "DESCRIBE", "USE", "SET", "VALUES", "TABLE", "SAVEPOINT", "RELEASE", "HELP"]

def writeKeywords : List String := ["INSERT", "UPDATE", "DELETE", "MERGE"]

def ddlKeywords : List String := ["CREATE", "ALTER", "DROP", "TRUNCATE", "RENAME", "GRANT", "REVOKE"]

/-- `classify`. -/
def classify (sql : Text) (mysql : Bool) : TxEffect :=
  match tokens sql mysql with
  | [] => .read
  | first :: rest =>
    if isOneOf ["COMMIT", "END", "ABORT"] first then .ends
    else if isOneOf ["ROLLBACK"] first then
      if rest.head?.any (isOneOf ["TO"]) then .read
      else if rest.head?.any (isOneOf ["WORK", "TRANSACTION"]) && rest.tail.head?.any (isOneOf ["TO"]) then .read
      else .ends
    else if isOneOf ["BEGIN"] first then .begins
    else if isOneOf ["START"] first && rest.head?.any (isOneOf ["TRANSACTION"]) then .begins
    else if isOneOf readKeywords first then .read
    else if isOneOf ["WITH"] first then
      if (first :: rest).any (isOneOf writeKeywords) then .write else .read
    else if isOneOf ddlKeywords first && mysql then .implicitCommit
    else .write

/-! ## The state -/

/-- `TxState`, with `open` as `isOpen`. -/
structure TxState where
  manual : Bool := false
  pending : UInt32 := 0
  isOpen : Bool := false
  generation : UInt64 := 0
deriving DecidableEq

namespace TxState

variable (tx : TxState)

def markOpen : TxState := { tx with isOpen := true }

def reset : TxState := { tx with pending := 0, isOpen := false }

def onNewConnection : TxState := reset { tx with generation := tx.generation + 1 }

def setManual (manual : Bool) : TxState := reset { tx with manual := manual }

def noteExecuted (effect : TxEffect) : TxState :=
  if tx.manual then
    match effect with
    | .read => tx
    | .write => markOpen { tx with pending := tx.pending + 1 }
    | .begins => tx.markOpen
    | .ends => tx.reset
    | .implicitCommit => tx.reset
  else tx

end TxState

structure DbTxStatus where
  supported : Bool
  manual : Bool
  pending : UInt32
  generation : UInt64
deriving DecidableEq

def TxState.status (tx : TxState) (supported : Bool) : DbTxStatus :=
  ⟨supported, supported && tx.manual, if supported then tx.pending else 0, tx.generation⟩

/-- `tx_before_statement`: PostgreSQL gets a `BEGIN` before the first write. -/
def txBeforeStatement (mysql : Bool) (tx : TxState) (sql : Text) : TxState :=
  if !tx.manual || tx.isOpen then tx
  else if !mysql && classify sql false = .write then tx.markOpen
  else tx

/-- A statement that is executed with success, with `tx_before_statement` and `tx_after_statement`. -/
def execute (mysql : Bool) (tx : TxState) (sql : Text) : TxState :=
  (txBeforeStatement mysql tx sql).noteExecuted (classify sql mysql)

/-! ## What the server does -/

/-- The words that end a transaction. -/
def saysEnd : List Text → Bool
  | [] => false
  | first :: rest =>
    isOneOf ["COMMIT", "END", "ABORT"] first ||
      isOneOf ["ROLLBACK"] first &&
        !(rest.head?.any (isOneOf ["TO"]) ||
          rest.head?.any (isOneOf ["WORK", "TRANSACTION"]) && rest.tail.head?.any (isOneOf ["TO"]))

/-- The words that begin a transaction. -/
def saysBegin : List Text → Bool
  | [] => false
  | first :: rest => isOneOf ["BEGIN"] first || isOneOf ["START"] first && rest.head?.any (isOneOf ["TRANSACTION"])

/-- What a server makes of the statements that it executes: the words of their code in upper case, whether they change
data, and whether they are definitions, which MySQL commits implicitly. -/
structure Server where
  words : Text → List Text
  changes : Text → Bool
  isDdl : Text → Bool

/-- The statement ends the transaction before it. -/
def Server.ends (server : Server) (mysql : Bool) (sql : Text) : Bool :=
  saysEnd (server.words sql) || mysql && (saysBegin (server.words sql) || server.isDdl sql)

/-- How many of the executed statements changed data since a transaction ended last. -/
def Server.changesSinceEnd (server : Server) (mysql : Bool) (executed : List Text) : ℕ :=
  ((executed.reverse.takeWhile fun sql => !server.ends mysql sql).filter server.changes).length

/-! ## What the first words say -/

/-- The words that MySQL takes for a definition. -/
def saysDdl (tokens : List Text) : Bool := tokens.head?.any (isOneOf ddlKeywords)

/-- The words that change data in the open transaction: none of control, of reading or of a MySQL definition comes
first, and after `WITH` there is a word of change. -/
def saysChange (mysql : Bool) : List Text → Bool
  | [] => false
  | first :: rest =>
    !(isOneOf ["COMMIT", "END", "ABORT"] first || isOneOf ["ROLLBACK"] first || saysBegin (first :: rest) ||
      isOneOf readKeywords first || mysql && saysDdl (first :: rest)) &&
      (!isOneOf ["WITH"] first || (first :: rest).any (isOneOf writeKeywords))

/-- The server goes by the words that the text begins with. It changes data where they say so, and while statements are
pending, it ends the transaction only by the words of an end and, in MySQL, of a definition. The count stays below
2³². -/
structure Server.Follows (server : Server) (mysql : Bool) (pending : ℕ) (sql : Text) : Prop where
  changes : (!server.ends mysql sql && server.changes sql) = saysChange mysql (tokens sql mysql)
  ends : 0 < pending → saysEnd (server.words sql) = saysEnd (tokens sql mysql)
  ddl : mysql = true → 0 < pending → server.isDdl sql = saysDdl (tokens sql mysql)
  begins : mysql = true → 0 < pending → saysBegin (server.words sql) = false
  room : saysChange mysql (tokens sql mysql) = true → pending + 1 < 2 ^ 32

/-- The runs of a connection in manual mode, with the statements they executed. -/
inductive Reaches (server : Server) (mysql : Bool) : List Text → TxState → Prop
  | start {tx : TxState} : Reaches server mysql [] (tx.setManual true)
  | step {executed : List Text} {tx : TxState} {sql : Text} (h : Reaches server mysql executed tx)
      (hfollows : server.Follows mysql tx.pending.toNat sql) : Reaches server mysql (executed ++ [sql]) (execute mysql tx sql)

/-!
# Counting pending statements

A statement does one of three things to the count, by its first words. Over a run whose statements the server takes by
these words, the count is the number of changes since a transaction ended last.

Reference: `src-tauri/src/database/tx.rs`.
-/

open Agent (Text)

/-! ## Effects -/

/-- A word is in one of two lists of keywords only. -/
theorem isOneOf_disjoint {keywords others : List String} {word : Text}
    (hdisjoint : ∀ keyword ∈ keywords, isOneOf others keyword.toList = false) (h : isOneOf keywords word = true) :
    isOneOf others word = false := by
  obtain ⟨keyword, hmem, heq⟩ := any_eq_true.1 h
  rw [← of_decide_eq_true heq]
  exact hdisjoint keyword hmem

/-- The words after which nothing is pending any more. -/
def saysFinish (mysql : Bool) (tokens : List Text) : Bool := saysEnd tokens || mysql && saysDdl tokens

variable {sql : Text}

theorem classify_of_saysChange {mysql : Bool} (h : saysChange mysql (tokens sql mysql) = true) :
    classify sql mysql = .write := by
  rw [classify]
  generalize tokens sql mysql = words at h
  cases words with
  | nil => exact nomatch h
  | cons first rest =>
    simp only [saysChange, saysBegin, saysDdl, head?_cons, Option.any_some, Bool.and_eq_true, Bool.not_eq_true',
      Bool.or_eq_false_iff] at h
    obtain ⟨⟨⟨⟨⟨hend, hroll⟩, hbegin, hstart⟩, hread⟩, hddl⟩, hwith⟩ := h
    simp only [hend, hroll, hbegin, hstart, hread, Bool.false_eq_true, if_false]
    split
    · rename_i hfirst
      rw [hfirst, Bool.not_true, Bool.false_or] at hwith
      rw [if_pos hwith]
    · rw [Bool.and_comm, hddl]
      rfl

/-- Without a change, the words finish exactly where the effect clears the count. -/
theorem classify_of_not_saysChange {mysql : Bool} (h : saysChange mysql (tokens sql mysql) = false) :
    if saysFinish mysql (tokens sql mysql) then classify sql mysql = .ends ∨ classify sql mysql = .implicitCommit
    else classify sql mysql = .read ∨ classify sql mysql = .begins := by
  rw [classify]
  generalize tokens sql mysql = words at h
  cases words with
  | nil =>
    rw [saysFinish, saysEnd, saysDdl, head?_nil, Option.any_none, Bool.and_false]
    exact Or.inl rfl
  | cons first rest =>
    have hddl : ∀ {keywords : List String},
        (∀ keyword ∈ keywords, isOneOf ddlKeywords keyword.toList = false) → isOneOf keywords first = true →
          saysDdl (first :: rest) = false :=
      fun hdisjoint hfirst => isOneOf_disjoint hdisjoint hfirst
    dsimp only
    by_cases hend : isOneOf ["COMMIT", "END", "ABORT"] first = true
    · rw [if_pos hend, saysFinish, saysEnd, hend]
      exact Or.inl rfl
    by_cases hroll : isOneOf ["ROLLBACK"] first = true
    · rw [if_neg hend, if_pos hroll, saysFinish, hddl (by decide) hroll, saysEnd, eq_false_of_ne_true hend, hroll]
      by_cases hto : rest.head?.any (isOneOf ["TO"]) = true
      · rw [if_pos hto, hto]
        simp
      rw [if_neg hto]
      by_cases hwork : (rest.head?.any (isOneOf ["WORK", "TRANSACTION"]) && rest.tail.head?.any (isOneOf ["TO"])) = true
      · rw [if_pos hwork, hwork]
        simp
      · rw [if_neg hwork, eq_false_of_ne_true hto, eq_false_of_ne_true hwork]
        simp
    have hcontinues : saysEnd (first :: rest) = false := by
      rw [saysEnd, eq_false_of_ne_true hend, eq_false_of_ne_true hroll]
      rfl
    rw [if_neg hend, if_neg hroll, saysFinish, hcontinues, Bool.false_or]
    by_cases hbegin : isOneOf ["BEGIN"] first = true
    · rw [if_pos hbegin, hddl (by decide) hbegin, Bool.and_false]
      exact Or.inr rfl
    rw [if_neg hbegin]
    by_cases hstart : (isOneOf ["START"] first && rest.head?.any (isOneOf ["TRANSACTION"])) = true
    · rw [if_pos hstart, hddl (by decide) (Bool.and_eq_true _ _ ▸ hstart).1, Bool.and_false]
      exact Or.inr rfl
    rw [if_neg hstart]
    by_cases hread : isOneOf readKeywords first = true
    · rw [if_pos hread, hddl (by decide) hread, Bool.and_false]
      exact Or.inl rfl
    rw [if_neg hread]
    rw [saysChange, saysBegin, eq_false_of_ne_true hend, eq_false_of_ne_true hroll, eq_false_of_ne_true hbegin,
      eq_false_of_ne_true hstart, eq_false_of_ne_true hread] at h
    by_cases hwith : isOneOf ["WITH"] first = true
    · rw [if_pos hwith, hddl (by decide) hwith, Bool.and_false]
      rw [hddl (by decide) hwith, Bool.and_false, hwith] at h
      have hquiet : (first :: rest).any (isOneOf writeKeywords) = false := h
      rw [if_neg (ne_true_of_eq_false hquiet)]
      exact Or.inl rfl
    · rw [if_neg hwith]
      rw [eq_false_of_ne_true hwith, Bool.not_false, Bool.true_or, Bool.and_true, Bool.not_eq_false'] at h
      have hboth : (mysql && saysDdl (first :: rest)) = true := h
      have hswapped : (isOneOf ddlKeywords first && mysql) = true := (Bool.and_comm _ _).trans hboth
      rw [hboth, if_pos hswapped]
      exact Or.inr rfl

/-! ## One statement -/

theorem txBeforeStatement_manual (mysql : Bool) (tx : TxState) (sql : Text) :
    (txBeforeStatement mysql tx sql).manual = tx.manual := by
  rw [txBeforeStatement]
  split
  · rfl
  split
  · rfl
  · rfl

theorem txBeforeStatement_pending (mysql : Bool) (tx : TxState) (sql : Text) :
    (txBeforeStatement mysql tx sql).pending = tx.pending := by
  rw [txBeforeStatement]
  split
  · rfl
  split
  · rfl
  · rfl

theorem execute_manual (mysql : Bool) (tx : TxState) (sql : Text) : (execute mysql tx sql).manual = tx.manual := by
  rw [execute]
  unfold TxState.noteExecuted
  split
  · rw [← txBeforeStatement_manual mysql tx sql]
    cases classify sql mysql <;> rfl
  · exact txBeforeStatement_manual mysql tx sql

/-- A change is counted, words that finish clear the count, and other statements leave it. -/
theorem execute_pending {mysql : Bool} {tx : TxState} (sql : Text) (hmanual : tx.manual = true) :
    (execute mysql tx sql).pending = if saysChange mysql (tokens sql mysql) then tx.pending + 1
      else if saysFinish mysql (tokens sql mysql) then 0 else tx.pending := by
  rw [execute, ← txBeforeStatement_pending mysql tx sql]
  unfold TxState.noteExecuted
  rw [txBeforeStatement_manual, if_pos hmanual]
  by_cases hchange : saysChange mysql (tokens sql mysql) = true
  · rw [classify_of_saysChange hchange, if_pos hchange]
    rfl
  have heffect := classify_of_not_saysChange (eq_false_of_ne_true hchange)
  rw [if_neg hchange]
  by_cases hfinish : saysFinish mysql (tokens sql mysql) = true
  · rw [if_pos hfinish] at heffect ⊢
    rcases heffect with h | h
    · rw [h]
      rfl
    · rw [h]
      rfl
  · rw [if_neg hfinish] at heffect ⊢
    rcases heffect with h | h
    · rw [h]
    · rw [h]
      rfl

variable {server : Server} {mysql : Bool}

theorem changesSinceEnd_append (executed : List Text) (sql : Text) :
    server.changesSinceEnd mysql (executed ++ [sql]) = if server.ends mysql sql then 0
      else if server.changes sql then server.changesSinceEnd mysql executed + 1
      else server.changesSinceEnd mysql executed := by
  rw [Server.changesSinceEnd, reverse_append, reverse_singleton, singleton_append, takeWhile_cons]
  by_cases hends : server.ends mysql sql = true
  · rw [hends]
    rfl
  rw [eq_false_of_ne_true hends, Bool.not_false, if_pos rfl, filter_cons]
  by_cases hchanges : server.changes sql = true
  · rw [if_pos hchanges, if_pos hchanges]
    rfl
  · rw [if_neg hchanges, if_neg hchanges]
    rfl

/-- While statements are pending, the words that finish are those by which the server ends the transaction. -/
theorem Server.Follows.saysFinish_eq {pending : ℕ} (h : server.Follows mysql pending sql)
    (hpending : 0 < pending) : saysFinish mysql (tokens sql mysql) = server.ends mysql sql := by
  rw [saysFinish, Server.ends, h.ends hpending]
  cases mysql with
  | false => rfl
  | true => rw [h.ddl rfl hpending, h.begins rfl hpending, Bool.false_or]

/-- One statement keeps the count. -/
theorem Server.Follows.pending_execute {executed : List Text} {tx : TxState}
    (h : server.Follows mysql tx.pending.toNat sql) (hmanual : tx.manual = true)
    (hcount : tx.pending.toNat = server.changesSinceEnd mysql executed) :
    (execute mysql tx sql).pending.toNat = server.changesSinceEnd mysql (executed ++ [sql]) := by
  have hsays := h.changes
  rw [execute_pending sql hmanual, changesSinceEnd_append]
  by_cases hchange : saysChange mysql (tokens sql mysql) = true
  · rw [hchange, Bool.and_eq_true, Bool.not_eq_true'] at hsays
    rw [if_pos hchange, hsays.1, if_neg Bool.false_ne_true, if_pos hsays.2, ← hcount, UInt32.toNat_add]
    exact Nat.mod_eq_of_lt (h.room hchange)
  rw [if_neg hchange]
  by_cases hpending : 0 < tx.pending.toNat
  · rw [h.saysFinish_eq hpending]
    by_cases hends : server.ends mysql sql = true
    · rw [if_pos hends, if_pos hends]
      rfl
    · rw [eq_false_of_ne_true hends, eq_false_of_ne_true hchange] at hsays
      have hchanges : server.changes sql = false := hsays
      rw [if_neg hends, if_neg hends, if_neg (ne_true_of_eq_false hchanges), hcount]
  · -- nothing was pending, and nothing is
    have hzero : tx.pending = 0 := UInt32.toNat_inj.1 (Nat.eq_zero_of_not_pos hpending)
    rw [hzero] at hcount ⊢
    rw [ite_self, ← hcount]
    by_cases hends : server.ends mysql sql = true
    · rw [if_pos hends]
      rfl
    · rw [eq_false_of_ne_true hends, eq_false_of_ne_true hchange] at hsays
      have hchanges : server.changes sql = false := hsays
      rw [if_neg hends, if_neg (ne_true_of_eq_false hchanges)]

/-! ## Runs -/

theorem Reaches.manual {executed : List Text} {tx : TxState} (h : Reaches server mysql executed tx) :
    tx.manual = true := by
  induction h with
  | start => rfl
  | step _ _ ih => rw [execute_manual, ih]

/-- A server that goes by the words that a statement begins with. -/
def firstWords (mysql : Bool) : Server where
  words sql := tokens sql mysql
  changes sql := saysChange mysql (tokens sql mysql)
  isDdl sql := saysDdl (tokens sql mysql)

theorem firstWords_ends_of_saysChange (h : saysChange mysql (tokens sql mysql) = true) :
    (firstWords mysql).ends mysql sql = false := by
  dsimp only [Server.ends, firstWords]
  generalize tokens sql mysql = words at h ⊢
  cases words with
  | nil => exact nomatch h
  | cons first rest =>
    simp only [saysChange, Bool.and_eq_true, Bool.not_eq_true', Bool.or_eq_false_iff] at h
    obtain ⟨⟨⟨⟨⟨hend, hroll⟩, hbegin⟩, -⟩, hddl⟩, -⟩ := h
    simp only [saysEnd, hend, hroll, hbegin, hddl, Bool.false_or, Bool.false_and]

/-- For this server the condition is that MySQL begins no transaction while statements are pending. -/
theorem firstWords_follows {pending : ℕ}
    (hbegins : mysql = true → 0 < pending → saysBegin (tokens sql mysql) = false)
    (hroom : saysChange mysql (tokens sql mysql) = true → pending + 1 < 2 ^ 32) :
    (firstWords mysql).Follows mysql pending sql where
  changes := by
    cases hchange : saysChange mysql (tokens sql mysql) with
    | false => exact (congrArg (_ && ·) hchange).trans (Bool.and_false _)
    | true =>
      rw [firstWords_ends_of_saysChange hchange]
      exact hchange
  ends _ := rfl
  ddl _ _ := rfl
  begins := hbegins
  room := hroom

end Taomni.Database.Tx
