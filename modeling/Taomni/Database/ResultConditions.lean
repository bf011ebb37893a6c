import Taomni.Common.LikePattern
import Taomni.Common.Lists
import Taomni.Database.GridChanges

/-!
# String literals with backslash escapes

How a lexer finds the end of a string literal. A quote in a literal is doubled; in some engines a backslash
takes the letters after it, a quote too. Which letters are kept with their backslash differs, so it is a
parameter; all escapes that are not kept stand for one letter at most.
-/

namespace Taomni.Database

open List

/-- The escapes of an engine: what the letters after a backslash stand for, and the text after them. -/
structure BackslashEscapes where
  keeps : Char → Bool
  decode : Text → Option (Text × Text)
  ending : decode [] = none
  kept : ∀ c text, keeps c = true → decode (c :: text) = some (['\\', c], text)
  shortened : ∀ c text letters rest, keeps c = false → decode (c :: text) = some (letters, rest) →
    letters.length ≤ 1 ∧ rest <:+ text
  quote : keeps '\'' = false
  backslash : keeps '\\' = false
  exclamation : keeps '!' = false → ∀ text, decode ('!' :: text) = some (['!'], text)

/-- The escapes of MySQL. -/
def BackslashEscapes.mySQL : BackslashEscapes where
  keeps := fun c => c == '%' || c == '_'
  decode := fun text => text.head?.map fun c => (decodeEscape c, text.tail)
  ending := rfl
  kept := by
    intro c text h
    rcases Bool.or_eq_true_iff.mp h with h | h <;> rw [beq_iff_eq.mp h] <;> rfl
  shortened := by
    intro c text letters rest h hdecode
    obtain ⟨hpercent, hunderscore⟩ := Bool.or_eq_false_iff.mp h
    have hletters : ¬(c = '%' ∨ c = '_') := not_or.mpr ⟨beq_eq_false_iff_ne.mp hpercent,
      beq_eq_false_iff_ne.mp hunderscore⟩
    cases hdecode
    refine ⟨?_, suffix_refl text⟩
    unfold decodeEscape
    rw [if_neg hletters]
    split_ifs <;> exact Nat.le_refl 1
  quote := rfl
  backslash := rfl
  exclamation := fun _ _ => rfl

/-- What a backslash stands for; it is a letter like others where there are no escapes. -/
def lexBackslash (escapes : Option BackslashEscapes) (text : Text) : Option (Text × Text) :=
  match escapes with
  | some escapes => escapes.decode text
  | none => some (['\\'], text)

theorem BackslashEscapes.rest_suffix (escapes : BackslashEscapes) {text letters rest : Text}
    (h : escapes.decode text = some (letters, rest)) : rest <:+ text := by
  cases text with
  | nil =>
    rw [escapes.ending] at h
    cases h
  | cons c text =>
    cases hkeeps : escapes.keeps c with
    | true =>
      rw [escapes.kept c text hkeeps] at h
      cases h
      exact suffix_cons c _
    | false => exact (escapes.shortened c text letters rest hkeeps h).2.trans (suffix_cons c text)

theorem lexBackslash_suffix {escapes : Option BackslashEscapes} {text letters rest : Text}
    (h : lexBackslash escapes text = some (letters, rest)) : rest <:+ text := by
  cases escapes with
  | none =>
    cases h
    exact suffix_refl _
  | some escapes => exact escapes.rest_suffix h

/-- What comes after the opening quote, up to the closing one. -/
@[grind =] def readBody (escapes : Option BackslashEscapes) : Text → Option (Text × Text)
  | [] => none
  | c :: text =>
    if c = '\'' then
      if text.head? = some '\'' then (readBody escapes text.tail).map fun r => ('\'' :: r.1, r.2)
      else some ([], text)
    else if c = '\\' then
      match _ : lexBackslash escapes text with
      | some (letters, rest) => (readBody escapes rest).map fun r => (letters ++ r.1, r.2)
      | none => none
    else (readBody escapes text).map fun r => (c :: r.1, r.2)
termination_by text => text.length
decreasing_by
  · exact Nat.lt_succ_of_le (length_tail.trans_le (Nat.sub_le _ _))
  · exact Nat.lt_succ_of_le (lexBackslash_suffix ‹_›).length_le
  · exact Nat.lt_succ_self _

def lexLiteral (escapes : Option BackslashEscapes) (text : Text) : Option (Text × Text) :=
  (expect ['\''] text).bind (readBody escapes)

/-! ## Letters -/

section

variable {escapes : Option BackslashEscapes} {text rest : Text} {c : Char}

theorem readBody_close (h : rest.head? ≠ some '\'') : readBody escapes ('\'' :: rest) = some ([], rest) := by
  rw [readBody, if_pos rfl, if_neg h]

theorem readBody_pair : readBody escapes ('\'' :: '\'' :: text)
    = (readBody escapes text).map fun r => ('\'' :: r.1, r.2) := by
  rw [readBody, if_pos rfl, if_pos head?_cons, tail_cons]

theorem readBody_letter (hquote : c ≠ '\'') (hbackslash : c ≠ '\\') :
    readBody escapes (c :: text) = (readBody escapes text).map fun r => (c :: r.1, r.2) := by
  rw [readBody, if_neg hquote, if_neg hbackslash]

theorem readBody_backslash : readBody escapes ('\\' :: text) = (lexBackslash escapes text).bind fun lexed =>
    (readBody escapes lexed.2).map fun r => (lexed.1 ++ r.1, r.2) := by
  rw [readBody, if_neg (by decide), if_pos rfl]
  split <;> (next heq => rw [heq]; rfl)

/-- A letter of the value, written with its quotes doubled. -/
theorem readBody_doubled_letter (h : c ≠ '\\') : readBody escapes (doubled '\'' (c :: text) ++ rest)
    = (readBody escapes (doubled '\'' text ++ rest)).map fun r => (c :: r.1, r.2) := by
  by_cases hquote : c = '\''
  · rw [hquote, doubled_cons_self]
    exact readBody_pair
  · rw [doubled_cons_ne hquote]
    exact readBody_letter hquote h

end

/-! ## Lengths -/

theorem BackslashEscapes.decode_length (escapes : BackslashEscapes) {c : Char} {text letters rest : Text}
    (hkeeps : escapes.keeps c = false) (h : escapes.decode (c :: text) = some (letters, rest)) :
    ∃ front, c :: text = front ++ rest ∧ 2 * letters.length + front.count '\'' < 2 * (front.length + 1) := by
  obtain ⟨hletters, front, rfl⟩ := escapes.shortened c text letters rest hkeeps h
  have hcount : (c :: front).count '\'' ≤ (c :: front).length := count_le_length
  refine ⟨c :: front, rfl, ?_⟩
  rw [length_cons] at hcount ⊢
  omega

theorem lexBackslash_length {escapes : Option BackslashEscapes} {text letters rest : Text}
    (h : lexBackslash escapes text = some (letters, rest)) :
    ∃ front, text = front ++ rest ∧ 2 * letters.length + front.count '\'' ≤ 2 * (front.length + 1) := by
  cases escapes with
  | none =>
    cases h
    exact ⟨[], rfl, Nat.le_refl _⟩
  | some escapes =>
    have h : escapes.decode text = some (letters, rest) := h
    cases text with
    | nil =>
      rw [escapes.ending] at h
      cases h
    | cons c text =>
      cases hkeeps : escapes.keeps c with
      | false =>
        obtain ⟨front, heq, hlt⟩ := escapes.decode_length hkeeps h
        exact ⟨front, heq, hlt.le⟩
      | true =>
        have hquote : c ≠ '\'' := fun heq => by
          rw [heq, escapes.quote] at hkeeps
          cases hkeeps
        rw [escapes.kept c text hkeeps] at h
        cases h
        refine ⟨[c], rfl, ?_⟩
        rw [count_eq_zero_of_not_mem fun hmem => hquote (mem_singleton.mp hmem).symm]
        exact Nat.le_refl _

/-- A literal stands for no more than its body, in which two quotes are one letter. -/
theorem readBody_length {escapes : Option BackslashEscapes} {text value rest : Text}
    (h : readBody escapes text = some (value, rest)) :
    ∃ body, text = body ++ '\'' :: rest ∧ 2 * value.length + body.count '\'' ≤ 2 * body.length := by
  induction hlength : text.length using Nat.strong_induction_on generalizing text value with
  | _ n ih =>
    subst hlength
    cases text with
    | nil =>
      rw [readBody] at h
      cases h
    | cons c text =>
      by_cases hquote : c = '\''
      · subst hquote
        by_cases hpair : text.head? = some '\''
        · obtain ⟨text, rfl⟩ := List.head?_eq_some_iff.mp hpair
          rw [readBody_pair] at h
          obtain ⟨⟨value, rest⟩, hread, heq⟩ := Option.map_eq_some_iff.mp h
          cases heq
          obtain ⟨body, rfl, hle⟩ := ih text.length (by simp only [length_cons]; omega) hread rfl
          refine ⟨'\'' :: '\'' :: body, rfl, ?_⟩
          simp only [length_cons, count_cons_self]
          omega
        · rw [readBody_close hpair] at h
          cases h
          exact ⟨[], rfl, Nat.le_refl _⟩
      · by_cases hbackslash : c = '\\'
        · subst hbackslash
          rw [readBody_backslash] at h
          obtain ⟨⟨letters, back⟩, hlex, h⟩ := Option.bind_eq_some_iff.mp h
          obtain ⟨⟨value, rest⟩, hread, heq⟩ := Option.map_eq_some_iff.mp h
          cases heq
          obtain ⟨front, rfl, hfront⟩ := lexBackslash_length hlex
          obtain ⟨body, heq, hle⟩ := ih back.length (by
            rw [length_cons, length_append]
            omega) hread rfl
          dsimp only at heq ⊢
          subst heq
          refine ⟨'\\' :: (front ++ body), by rw [cons_append, append_assoc], ?_⟩
          rw [count_cons_of_ne (by decide), count_append, length_append, length_cons,
            length_append]
          omega
        · rw [readBody_letter hquote hbackslash] at h
          obtain ⟨⟨value, rest⟩, hread, heq⟩ := Option.map_eq_some_iff.mp h
          cases heq
          obtain ⟨body, rfl, hle⟩ := ih text.length (Nat.lt_succ_self _) hread rfl
          refine ⟨c :: body, rfl, ?_⟩
          dsimp only
          rw [count_cons_of_ne hquote, length_cons, length_cons]
          omega

/-- An escape that is not kept makes a literal stand for less than its body. -/
theorem readBody_length_of_escape {escapes : BackslashEscapes} {c : Char} {text value rest : Text}
    (hkeeps : escapes.keeps c = false) (h : readBody (some escapes) ('\\' :: c :: text) = some (value, rest)) :
    ∃ body, '\\' :: c :: text = body ++ '\'' :: rest ∧ 2 * value.length + body.count '\'' < 2 * body.length := by
  rw [readBody_backslash] at h
  obtain ⟨⟨letters, back⟩, hlex, h⟩ := Option.bind_eq_some_iff.mp h
  obtain ⟨⟨value, rest⟩, hread, heq⟩ := Option.map_eq_some_iff.mp h
  cases heq
  obtain ⟨front, hfront, hlt⟩ := escapes.decode_length hkeeps hlex
  obtain ⟨body, heq, hle⟩ := readBody_length hread
  dsimp only at heq ⊢
  subst heq
  refine ⟨'\\' :: (front ++ body), by rw [hfront, cons_append, append_assoc], ?_⟩
  rw [count_cons_of_ne (by decide), count_append, length_append, length_cons,
    length_append]
  omega

theorem length_doubled (value : Text) : (doubled '\'' value).length = value.length + value.count '\'' ∧
    (doubled '\'' value).count '\'' = 2 * value.count '\'' := by
  induction value with
  | nil => exact ⟨rfl, rfl⟩
  | cons c value ih =>
    obtain ⟨hlength, hcount⟩ := ih
    by_cases hquote : c = '\''
    · subst hquote
      rw [doubled_cons_self]
      simp only [length_cons, count_cons_self, hlength, hcount]
      omega
    · rw [doubled_cons_ne hquote]
      simp only [length_cons, count_cons_of_ne hquote, hlength, hcount]
      exact ⟨by omega, trivial⟩

end Taomni.Database

/-!
# Conditions for the filters of a result

A literal is written with its quotes doubled and nothing else, for every engine. Where the engine has
backslash escapes, a value comes through only if the engine keeps all of its backslashes, in the literal and
in the pattern.

Reference: `src-tauri/src/database/sql_rewrite/conditions.rs`, and `ResultSqlEngine::parse` of
`src-tauri/src/database/sql_rewrite/model.rs`.
-/

namespace Taomni.Database.ResultSql

open List

/-! ## Conditions -/

/-- `ResultSqlEngine::parse`. -/
def parse (value : String) : SqlEngine :=
  if value = "PostgreSQL" then .postgreSQL
  else if value = "PanWeiDB" then .panWeiDB
  else if value = "Oracle" then .oracle
  else if value = "SQLServer" then .sqlServer
  else if value = "StarRocks" then .starRocks
  else if value = "ClickHouse" then .clickHouse
  else if value = "Presto" then .presto
  else .mySQL

def sqlLiteral : Option Text → Text
  | some value => '\'' :: (doubled '\'' value ++ ['\''])
  | none => "NULL".toList

def escapeLikePattern (value : Text) : Text :=
  value.flatMap fun c => if c = '!' ∨ c = '%' ∨ c = '_' then ['!', c] else [c]

def sqlLikeCondition (expression value : Text) : Text :=
  expression ++ " LIKE ".toList ++ sqlLiteral (some ('%' :: (escapeLikePattern value ++ ['%'])))
    ++ " ESCAPE '!'".toList

def uniqueFilterValues (values : List (Option Text)) : List (Option Text) := appendMissing [] values

/-- The literals after `IN`. -/
def literals (values : List Text) : Text := ", ".toList.intercalate (values.map fun value => sqlLiteral (some value))

def selectedValuesCondition (columnSql : Text) (values : List (Option Text)) : Option Text :=
  let unique := uniqueFilterValues values
  let nonNull := unique.filterMap id
  let clauses :=
    (match nonNull with
      | [] => []
      | [value] => [columnSql ++ " = ".toList ++ sqlLiteral (some value)]
      | _ => [columnSql ++ " IN (".toList ++ literals nonNull ++ ")".toList]) ++
    (if unique.any Option.isNone then [columnSql ++ " IS NULL".toList] else [])
  match clauses with
  | [] => none
  | [clause] => some clause
  | _ => some ("(".toList ++ " OR ".toList.intercalate clauses ++ ")".toList)

/-! ## What an engine reads -/

/-- The engines with escapes in their literals. -/
def literalEscapes (escapes : SqlEngine → BackslashEscapes) (engine : SqlEngine) : Option BackslashEscapes :=
  match engine with
  | .mySQL | .starRocks | .clickHouse => some (escapes engine)
  | _ => none

/-- The wildcards of `LIKE` with `ESCAPE '!'`. -/
def likeWildcards : Wildcards Char where
  many := '%'
  one := '_'
  escape := '!'
  many_ne_one := by decide
  escape_ne_many := by decide
  escape_ne_one := by decide

/-- The pattern and the escape of a `LIKE` condition, and the text after it. -/
def readLike (escapes : Option BackslashEscapes) (expression text : Text) : Option ((Text × Text) × Text) :=
  (expect (expression ++ " LIKE ".toList) text).bind fun rest =>
    (lexLiteral escapes rest).bind fun (pattern, rest) =>
      (expect " ESCAPE ".toList rest).bind fun rest =>
        (lexLiteral escapes rest).map fun (escape, rest) => ((pattern, escape), rest)

/-- The literal of a value is read as this value, whatever comes after it. -/
def LiteralDenotes (escapes : Option BackslashEscapes) (value : Text) : Prop :=
  ∀ rest : Text, rest.head? ≠ some '\'' →
    lexLiteral escapes (sqlLiteral (some value) ++ rest) = some (value, rest)

/-- The condition on an expression holds for the texts that contain the value. -/
def LikeContains (escapes : Option BackslashEscapes) (expression value : Text) : Prop :=
  ∃ pattern, (∀ rest : Text, rest.head? ≠ some '\'' →
      readLike escapes expression (sqlLikeCondition expression value ++ rest) = some ((pattern, ['!']), rest)) ∧
    ∀ text, Like likeWildcards pattern text ↔ value <:+: text

/-- Every backslash of a value is kept, with the letter after it. -/
def AllKept (escapes : BackslashEscapes) (value : Text) : Prop :=
  ∀ back, '\\' :: back <:+ value → ∃ c text, back = c :: text ∧ escapes.keeps c = true

/-- Every backslash is also kept before the letter that a pattern has next. -/
def Neutral (escapes : BackslashEscapes) (value : Text) : Prop :=
  ∀ back, '\\' :: back <:+ value → ∃ c text, back = c :: text ∧ escapes.keeps c = true ∧
    (likeWildcards.Special c → escapes.keeps '!' = true)

/-! ## Literals -/

section

variable {escapes : BackslashEscapes} {value rest : Text} {c : Char}

theorem AllKept.tail (h : AllKept escapes (c :: value)) : AllKept escapes value :=
  fun back hback => h back (hback.trans (suffix_cons c value))

theorem allKept_cons (hc : c ≠ '\\') (h : AllKept escapes value) : AllKept escapes (c :: value) := by
  intro back hback
  rcases List.suffix_cons_iff.mp hback with heq | hback
  · exact absurd (List.cons.inj heq).1.symm hc
  · exact h back hback

theorem keeps_ne (hkeeps : escapes.keeps c = true) : c ≠ '\'' ∧ c ≠ '\\' := by
  refine ⟨fun heq => ?_, fun heq => ?_⟩
  · rw [heq, escapes.quote] at hkeeps
    cases hkeeps
  · rw [heq, escapes.backslash] at hkeeps
    cases hkeeps

theorem allKept_backslash (hkeeps : escapes.keeps c = true) (h : AllKept escapes value) :
    AllKept escapes ('\\' :: c :: value) := by
  intro back hback
  rcases List.suffix_cons_iff.mp hback with heq | hback
  · exact ⟨c, value, (List.cons.inj heq).2, hkeeps⟩
  · exact allKept_cons (keeps_ne hkeeps).2 h back hback

/-- A backslash and a letter that are kept. -/
theorem readBody_kept (hkeeps : escapes.keeps c = true) (text : Text) :
    readBody (some escapes) (doubled '\'' ('\\' :: c :: text) ++ rest)
      = (readBody (some escapes) (doubled '\'' text ++ rest)).map fun r => ('\\' :: c :: r.1, r.2) := by
  have hlex (text : Text) : lexBackslash (some escapes) (c :: text) = some (['\\', c], text) :=
    escapes.kept c text hkeeps
  rw [doubled_cons_ne (by decide), doubled_cons_ne (keeps_ne hkeeps).1, cons_append, readBody_backslash,
    cons_append, hlex]
  rfl

/-- An escape that is not kept is not read back. -/
theorem readBody_ne_of_escape {text : Text} (hkeeps : escapes.keeps c = false)
    (htext : doubled '\'' value ++ '\'' :: rest = '\\' :: c :: text) :
    readBody (some escapes) (doubled '\'' value ++ '\'' :: rest) ≠ some (value, rest) := by
  intro h
  rw [htext] at h
  obtain ⟨body, heq, hlt⟩ := readBody_length_of_escape hkeeps h
  rw [← htext] at heq
  obtain rfl := append_cancel_right heq
  obtain ⟨hlength, hcount⟩ := length_doubled value
  omega

/-- A literal is read back if and only if its backslashes are kept. -/
theorem readBody_doubled_iff (hrest : rest.head? ≠ some '\'') :
    readBody (some escapes) (doubled '\'' value ++ '\'' :: rest) = some (value, rest) ↔ AllKept escapes value := by
  induction hlength : value.length using Nat.strong_induction_on generalizing value with
  | _ n ih =>
    subst hlength
    have hcons {value : Text} {read : Option (Text × Text)} (front : Text) :
        read.map (fun r => (front ++ r.1, r.2)) = some (front ++ value, rest) ↔ read = some (value, rest) := by
      rw [Option.map_eq_some_iff]
      refine ⟨fun ⟨r, hread, heq⟩ => ?_, fun h => ⟨_, h, rfl⟩⟩
      obtain ⟨hvalue, hback⟩ := Prod.mk.inj heq
      rw [hread, ← append_cancel_left hvalue, ← hback]
    match value with
    | [] => exact ⟨fun _ back hback => absurd hback (by simp), fun _ => readBody_close hrest⟩
    | c :: value =>
      by_cases hc : c = '\\'
      · subst hc
        match value with
        | [] =>
          refine iff_of_false (readBody_ne_of_escape escapes.quote rfl) fun h => ?_
          obtain ⟨c, text, heq, -⟩ := h [] (suffix_refl _)
          cases heq
        | d :: value =>
          cases hkeeps : escapes.keeps d with
          | false =>
            refine iff_of_false ?_ fun h => ?_
            · by_cases hd : d = '\''
              · subst hd
                exact readBody_ne_of_escape hkeeps (by rw [doubled_cons_ne (by decide), doubled_cons_self]; rfl)
              · exact readBody_ne_of_escape hkeeps (by rw [doubled_cons_ne (by decide), doubled_cons_ne hd]; rfl)
            · obtain ⟨c, text, heq, hc⟩ := h _ (suffix_refl _)
              rw [← (List.cons.inj heq).1, hkeeps] at hc
              cases hc
          | true =>
            rw [readBody_kept hkeeps]
            refine (hcons ['\\', d]).trans ((ih value.length ?_ rfl).trans ?_)
            · rw [length_cons, length_cons]
              omega
            · exact ⟨allKept_backslash hkeeps, fun h => h.tail.tail⟩
      · rw [readBody_doubled_letter hc]
        refine (hcons [c]).trans ((ih value.length (Nat.lt_succ_self _) rfl).trans ?_)
        exact ⟨allKept_cons hc, AllKept.tail⟩

end

theorem lexLiteral_sqlLiteral (escapes : Option BackslashEscapes) (value rest : Text) :
    lexLiteral escapes (sqlLiteral (some value) ++ rest) = readBody escapes (doubled '\'' value ++ '\'' :: rest) := by
  have hquoted : sqlLiteral (some value) ++ rest = ['\''] ++ (doubled '\'' value ++ '\'' :: rest) := by
    unfold sqlLiteral
    simp only [cons_append, append_assoc, nil_append]
  rw [lexLiteral, hquoted, expect_append, Option.bind_some]

/-- Every literal is read back where a backslash is a letter. -/
theorem readBody_plain {rest : Text} (hrest : rest.head? ≠ some '\'') (value : Text) :
    readBody none (doubled '\'' value ++ '\'' :: rest) = some (value, rest) := by
  induction value with
  | nil => exact readBody_close hrest
  | cons c value ih =>
    by_cases hc : c = '\\'
    · subst hc
      rw [doubled_cons_ne (by decide), cons_append, readBody_backslash, lexBackslash, Option.bind_some, ih]
      rfl
    · rw [readBody_doubled_letter hc, ih]
      rfl

theorem literalDenotes_iff (escapes : Option BackslashEscapes) (value : Text) :
    LiteralDenotes escapes value ↔ ∀ e, escapes = some e → AllKept e value := by
  cases escapes with
  | none =>
    refine ⟨fun _ e he => (nomatch he), fun _ rest hrest => ?_⟩
    rw [lexLiteral_sqlLiteral, readBody_plain hrest]
  | some escapes =>
    refine ⟨fun h e he => ?_, fun h rest hrest => ?_⟩
    · cases he
      have hend : ([] : Text).head? ≠ some '\'' := by decide
      have hread := h [] hend
      rw [lexLiteral_sqlLiteral] at hread
      exact (readBody_doubled_iff hend).mp hread
    · rw [lexLiteral_sqlLiteral, readBody_doubled_iff hrest]
      exact h escapes rfl

/-! ## Patterns -/

/-- A value without the backslashes that are lost before the letters a pattern escapes. -/
def stripped (escapes : BackslashEscapes) : Text → Text
  | c :: d :: text =>
    if c = '\\' ∧ likeWildcards.Special d ∧ escapes.keeps '!' = false then d :: stripped escapes text
    else c :: stripped escapes (d :: text)
  | text => text

theorem escapeLikePattern_eq (value : Text) : escapeLikePattern value = escapeWildcards likeWildcards value := rfl

section

variable {escapes : BackslashEscapes} {value rest : Text} {c d : Char}

theorem stripped_cons (h : ¬(c = '\\' ∧ (∃ d ∈ value.head?, likeWildcards.Special d) ∧ escapes.keeps '!' = false)) :
    stripped escapes (c :: value) = c :: stripped escapes value := by
  cases value with
  | nil => rfl
  | cons d value => rw [stripped, if_neg fun hpair => h ⟨hpair.1, ⟨d, rfl, hpair.2.1⟩, hpair.2.2⟩]

theorem length_stripped_le (escapes : BackslashEscapes) (value : Text) :
    (stripped escapes value).length ≤ value.length := by
  fun_induction stripped escapes value with
  | case1 c d text hpair ih =>
    simp only [length_cons]
    omega
  | case2 c d text hpair ih =>
    simp only [length_cons] at ih ⊢
    omega
  | case3 text hshort => exact Nat.le_refl _

theorem neutral_iff : Neutral escapes value ↔ AllKept escapes value ∧ stripped escapes value = value := by
  fun_induction stripped escapes value with
  | case1 c d text hpair ih =>
    obtain ⟨rfl, hspecial, hkeeps⟩ := hpair
    refine iff_of_false (fun h => ?_) fun h => ?_
    · obtain ⟨c, back, heq, -, hbang⟩ := h _ (suffix_refl _)
      rw [(List.cons.inj heq).1] at hspecial
      rw [hbang hspecial] at hkeeps
      cases hkeeps
    · have hlength := congrArg List.length h.2
      have hle := length_stripped_le escapes text
      simp only [length_cons] at hlength
      omega
  | case2 c d text hpair ih =>
    rw [cons_inj_right]
    constructor
    · intro h
      obtain ⟨hkept, hsame⟩ := ih.mp fun back hback => h back (hback.trans (suffix_cons c _))
      refine ⟨fun back hback => ?_, hsame⟩
      obtain ⟨e, rest, heq, hkeeps, -⟩ := h back hback
      exact ⟨e, rest, heq, hkeeps⟩
    · intro ⟨hkept, hsame⟩ back hback
      rcases List.suffix_cons_iff.mp hback with heq | hback
      · obtain ⟨e, rest, hback, hkeeps⟩ := hkept back hback
        refine ⟨e, rest, hback, hkeeps, fun hspecial => ?_⟩
        rw [hback] at heq
        obtain ⟨hc, heq⟩ := List.cons.inj heq
        by_contra hbang
        rw [(List.cons.inj heq).1] at hspecial
        exact hpair ⟨hc.symm, hspecial, Bool.eq_false_iff.mpr hbang⟩
      · exact ih.mpr ⟨hkept.tail, hsame⟩ back hback
  | case3 text hshort =>
    refine ⟨fun h => ⟨fun back hback => ?_, rfl⟩, fun h back hback => ?_⟩
    · obtain ⟨e, rest, heq, hkeeps, -⟩ := h back hback
      exact ⟨e, rest, heq, hkeeps⟩
    · obtain ⟨e, rest, rfl, -⟩ := h.1 back hback
      match text, hshort, hback.length_le with
      | [], _, hle => exact absurd hle (Nat.not_succ_le_zero _)
      | [c], _, hle => exact absurd hle (by simp only [length_cons, length_nil]; omega)
      | c :: d :: text, hshort, _ => exact absurd rfl (hshort c d text)

theorem readBody_lost (hkeeps : escapes.keeps '!' = false) (text : Text) :
    readBody (some escapes) (doubled '\'' ('\\' :: '!' :: text) ++ rest)
      = (readBody (some escapes) (doubled '\'' text ++ rest)).map fun r => ('!' :: r.1, r.2) := by
  have hlex (text : Text) : lexBackslash (some escapes) ('!' :: text) = some (['!'], text) :=
    escapes.exclamation hkeeps text
  rw [doubled_cons_ne (by decide), doubled_cons_ne (by decide), cons_append, readBody_backslash,
    cons_append, hlex]
  rfl

theorem escapeWildcards_like (h : likeWildcards.Special c) (text : Text) :
    escapeWildcards likeWildcards (c :: text) = '!' :: c :: escapeWildcards likeWildcards text :=
  escapeWildcards_special h text

/-- A value in a pattern is read without the backslashes that are lost. -/
theorem readBody_pattern (h : AllKept escapes value) (tail : Text) :
    readBody (some escapes) (doubled '\'' (escapeWildcards likeWildcards value ++ tail) ++ rest)
      = (readBody (some escapes) (doubled '\'' tail ++ rest)).map fun r =>
          (escapeWildcards likeWildcards (stripped escapes value) ++ r.1, r.2) := by
  induction hlength : value.length using Nat.strong_induction_on generalizing value with
  | _ n ih =>
    subst hlength
    have hbang : '!' ≠ '\\' := by decide
    have hletter : ¬likeWildcards.Special '\\' := by decide
    match value with
    | [] => exact Option.map_id'.symm
    | c :: value =>
      by_cases hc : c = '\\'
      · subst hc
        obtain ⟨d, value', rfl, hkeeps⟩ := h _ (suffix_refl _)
        have hd := (keeps_ne hkeeps).2
        have hread := ih value'.length (by simp only [length_cons]; omega) h.tail.tail rfl
        have hstripped : stripped escapes (d :: value') = d :: stripped escapes value' :=
          stripped_cons fun hpair => hd hpair.1
        rw [escapeWildcards_letter hletter]
        by_cases hspecial : likeWildcards.Special d
        · rw [escapeWildcards_like hspecial]
          cases hexclamation : escapes.keeps '!' with
          | true =>
            have hsame : stripped escapes ('\\' :: d :: value') = '\\' :: d :: stripped escapes value' := by
              rw [stripped, if_neg fun hpair => by rw [hexclamation] at hpair; exact Bool.noConfusion hpair.2.2, hstripped]
            rw [hsame, escapeWildcards_letter hletter, escapeWildcards_like hspecial]
            simp only [cons_append]
            rw [readBody_kept hexclamation, readBody_doubled_letter hd, hread, Option.map_map, Option.map_map]
            rfl
          | false =>
            have hlost : stripped escapes ('\\' :: d :: value') = d :: stripped escapes value' := by
              rw [stripped, if_pos ⟨rfl, hspecial, hexclamation⟩]
            rw [hlost, escapeWildcards_like hspecial]
            simp only [cons_append]
            rw [readBody_lost hexclamation, readBody_doubled_letter hd, hread, Option.map_map, Option.map_map]
            rfl
        · have hsame : stripped escapes ('\\' :: d :: value') = '\\' :: d :: stripped escapes value' := by
            rw [stripped, if_neg fun hpair => hspecial hpair.2.1, hstripped]
          rw [hsame, escapeWildcards_letter hletter, escapeWildcards_letter hspecial,
            escapeWildcards_letter hspecial]
          simp only [cons_append]
          rw [readBody_kept hkeeps, hread, Option.map_map]
          rfl
      · have hread := ih value.length (Nat.lt_succ_self _) h.tail rfl
        rw [stripped_cons fun hpair => hc hpair.1]
        by_cases hspecial : likeWildcards.Special c
        · rw [escapeWildcards_like hspecial, escapeWildcards_like hspecial]
          simp only [cons_append]
          rw [readBody_doubled_letter hbang, readBody_doubled_letter hc, hread, Option.map_map, Option.map_map]
          rfl
        · rw [escapeWildcards_letter hspecial, escapeWildcards_letter hspecial]
          simp only [cons_append]
          rw [readBody_doubled_letter hc, hread, Option.map_map]
          rfl

end

/-- The condition is read as its parts if its pattern is. -/
theorem readLike_sqlLikeCondition {escapes : Option BackslashEscapes} {expression value pattern : Text}
    (h : ∀ rest : Text, rest.head? ≠ some '\'' →
      readBody escapes (doubled '\'' ('%' :: (escapeLikePattern value ++ ['%'])) ++ '\'' :: rest)
        = some (pattern, rest)) {rest : Text} (hrest : rest.head? ≠ some '\'') :
    readLike escapes expression (sqlLikeCondition expression value ++ rest) = some ((pattern, ['!']), rest) := by
  have hescape : " ESCAPE '!'".toList ++ rest = " ESCAPE ".toList ++ (sqlLiteral (some ['!']) ++ rest) := rfl
  have hbang : readBody escapes (doubled '\'' ['!'] ++ '\'' :: rest) = some (['!'], rest) := by
    rw [readBody_doubled_letter (by decide), doubled_nil, nil_append, readBody_close hrest]
    rfl
  have hblank : (" ESCAPE '!'".toList ++ rest).head? ≠ some '\'' :=
    fun heq => absurd (Option.some.inj (heq : some ' ' = some '\'')) (by decide)
  rw [readLike, sqlLikeCondition, append_assoc, append_assoc, expect_append, Option.bind_some,
    lexLiteral_sqlLiteral, h _ hblank, Option.bind_some]
  dsimp only
  rw [hescape, expect_append, Option.bind_some, lexLiteral_sqlLiteral, hbang]
  rfl

/-- The pattern of a value finds what is left of it. -/
theorem readBody_likePattern {escapes : BackslashEscapes} {value rest : Text} (h : AllKept escapes value)
    (hrest : rest.head? ≠ some '\'') :
    readBody (some escapes) (doubled '\'' ('%' :: (escapeLikePattern value ++ ['%'])) ++ '\'' :: rest)
      = some ('%' :: (escapeWildcards likeWildcards (stripped escapes value) ++ ['%']), rest) := by
  have hpercent : '%' ≠ '\\' := by decide
  rw [readBody_doubled_letter hpercent, escapeLikePattern_eq, readBody_pattern h, readBody_doubled_letter hpercent,
    doubled_nil, nil_append, readBody_close hrest]
  rfl

theorem readBody_likePattern_plain {value rest : Text} (hrest : rest.head? ≠ some '\'') :
    readBody none (doubled '\'' ('%' :: (escapeLikePattern value ++ ['%'])) ++ '\'' :: rest)
      = some ('%' :: (escapeWildcards likeWildcards value ++ ['%']), rest) :=
  readBody_plain hrest _

theorem likeContains_iff {escapes : BackslashEscapes} {value : Text} (h : AllKept escapes value) (expression : Text) :
    LikeContains (some escapes) expression value ↔ stripped escapes value = value := by
  have hread (rest : Text) (hrest : rest.head? ≠ some '\'') :
      readLike (some escapes) expression (sqlLikeCondition expression value ++ rest)
        = some (('%' :: (escapeWildcards likeWildcards (stripped escapes value) ++ ['%']), ['!']), rest) :=
    readLike_sqlLikeCondition (fun _ hrest => readBody_likePattern h hrest) hrest
  refine ⟨fun ⟨pattern, hpattern, hlike⟩ => ?_, fun hsame => ⟨_, hread, fun text => ?_⟩⟩
  · have hend : ([] : Text).head? ≠ some '\'' := by decide
    have heq := (hread [] hend).symm.trans (hpattern [] hend)
    obtain ⟨hpair, -⟩ := Prod.mk.inj (Option.some.inj heq)
    obtain ⟨rfl, -⟩ := Prod.mk.inj hpair
    -- the value is found in what is left of it
    have hfound := (hlike (stripped escapes value)).mp (like_containing.mpr (infix_refl _))
    exact (hfound.eq_of_length_le (length_stripped_le escapes value)).symm
  · rw [hsame]
    exact like_containing

/-! ## Every engine -/

end Taomni.Database.ResultSql
