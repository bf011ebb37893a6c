import Mathlib.Data.List.DropRight
import Mathlib.Tactic.SplitIfs
import Taomni.Common.Record

/-!
# The remote command of a quick connect

The writer relies on single quotes, where a shell takes a backslash as it is. The reader takes it as an
escape inside quotes too, and never gives an empty word.

Reference: `src/lib/quickConnect.ts`, `shellSplit`, `quoteCommandToken` and the rendering of `startupCmd`.
-/

namespace Taomni.QuickConnect

open List

abbrev Text := List Char

/-! ## Writing and reading -/

/-- The loop of `shellSplit`, with its variables. -/
def splitFrom (token : Text) (quote : Option Char) (escaped : Bool) : Text → List Text
  | [] => if token.isEmpty then [] else [token]
  | c :: rest =>
    if escaped then splitFrom (token ++ [c]) quote false rest
    else if c = '\\' then splitFrom token quote true rest
    else match quote with
      | some q => if c = q then splitFrom token none false rest else splitFrom (token ++ [c]) (some q) false rest
      | none =>
        if c = '"' ∨ c = '\'' then splitFrom token (some c) false rest
        else if isJsWhitespace c then
          if token.isEmpty then splitFrom [] none false rest else token :: splitFrom [] none false rest
        else splitFrom (token ++ [c]) none false rest

def shellSplit (command : Text) : List Text :=
  splitFrom [] none false ((command.dropWhile isJsWhitespace).rdropWhile isJsWhitespace)

/-- The characters that need no quotes. -/
def isPlain (c : Char) : Bool := c.isAlphanum || "_@%+=:,./~-[]".toList.contains c

def escapeQuotes (value : Text) : Text := value.flatMap fun c => if c = '\'' then "'\\''".toList else [c]

def quoteCommandToken (value : Text) : Text :=
  if value ≠ [] ∧ value.all isPlain then value else '\'' :: (escapeQuotes value ++ ['\''])

def startupCmd (words : List Text) : Text := [' '].intercalate (words.map quoteCommandToken)

/-! ## What a shell reads -/

inductive ShellMode where
  | plain
  | backslash
  | single
  | double
  | doubleBackslash

/-- The words of a simple command as POSIX has them, without expansions; `none` where a quote is left open, or
an operator or an expansion is met. -/
def posixFrom (token : Option Text) : ShellMode → Text → Option (List Text)
  | .plain, [] => some token.toList
  | _, [] => none
  | .plain, c :: rest =>
    if c = ' ' ∨ c = '\t' then (token.toList ++ ·) <$> posixFrom none .plain rest
    else if c = '\\' then posixFrom token .backslash rest
    else if c = '\'' then posixFrom (some (token.getD [])) .single rest
    else if c = '"' then posixFrom (some (token.getD [])) .double rest
    else if "|&;<>()$`\n".toList.contains c ∨ c = '#' ∧ token = none then none
    else posixFrom (some (token.getD [] ++ [c])) .plain rest
  | .backslash, c :: rest => posixFrom (if c = '\n' then token else some (token.getD [] ++ [c])) .plain rest
  | .single, c :: rest =>
    if c = '\'' then posixFrom token .plain rest else posixFrom (some (token.getD [] ++ [c])) .single rest
  | .double, c :: rest =>
    if c = '"' then posixFrom token .plain rest
    else if c = '\\' then posixFrom token .doubleBackslash rest
    else if "$`".toList.contains c then none
    else posixFrom (some (token.getD [] ++ [c])) .double rest
  | .doubleBackslash, c :: rest =>
    if c = '\n' then posixFrom token .double rest
    else if "$`\"\\".toList.contains c then posixFrom (some (token.getD [] ++ [c])) .double rest
    else posixFrom (some (token.getD [] ++ ['\\', c])) .double rest

def posixWords (text : Text) : Option (List Text) := posixFrom none .plain text

/-! ## One word -/

theorem escapeQuotes_cons (c : Char) (w : Text) :
    escapeQuotes (c :: w) = (if c = '\'' then "'\\''".toList else [c]) ++ escapeQuotes w := rfl

/-- What a quote or an escape would be needed for. -/
theorem not_mem_of_isPlain {c : Char} (h : isPlain c = true) : c ∉ " \t\\'\"|&;<>()$`\n#".toList := by
  have hall : " \t\\'\"|&;<>()$`\n#".toList.all fun d => !isPlain d := by decide
  intro hmem
  simpa [h] using all_eq_true.mp hall c hmem

/-- A plain character is in the visible part of ASCII. -/
theorem not_whitespace_of_isPlain {c : Char} (h : isPlain c = true) : isJsWhitespace c = false := by
  have hrange : 33 ≤ c.val.toNat ∧ c.val.toNat ≤ 126 := by
    rw [isPlain, Bool.or_eq_true] at h
    rcases h with h | h
    · unfold Char.isAlphanum Char.isAlpha Char.isUpper Char.isLower Char.isDigit at h
      simp only [Bool.or_eq_true, Bool.and_eq_true, decide_eq_true_eq, UInt32.le_iff_toNat_le, ge_iff_le] at h
      have hZ : 'Z'.val.toNat = 90 ∧ 'z'.val.toNat = 122 ∧ '9'.val.toNat = 57 := ⟨rfl, rfl, rfl⟩
      have hA : 'A'.val.toNat = 65 ∧ 'a'.val.toNat = 97 ∧ '0'.val.toNat = 48 := ⟨rfl, rfl, rfl⟩
      omega
    · have hall : "_@%+=:,./~-[]".toList.all fun d => 33 ≤ d.val.toNat && d.val.toNat ≤ 126 := by decide
      simpa using all_eq_true.mp hall c (contains_iff_mem.mp h)
  simp only [isJsWhitespace, Bool.or_eq_false_iff, Bool.and_eq_false_iff, decide_eq_false_iff_not,
    UInt32.le_iff_toNat_le, ← UInt32.toNat_inj, UInt32.reduceToNat]
  omega

theorem splitFrom_escapeQuotes {w : Text} (h : '\\' ∉ w) (token rest : Text) :
    splitFrom token (some '\'') false (escapeQuotes w ++ '\'' :: rest) = splitFrom (token ++ w) none false rest := by
  induction w generalizing token with
  | nil => simp [escapeQuotes, splitFrom]
  | cons c w ih =>
    rw [mem_cons, not_or, eq_comm] at h
    rw [escapeQuotes_cons]
    by_cases hc : c = '\''
    · simp [hc, splitFrom, ih h.2]
    · simp [hc, h.1, splitFrom, ih h.2]

theorem splitFrom_plain {w : Text} (h : w.all isPlain = true) (token rest : Text) :
    splitFrom token none false (w ++ rest) = splitFrom (token ++ w) none false rest := by
  induction w generalizing token with
  | nil => simp
  | cons c w ih =>
    rw [all_cons, Bool.and_eq_true] at h
    have hc := not_mem_of_isPlain h.1
    simp only [String.reduceToList, mem_cons, not_or] at hc
    simp [splitFrom, hc, not_whitespace_of_isPlain h.1, ih h.2]

theorem splitFrom_token {w : Text} (h : '\\' ∉ w) (rest : Text) :
    splitFrom [] none false (quoteCommandToken w ++ rest) = splitFrom w none false rest := by
  unfold quoteCommandToken
  split
  · next hplain => exact splitFrom_plain hplain.2 [] rest
  · simpa [splitFrom] using splitFrom_escapeQuotes h [] rest

theorem posixFrom_escapeQuotes (w token rest : Text) :
    posixFrom (some token) .single (escapeQuotes w ++ '\'' :: rest) = posixFrom (some (token ++ w)) .plain rest := by
  induction w generalizing token with
  | nil => simp [escapeQuotes, posixFrom]
  | cons c w ih =>
    rw [escapeQuotes_cons]
    by_cases hc : c = '\'' <;> simp [hc, posixFrom, ih]

theorem posixFrom_plain {c : Char} (h : isPlain c = true) (token : Option Text) (rest : Text) :
    posixFrom token .plain (c :: rest) = posixFrom (some (token.getD [] ++ [c])) .plain rest := by
  have hc := not_mem_of_isPlain h
  simp only [String.reduceToList, mem_cons, not_or] at hc
  simp [posixFrom, hc]

theorem posixFrom_token (w rest : Text) :
    posixFrom none .plain (quoteCommandToken w ++ rest) = posixFrom (some w) .plain rest := by
  have hplain (v token : Text) (h : v.all isPlain = true) :
      posixFrom (some token) .plain (v ++ rest) = posixFrom (some (token ++ v)) .plain rest := by
    induction v generalizing token with
    | nil => simp
    | cons c v ih =>
      rw [all_cons, Bool.and_eq_true] at h
      simp [posixFrom_plain h.1, ih _ h.2]
  unfold quoteCommandToken
  split
  · next hw =>
    obtain ⟨c, v, rfl⟩ := exists_cons_of_ne_nil hw.1
    rw [all_cons, Bool.and_eq_true] at hw
    simpa [posixFrom_plain hw.2.1] using hplain v [c] hw.2.2
  · simpa [posixFrom] using posixFrom_escapeQuotes w [] rest

/-! ## A list of words -/

theorem startupCmd_cons_cons (w v : Text) (words : List Text) :
    startupCmd (w :: v :: words) = quoteCommandToken w ++ ' ' :: startupCmd (v :: words) := by
  simp [startupCmd, intercalate_cons_cons]

theorem startupCmd_singleton (w : Text) : startupCmd [w] = quoteCommandToken w ++ [] := by
  simp [startupCmd]

/-- A text that trimming leaves as it is. -/
structure Solid (text : Text) : Prop where
  start : ∃ c rest, text = c :: rest ∧ isJsWhitespace c = false
  stop : ∃ front c, text = front ++ [c] ∧ isJsWhitespace c = false

theorem Solid.trim {text : Text} (h : Solid text) :
    (text.dropWhile isJsWhitespace).rdropWhile isJsWhitespace = text := by
  obtain ⟨⟨c, rest, hc, hblank⟩, front, d, hd, hblank'⟩ := h
  rw [hc, dropWhile_cons_of_neg (by simp [hblank]), ← hc, hd, rdropWhile_concat_neg _ _ _ (by simp [hblank'])]

theorem solid_token (w : Text) : Solid (quoteCommandToken w) := by
  unfold quoteCommandToken
  split
  · next hw =>
    have hall (c : Char) (hc : c ∈ w) : isJsWhitespace c = false :=
      not_whitespace_of_isPlain (all_eq_true.mp hw.2 c hc)
    exact ⟨⟨w.head hw.1, w.tail, (cons_head_tail hw.1).symm, hall _ (head_mem hw.1)⟩,
      w.dropLast, w.getLast hw.1, (dropLast_append_getLast hw.1).symm, hall _ (getLast_mem hw.1)⟩
  · exact ⟨⟨'\'', _, rfl, by decide⟩, '\'' :: escapeQuotes w, '\'', rfl, by decide⟩

theorem solid_startupCmd (w : Text) (words : List Text) : Solid (startupCmd (w :: words)) := by
  induction words generalizing w with
  | nil =>
    rw [startupCmd_singleton, append_nil]
    exact solid_token w
  | cons v words ih =>
    rw [startupCmd_cons_cons]
    obtain ⟨c, rest, hc, hblank⟩ := (solid_token w).start
    obtain ⟨front, d, hd, hblank'⟩ := (ih v).stop
    refine ⟨⟨c, rest ++ ' ' :: startupCmd (v :: words), by rw [hc, cons_append], hblank⟩,
      quoteCommandToken w ++ ' ' :: front, d, ?_, hblank'⟩
    rw [hd, append_assoc, cons_append]

theorem splitFrom_startupCmd {words : List Text} (h : ∀ w ∈ words, w ≠ [] ∧ '\\' ∉ w) :
    splitFrom [] none false (startupCmd words) = words := by
  induction words with
  | nil => rfl
  | cons w words ih =>
    obtain ⟨⟨hne, hw⟩, hwords⟩ := forall_mem_cons.mp h
    cases words with
    | nil =>
      rw [startupCmd_singleton, splitFrom_token hw]
      simp [splitFrom, hne]
    | cons v words =>
      rw [startupCmd_cons_cons, splitFrom_token hw]
      simp [splitFrom, isJsWhitespace, hne, ih hwords]

/-- A shell reads every list of words back. -/
theorem posixWords_startupCmd (words : List Text) : posixWords (startupCmd words) = some words := by
  unfold posixWords
  induction words with
  | nil => rfl
  | cons w words ih =>
    cases words with
    | nil => rw [startupCmd_singleton, posixFrom_token, posixFrom, Option.toList_some]
    | cons v words =>
      rw [startupCmd_cons_cons, posixFrom_token]
      simp [posixFrom, ih]

/-! ## What the reader loses -/

theorem ne_nil_of_mem_splitFrom (text token : Text) (quote : Option Char) (escaped : Bool) :
    [] ∉ splitFrom token quote escaped text := by
  induction text generalizing token quote escaped with
  | nil => cases token <;> simp [splitFrom]
  | cons c text ih =>
    unfold splitFrom
    cases quote <;> dsimp only <;> split_ifs <;> simp_all

/-- The backslashes that follow one; `after` tells whether the first character does. -/
def doubled (after : Bool) : Text → ℕ
  | [] => 0
  | c :: rest => (if after = true ∧ c = '\\' then 1 else 0) + doubled (c = '\\') rest

theorem doubled_le (text : Text) : doubled false text ≤ doubled true text := by
  cases text <;> simp [doubled]

/-- Only a backslash after a backslash is read as one. -/
theorem count_splitFrom_le (text token : Text) (quote : Option Char) (escaped : Bool) :
    (splitFrom token quote escaped text).flatten.count '\\' ≤ token.count '\\' + doubled escaped text := by
  induction text generalizing token quote escaped with
  | nil => cases token <;> simp [splitFrom, doubled]
  | cons c text ih =>
    by_cases hc : c = '\\'
    · subst hc
      cases escaped
      · simpa [splitFrom, doubled] using ih token quote true
      · have hread := ih (token ++ ['\\']) quote false
        have hle := doubled_le text
        rw [count_append, count_singleton_self] at hread
        simp only [splitFrom, doubled, if_true, decide_true, and_self]
        omega
    · have hskip : doubled escaped (c :: text) = doubled false text := by simp [doubled, hc]
      have hpushed (quote : Option Char) : (splitFrom (token ++ [c]) quote false text).flatten.count '\\' ≤
          token.count '\\' + doubled false text := by
        simpa [count_append, hc] using ih (token ++ [c]) quote false
      have hstarted := ih [] none false
      rw [count_nil, Nat.zero_add] at hstarted
      rw [hskip]
      unfold splitFrom
      cases quote <;> dsimp only <;> split_ifs <;>
        first | exact hpushed _ | exact ih token _ false | skip
      · exact hstarted.trans (Nat.le_add_left _ _)
      · rw [flatten_cons, count_append]
        exact Nat.add_le_add_left hstarted _

theorem doubled_skip {c : Char} (h : c ≠ '\\') (after : Bool) (text : Text) :
    doubled after (c :: text) = doubled false text := by
  simp [doubled, h]

/-- Of the backslashes of a word, the first follows none. -/
theorem doubled_escapeQuotes (w rest : Text) :
    doubled true (escapeQuotes w ++ '\'' :: rest) ≤ w.count '\\' + doubled false rest ∧
      doubled false (escapeQuotes w ++ '\'' :: rest) ≤ w.count '\\' - 1 + doubled false rest := by
  induction w with
  | nil => simp [escapeQuotes, doubled]
  | cons c w ih =>
    obtain ⟨htrue, hfalse⟩ := ih
    rw [escapeQuotes_cons, append_assoc]
    by_cases hquote : c = '\''
    · have hskip (after : Bool) (text : Text) : doubled after ("'\\''".toList ++ text) = doubled false text := by
        simp [doubled]
      rw [hquote, if_pos rfl, hskip, hskip, count_cons_of_ne (by decide)]
      exact ⟨hfalse.trans (Nat.add_le_add_right (Nat.sub_le _ _) _), hfalse⟩
    · rw [if_neg hquote, singleton_append]
      by_cases hc : c = '\\'
      · subst hc
        simp only [doubled, count_cons_self, decide_true, and_self, if_true, Bool.false_eq_true, false_and, if_false]
        omega
      · rw [doubled_skip hc, doubled_skip hc, count_cons_of_ne hc]
        omega

theorem doubled_token (w rest : Text) :
    doubled false (quoteCommandToken w ++ rest) ≤ w.count '\\' - 1 + doubled false rest := by
  unfold quoteCommandToken
  split
  · next hw =>
    have hplain (v : Text) (h : v.all isPlain = true) : doubled false (v ++ rest) = doubled false rest := by
      induction v with
      | nil => rfl
      | cons c v ih =>
        rw [all_cons, Bool.and_eq_true] at h
        have hc := not_mem_of_isPlain h.1
        simp only [String.reduceToList, mem_cons, not_or] at hc
        rw [cons_append, doubled_skip hc.2.2.1, ih h.2]
    exact (hplain w hw.2).trans_le (Nat.le_add_left _ _)
  · rw [cons_append, doubled_skip (by decide), append_assoc]
    exact (doubled_escapeQuotes w rest).2

theorem doubled_startupCmd (words : List Text) :
    doubled false (startupCmd words) ≤ words.flatten.count '\\' - 1 := by
  induction words with
  | nil => exact Nat.le_refl 0
  | cons w words ih =>
    rw [flatten_cons, count_append]
    cases words with
    | nil =>
      rw [startupCmd_singleton]
      exact doubled_token w []
    | cons v words =>
      have htoken := doubled_token w (' ' :: startupCmd (v :: words))
      rw [doubled_skip (by decide)] at htoken
      rw [startupCmd_cons_cons]
      omega

/-- The words come back from the rendered command exactly when none is empty and none has a backslash. -/
theorem shellSplit_startupCmd_iff (words : List Text) :
    shellSplit (startupCmd words) = words ∧ posixWords (startupCmd words) = some words ↔
      ∀ w ∈ words, w ≠ [] ∧ '\\' ∉ w := by
  have hsplit : shellSplit (startupCmd words) = splitFrom [] none false (startupCmd words) := by
    cases words with
    | nil => rfl
    | cons w words => rw [shellSplit, (solid_startupCmd w words).trim]
  rw [hsplit, and_iff_left (posixWords_startupCmd words)]
  refine ⟨fun heq w hw => ⟨?_, fun hbackslash => ?_⟩, splitFrom_startupCmd⟩
  · rintro rfl
    exact ne_nil_of_mem_splitFrom _ _ _ _ (heq.symm ▸ hw)
  · have hcount := count_splitFrom_le (startupCmd words) [] none false
    have hpos : 0 < words.flatten.count '\\' := count_pos_iff.mpr (mem_flatten.mpr ⟨w, hw, hbackslash⟩)
    have hfew := doubled_startupCmd words
    rw [heq, count_nil] at hcount
    omega

/-- A backslash is lost. -/
theorem shellSplit_startupCmd_wrong : ¬∀ words : List Text,
    shellSplit (startupCmd words) = words ∧ posixWords (startupCmd words) = some words := by
  intro h
  exact absurd (h [['a', '\\', 'b']]).1 (by decide)

end Taomni.QuickConnect
