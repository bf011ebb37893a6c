import Mathlib.Data.Int.Order.Basic
import Taomni.Common.Splice
import Taomni.Common.Utf16

/-!
# LSP positions

Reference: `components/editor/workspace/lspTextEdits.ts`.

The scanning loops of the source read a text one token at a time: a code unit, or a line break, for
which CRLF counts as one. `tokens` is the sequence of what they read, and `Reads` says at which line
and character a number of code units has been read. An offset has such a position unless it splits a
CRLF (`exists_reads`).
-/

namespace Taomni.Lsp

open List
open JsString (cr lf)

/-! ## Tokens -/

/-- What a scanning loop reads in one round. -/
inductive Token where
  | unit (c : UInt16)
  | lineBreak (crlf : Bool)
deriving DecidableEq, Repr

/-- The code units of a token. -/
def Token.length : Token → ℕ
  | .unit _ => 1
  | .lineBreak crlf => crlf.toNat + 1

/-- The token of a code unit that starts no CRLF. -/
def unitToken (c : UInt16) : Token := if c = cr ∨ c = lf then .lineBreak false else .unit c

def tokens : JsString → List Token
  | [] => []
  | [c] => [unitToken c]
  | c :: d :: rest =>
      if c = cr ∧ d = lf then .lineBreak true :: tokens rest
      else unitToken c :: tokens (d :: rest)

/-- `text.split(/\r\n|\r|\n/)`, from the tokens of the text. -/
def splitTokens : List Token → List JsString
  | [] => [[]]
  | .lineBreak _ :: rest => [] :: splitTokens rest
  | .unit c :: rest => (splitTokens rest).modifyHead (c :: ·)

/-- The loop that skips to the start of a line. -/
def lineStart : List Token → ℕ → ℕ
  | [], _ => 0
  | _ :: _, 0 => 0
  | .lineBreak crlf :: rest, line + 1 => (crlf.toNat + 1) + lineStart rest line
  | .unit _ :: rest, line + 1 => 1 + lineStart rest (line + 1)

/-! ## Positions and offsets -/

structure LspPosition where
  line : ℤ
  character : ℤ
deriving DecidableEq, Repr

structure LspRange where
  start : LspPosition
  stop : LspPosition
deriving DecidableEq, Repr

/-- `offsetFromLspPositionInString`: lines and characters out of range are clamped. -/
def offsetFromLspPositionInString (text : JsString) (position : LspPosition) : ℕ :=
  let lines := splitTokens (tokens text)
  if lines.length = 0 then 0
  else
    let lineIndex := min (lines.length - 1) (max 0 position.line).toNat
    let line := lines[lineIndex]?.getD []
    lineStart (tokens text) lineIndex + min line.length (max 0 position.character).toNat

/-- `offsetFromLspPositionInStringStrict`: positions out of range are refused. -/
def offsetFromLspPositionInStringStrict (text : JsString) (position : LspPosition) : Option ℕ :=
  if position.line < 0 ∨ position.character < 0 then none
  else
    match (splitTokens (tokens text))[position.line.toNat]? with
    | none => none
    | some targetLine =>
        if position.character > targetLine.length then none
        else some (lineStart (tokens text) position.line.toNat + position.character.toNat)

/-- The loop of `positionFromStringOffset`: the line and its start. -/
def scanLoop : List Token → ℕ → ℕ → ℕ → ℕ → ℕ × ℕ
  | [], _, _, line, lineStart => (line, lineStart)
  | .lineBreak crlf :: rest, index, offset, line, lineStart =>
      if index < offset then
        scanLoop rest (index + (crlf.toNat + 1)) offset (line + 1) (index + (crlf.toNat + 1))
      else (line, lineStart)
  | .unit _ :: rest, index, offset, line, lineStart =>
      if index < offset then scanLoop rest (index + 1) offset line lineStart else (line, lineStart)

def positionFromStringOffset (text : JsString) (offset : ℕ) : LspPosition :=
  let (line, lineStart) := scanLoop (tokens text) 0 offset 0 0
  { line, character := offset - lineStart }

/-- The loop of `advanceStringPosition`. -/
def advanceLoop : List Token → ℕ → ℕ → LspPosition → LspPosition
  | [], _, _, position => position
  | .lineBreak crlf :: rest, index, toOffset, position =>
      if index < toOffset then
        advanceLoop rest (index + (crlf.toNat + 1)) toOffset ⟨position.line + 1, 0⟩
      else position
  | .unit _ :: rest, index, toOffset, position =>
      if index < toOffset then
        advanceLoop rest (index + 1) toOffset ⟨position.line, position.character + 1⟩
      else position

def advanceStringPosition (text : JsString) (position : LspPosition) (fromOffset toOffset : ℕ) :
    LspPosition :=
  advanceLoop (tokens (text.drop fromOffset)) fromOffset toOffset position

/-! ## Reading -/

/-- `Reads ts o line character rest`: after `o` code units of `ts` the position is `line` and
`character`, and `rest` is left. -/
inductive Reads : List Token → ℕ → ℕ → ℕ → List Token → Prop
  | start (ts : List Token) : Reads ts 0 0 0 ts
  | unit {ts rest : List Token} {o line character : ℕ} (c : UInt16)
      (h : Reads ts o line character rest) :
      Reads (.unit c :: ts) (o + 1) line (if line = 0 then character + 1 else character) rest
  | lineBreak {ts rest : List Token} {o line character : ℕ} (crlf : Bool)
      (h : Reads ts o line character rest) :
      Reads (.lineBreak crlf :: ts) (o + (crlf.toNat + 1)) (line + 1) character rest

namespace Reads

variable {ts rest rest' : List Token} {o o' line line' character character' : ℕ}

/-- On the first line the character is the offset. -/
theorem character_eq (h : Reads ts o line character rest) :
    character ≤ o ∧ (line = 0 → character = o) := by
  induction h with
  | start => exact ⟨le_rfl, fun _ => rfl⟩
  | unit c h ih =>
    split
    · next hzero => exact ⟨Nat.succ_le_succ ih.1, fun _ => congrArg (· + 1) (ih.2 hzero)⟩
    · next hne => exact ⟨ih.1.trans (Nat.le_succ _), fun hzero => absurd hzero hne⟩
  | lineBreak crlf h ih => exact ⟨ih.1.trans (Nat.le_add_right _ _), nofun⟩

/-- Reading goes on where it stopped. -/
theorem trans (h : Reads ts o line character rest) (h' : Reads rest o' line' character' rest') :
    Reads ts (o + o') (line + line') (if line' = 0 then character + character' else character')
      rest' := by
  induction h with
  | start ts => simpa using h'
  | @unit ts rest o line character c h ih =>
    have hnext := (ih h').unit c
    have ho : o + 1 + o' = o + o' + 1 := by omega
    have hc : (if line' = 0 then (if line = 0 then character + 1 else character) + character'
          else character')
        = if line + line' = 0 then (if line' = 0 then character + character' else character') + 1
          else if line' = 0 then character + character' else character' := by
      split_ifs <;> omega
    rwa [ho, hc]
  | @lineBreak ts rest o line character crlf h ih =>
    have hnext := (ih h').lineBreak crlf
    have ho : o + (crlf.toNat + 1) + o' = o + o' + (crlf.toNat + 1) := by omega
    have hl : line + 1 + line' = line + line' + 1 := by omega
    rwa [ho, hl]

/-- What was read is a prefix, and it reads the same before anything else. -/
theorem exists_append (h : Reads ts o line character rest) :
    ∃ pre, ts = pre ++ rest ∧ ∀ other, Reads (pre ++ other) o line character other := by
  induction h with
  | start ts => exact ⟨[], rfl, .start⟩
  | unit c h ih =>
    obtain ⟨pre, rfl, hother⟩ := ih
    exact ⟨.unit c :: pre, rfl, fun other => (hother other).unit c⟩
  | lineBreak crlf h ih =>
    obtain ⟨pre, rfl, hother⟩ := ih
    exact ⟨.lineBreak crlf :: pre, rfl, fun other => (hother other).lineBreak crlf⟩

/-- The scan for a line goes on where reading stopped. -/
theorem scanLoop (h : Reads ts o line character rest) (index more l start : ℕ) :
    Lsp.scanLoop ts index (index + o + more) l start
      = Lsp.scanLoop rest (index + o) (index + o + more) (l + line)
        (if line = 0 then start else index + o - character) := by
  induction h generalizing index l start with
  | start => rfl
  | @unit ts rest o line character c h ih =>
    have ho : index + (o + 1) = index + 1 + o := by omega
    rw [Lsp.scanLoop, if_pos (by omega), ho, ih]
    congr 1
    split_ifs <;> rfl
  | @lineBreak ts rest o line character crlf h ih =>
    have ho : index + (o + (crlf.toNat + 1)) = index + (crlf.toNat + 1) + o := by omega
    have hl : l + (line + 1) = l + 1 + line := by omega
    rw [Lsp.scanLoop, if_pos (by omega), ho, ih, hl, if_neg (Nat.succ_ne_zero line)]
    congr 1
    split
    · next hzero =>
      have := h.character_eq.2 hzero
      omega
    · rfl

/-- So does the advance from a known position. -/
theorem advanceLoop (h : Reads ts o line character rest) (index more : ℕ) (position : LspPosition) :
    Lsp.advanceLoop ts index (index + o + more) position
      = Lsp.advanceLoop rest (index + o) (index + o + more) ⟨position.line + line,
        if line = 0 then position.character + character else character⟩ := by
  induction h generalizing index position with
  | start => simp
  | @unit ts rest o line character c h ih =>
    have ho : index + (o + 1) = index + 1 + o := by omega
    rw [Lsp.advanceLoop, if_pos (by omega), ho, ih]
    congr 2
    split_ifs
    · push_cast
      omega
    · rfl
  | @lineBreak ts rest o line character crlf h ih =>
    have ho : index + (o + (crlf.toNat + 1)) = index + (crlf.toNat + 1) + o := by omega
    rw [Lsp.advanceLoop, if_pos (by omega), ho, ih, if_neg (Nat.succ_ne_zero line)]
    congr 2
    · push_cast
      omega
    · split
      · exact Int.zero_add _
      · rfl

end Reads

/-! ## Reading a text -/

/-- `offset` stands between the CR and the LF of a CRLF. -/
def SplitsCrlf (text : JsString) (offset : ℕ) : Prop :=
  0 < offset ∧ text[offset - 1]? = some cr ∧ text[offset]? = some lf

instance (text : JsString) (offset : ℕ) : Decidable (SplitsCrlf text offset) :=
  inferInstanceAs (Decidable (_ ∧ _ ∧ _))

theorem splitsCrlf_cons_iff (c : UInt16) (text : JsString) (offset : ℕ) :
    SplitsCrlf (c :: text) (offset + 1) ↔
      (offset = 0 ∧ c = cr ∧ text[0]? = some lf) ∨ SplitsCrlf text offset := by
  cases offset with
  | zero => simp [SplitsCrlf]
  | succ offset => simp [SplitsCrlf]

variable {o line character : ℕ}

private theorem reads_unitToken {ts rest : List Token} (c : UInt16)
    (h : Reads ts o line character rest) :
    ∃ line character, Reads (unitToken c :: ts) (o + 1) line character rest := by
  rw [unitToken]
  split
  · exact ⟨_, _, h.lineBreak false⟩
  · exact ⟨_, _, h.unit c⟩

theorem length_unitToken (c : UInt16) : (unitToken c).length = 1 := by
  rw [unitToken]
  split <;> rfl

/-- Reading stands at the start or has read the first token. -/
theorem Reads.of_cons {t : Token} {ts rest : List Token} (h : Reads (t :: ts) o line character rest) :
    (o = 0 ∧ rest = t :: ts) ∨
      ∃ o' line character, o = o' + t.length ∧ Reads ts o' line character rest := by
  cases h with
  | start => exact .inl ⟨rfl, rfl⟩
  | unit _ h => exact .inr ⟨_, _, _, rfl, h⟩
  | lineBreak _ h => exact .inr ⟨_, _, _, rfl, h⟩

variable {text : JsString}

/-- Every offset that does not split a CRLF has a position. -/
theorem exists_reads {o : ℕ} (ho : o ≤ text.length) (h : ¬ SplitsCrlf text o) :
    ∃ line character, Reads (tokens text) o line character (tokens (text.drop o)) := by
  fun_induction tokens text generalizing o with
  | case1 =>
    obtain rfl : o = 0 := Nat.le_zero.mp ho
    exact ⟨_, _, .start _⟩
  | case2 c =>
    rcases o with _ | o
    · exact ⟨_, _, .start _⟩
    · obtain rfl : o = 0 := Nat.le_zero.mp (Nat.le_of_succ_le_succ ho)
      exact reads_unitToken c (.start [])
  | case3 c d rest hcrlf ih =>
    obtain ⟨rfl, rfl⟩ := hcrlf
    rcases o with _ | _ | o
    · exact ⟨_, _, by rw [drop_zero, tokens, if_pos ⟨rfl, rfl⟩]; exact .start _⟩
    · exact absurd ⟨Nat.one_pos, rfl, rfl⟩ h
    · rw [splitsCrlf_cons_iff, splitsCrlf_cons_iff, not_or, not_or] at h
      obtain ⟨line, character, hreads⟩ :=
        ih (Nat.le_of_succ_le_succ (Nat.le_of_succ_le_succ ho)) h.2.2
      exact ⟨_, _, hreads.lineBreak true⟩
  | case4 c d rest hcrlf ih =>
    rcases o with _ | o
    · exact ⟨_, _, by rw [drop_zero, tokens, if_neg hcrlf]; exact .start _⟩
    · rw [splitsCrlf_cons_iff, not_or] at h
      obtain ⟨line, character, hreads⟩ := ih (Nat.le_of_succ_le_succ ho) h.2
      exact reads_unitToken c hreads

theorem not_splitsCrlf_zero (text : JsString) : ¬ SplitsCrlf text 0 :=
  fun h => Nat.lt_irrefl 0 h.1

/-- Only such offsets have one, and what is left are the tokens of what is left of the text. -/
theorem Reads.of_tokens {rest : List Token} (h : Reads (tokens text) o line character rest) :
    o ≤ text.length ∧ ¬ SplitsCrlf text o ∧ rest = tokens (text.drop o) := by
  fun_induction tokens text generalizing o line character with
  | case1 =>
    cases h with
    | start => exact ⟨le_rfl, not_splitsCrlf_zero _, rfl⟩
  | case2 c =>
    rcases h.of_cons with ⟨rfl, rfl⟩ | ⟨o, line, character, rfl, hread⟩
    · exact ⟨Nat.zero_le _, not_splitsCrlf_zero _, rfl⟩
    · rw [length_unitToken]
      cases hread with
      | start => exact ⟨le_rfl, by simp [SplitsCrlf], rfl⟩
  | case3 c d rest hcrlf ih =>
    obtain ⟨rfl, rfl⟩ := hcrlf
    cases h with
    | start =>
      refine ⟨Nat.zero_le _, not_splitsCrlf_zero _, ?_⟩
      rw [drop_zero, tokens, if_pos ⟨rfl, rfl⟩]
    | @lineBreak _ _ o _ _ _ h =>
      obtain ⟨hle, hsplit, hrest⟩ := ih h
      refine ⟨Nat.succ_le_succ (Nat.succ_le_succ hle), ?_, hrest⟩
      show ¬ SplitsCrlf _ (o + 1 + 1)
      rw [splitsCrlf_cons_iff, splitsCrlf_cons_iff]
      rintro (⟨hne, -⟩ | ⟨-, hne, -⟩ | h)
      · exact Nat.succ_ne_zero o hne
      · exact absurd hne (by decide)
      · exact hsplit h
  | case4 c d rest hcrlf ih =>
    rcases h.of_cons with ⟨rfl, rfl⟩ | ⟨o, line, character, rfl, hread⟩
    · refine ⟨Nat.zero_le _, not_splitsCrlf_zero _, ?_⟩
      rw [drop_zero, tokens, if_neg hcrlf]
    · rw [length_unitToken]
      obtain ⟨hle, hsplit, hrest⟩ := ih hread
      refine ⟨Nat.succ_le_succ hle, ?_, hrest⟩
      rw [splitsCrlf_cons_iff]
      rintro (⟨-, hc, hd⟩ | h)
      · exact hcrlf ⟨hc, Option.some.inj hd⟩
      · exact hsplit h

/-! ## Strict offsets -/

theorem splitTokens_ne_nil (ts : List Token) : splitTokens ts ≠ [] := by
  induction ts with
  | nil => exact cons_ne_nil _ _
  | cons t ts ih =>
    cases t with
    | lineBreak crlf => exact cons_ne_nil _ _
    | unit c =>
      rw [splitTokens, ← length_pos_iff, length_modifyHead]
      exact length_pos_iff.mpr ih

/-- `position` counts `o` code units: its line exists and is long enough. -/
def IsPosition (ts : List Token) (o line character : ℕ) : Prop :=
  ∃ text, (splitTokens ts)[line]? = some text ∧ character ≤ text.length ∧
    o = lineStart ts line + character

@[simp] theorem lineStart_zero (ts : List Token) : lineStart ts 0 = 0 := by
  cases ts with
  | nil => rfl
  | cons t ts => cases t <;> rfl

theorem Reads.isPosition {ts rest : List Token}
    (h : Reads ts o line character rest) : IsPosition ts o line character := by
  induction h with
  | start ts =>
    obtain ⟨first, lines, hlines⟩ := exists_cons_of_ne_nil (splitTokens_ne_nil ts)
    exact ⟨first, by rw [hlines]; rfl, Nat.zero_le _, (lineStart_zero ts).symm⟩
  | @unit ts rest o line character c h ih =>
    obtain ⟨text, hline, hle, rfl⟩ := ih
    rw [IsPosition, splitTokens]
    rcases line with _ | line
    · refine ⟨c :: text, by rw [getElem?_modifyHead_zero, hline]; rfl, ?_, ?_⟩
      · rw [if_pos rfl]
        exact Nat.succ_le_succ hle
      · simp
    · refine ⟨text, by rw [getElem?_modifyHead_succ, hline], ?_, ?_⟩
      · rwa [if_neg (Nat.succ_ne_zero line)]
      · rw [if_neg (Nat.succ_ne_zero line), lineStart]
        omega
  | @lineBreak ts rest o line character crlf h ih =>
    obtain ⟨text, hline, hle, rfl⟩ := ih
    refine ⟨text, by rw [splitTokens, getElem?_cons_succ, hline], hle, ?_⟩
    rw [lineStart]
    omega

theorem IsPosition.exists_reads {ts : List Token}
    (h : IsPosition ts o line character) : ∃ rest, Reads ts o line character rest := by
  induction ts generalizing o line character with
  | nil =>
    obtain ⟨text, hline, hle, rfl⟩ := h
    rcases line with _ | line
    · obtain rfl : [] = text := Option.some.inj hline
      obtain rfl : character = 0 := Nat.le_zero.mp hle
      exact ⟨[], .start []⟩
    · cases hline
  | cons t ts ih =>
    obtain ⟨text, hline, hle, rfl⟩ := h
    cases t with
    | lineBreak crlf =>
      rw [splitTokens] at hline
      rcases line with _ | line
      · obtain rfl : [] = text := Option.some.inj hline
        obtain rfl : character = 0 := Nat.le_zero.mp hle
        exact ⟨_, .start _⟩
      · obtain ⟨rest, hrest⟩ := ih ⟨text, hline, hle, rfl⟩
        have ho : lineStart (.lineBreak crlf :: ts) (line + 1) + character
            = lineStart ts line + character + (crlf.toNat + 1) := by
          rw [lineStart]
          omega
        exact ⟨rest, ho ▸ hrest.lineBreak crlf⟩
    | unit c =>
      rw [splitTokens] at hline
      rcases line with _ | line
      · rw [getElem?_modifyHead_zero, Option.map_eq_some_iff] at hline
        obtain ⟨text, hline, rfl⟩ := hline
        rcases character with _ | character
        · exact ⟨_, .start _⟩
        · obtain ⟨rest, hrest⟩ := ih ⟨text, hline, Nat.le_of_succ_le_succ hle, rfl⟩
          have hunit := hrest.unit c
          rw [if_pos rfl, lineStart_zero] at hunit
          rw [lineStart_zero]
          have ho : 0 + (character + 1) = 0 + character + 1 := by omega
          exact ⟨rest, ho ▸ hunit⟩
      · rw [getElem?_modifyHead_succ] at hline
        obtain ⟨rest, hrest⟩ := ih ⟨text, hline, hle, rfl⟩
        have hunit := hrest.unit c
        rw [if_neg (Nat.succ_ne_zero line)] at hunit
        have ho : lineStart (.unit c :: ts) (line + 1) + character
            = lineStart ts (line + 1) + character + 1 := by
          rw [lineStart]
          omega
        exact ⟨rest, ho ▸ hunit⟩

/-- The strict conversion accepts exactly the positions. -/
theorem offsetFromLspPositionInStringStrict_eq_some_iff {position : LspPosition} {o : ℕ} :
    offsetFromLspPositionInStringStrict text position = some o ↔
      ∃ line character : ℕ, position = ⟨line, character⟩ ∧
        IsPosition (tokens text) o line character := by
  rw [offsetFromLspPositionInStringStrict]
  constructor
  · intro h
    split at h
    · cases h
    next hneg =>
    rw [not_or, not_lt, not_lt] at hneg
    split at h
    · cases h
    next targetLine hline =>
    split at h
    · cases h
    next hle =>
    refine ⟨position.line.toNat, position.character.toNat, ?_, targetLine, hline, by omega,
      (Option.some.inj h).symm⟩
    rw [Int.toNat_of_nonneg hneg.1, Int.toNat_of_nonneg hneg.2]
  · rintro ⟨line, character, rfl, targetLine, hline, hle, rfl⟩
    rw [if_neg (by simp)]
    simp only [Int.toNat_natCast, hline]
    rw [if_neg (by omega)]

/-- The clamping conversion agrees on positions. -/
theorem offsetFromLspPositionInString_eq (h : IsPosition (tokens text) o line character) :
    offsetFromLspPositionInString text ⟨line, character⟩ = o := by
  obtain ⟨targetLine, hline, hle, rfl⟩ := h
  obtain ⟨hlt, -⟩ := List.getElem?_eq_some_iff.mp hline
  have hindex : min ((splitTokens (tokens text)).length - 1) (max 0 (line : ℤ)).toNat = line := by
    omega
  have hchar : min targetLine.length (max 0 (character : ℤ)).toNat = character := by omega
  rw [offsetFromLspPositionInString, if_neg (by omega)]
  simp only [hindex, hline, Option.getD_some, hchar]

/-- Read to its end, a text stands at the end of its last line. -/
theorem Reads.of_end {ts rest : List Token} (h : Reads ts o line character rest) (hend : rest = []) :
    (splitTokens ts).length = line + 1 ∧
      ∃ last, (splitTokens ts).getLast? = some last ∧ last.length = character := by
  induction h with
  | start ts =>
    subst hend
    exact ⟨rfl, [], rfl, rfl⟩
  | @unit ts rest o line character c h ih =>
    obtain ⟨hlength, last, hlast, rfl⟩ := ih hend
    rw [splitTokens, length_modifyHead]
    refine ⟨hlength, ?_⟩
    obtain ⟨first, lines, hlines⟩ := exists_cons_of_ne_nil (splitTokens_ne_nil ts)
    rw [hlines] at hlength hlast
    rw [hlines, modifyHead_cons]
    rcases lines with _ | ⟨second, lines⟩
    · obtain rfl : line = 0 := by simpa using hlength.symm
      obtain rfl : first = last := Option.some.inj hlast
      exact ⟨c :: first, rfl, rfl⟩
    · have hline : line ≠ 0 := by
        rintro rfl
        cases hlength
      exact ⟨last, hlast, (if_neg hline).symm⟩
  | @lineBreak ts rest o line character crlf h ih =>
    obtain ⟨hlength, last, hlast, rfl⟩ := ih hend
    obtain ⟨first, lines, hlines⟩ := exists_cons_of_ne_nil (splitTokens_ne_nil ts)
    rw [splitTokens, length_cons, hlength]
    refine ⟨rfl, last, ?_, rfl⟩
    rw [hlines] at hlast ⊢
    exact hlast

/-! ## Positions of offsets -/

theorem scanLoop_of_le (ts : List Token) {index offset : ℕ} (h : offset ≤ index)
    (line start : ℕ) : scanLoop ts index offset line start = (line, start) := by
  rcases ts with _ | ⟨_ | _, ts⟩ <;> simp [scanLoop, Nat.not_lt.mpr h]

theorem advanceLoop_of_le (ts : List Token) {index toOffset : ℕ} (h : toOffset ≤ index)
    (position : LspPosition) : advanceLoop ts index toOffset position = position := by
  rcases ts with _ | ⟨_ | _, ts⟩ <;> simp [advanceLoop, Nat.not_lt.mpr h]

theorem Reads.strict {rest : List Token} (h : Reads (tokens text) o line character rest) :
    offsetFromLspPositionInStringStrict text ⟨line, character⟩ = some o :=
  offsetFromLspPositionInStringStrict_eq_some_iff.mpr ⟨line, character, rfl, h.isPosition⟩

theorem Reads.positionFromStringOffset {rest : List Token}
    (h : Reads (tokens text) o line character rest) :
    Lsp.positionFromStringOffset text o = ⟨line, character⟩ := by
  have hscan := h.scanLoop 0 0 0 0
  rw [Nat.zero_add, Nat.add_zero, scanLoop_of_le _ le_rfl, Nat.zero_add] at hscan
  obtain ⟨hle, hzero⟩ := h.character_eq
  rw [Lsp.positionFromStringOffset, hscan]
  simp only [LspPosition.mk.injEq, true_and]
  split
  · next hline =>
    rw [hzero hline]
    simp
  · omega

theorem splitsCrlf_drop_iff {s more : ℕ} (h : 0 < more) :
    SplitsCrlf (text.drop s) more ↔ SplitsCrlf text (s + more) := by
  have hpos : 0 < s + more := Nat.lt_of_lt_of_le h (Nat.le_add_left _ _)
  rw [SplitsCrlf, SplitsCrlf, getElem?_drop, getElem?_drop, ← Nat.add_sub_assoc h]
  exact ⟨fun hsplit => ⟨hpos, hsplit.2⟩, fun hsplit => ⟨h, hsplit.2⟩⟩

/-- Before an offset that splits a CRLF stands the CRLF. -/
theorem SplitsCrlf.exists_reads {o : ℕ} (h : SplitsCrlf text (o + 1)) :
    o + 2 ≤ text.length ∧ ∃ line character, Reads (tokens text) o line character
      (.lineBreak true :: tokens (text.drop (o + 2))) := by
  obtain ⟨-, hcr, hlf⟩ := h
  rw [Nat.add_sub_cancel] at hcr
  obtain ⟨hcrLt, hcrEq⟩ := List.getElem?_eq_some_iff.mp hcr
  obtain ⟨hlfLt, hlfEq⟩ := List.getElem?_eq_some_iff.mp hlf
  have hsplit : ¬ SplitsCrlf text o := by
    rintro ⟨-, -, hlf'⟩
    rw [hcr] at hlf'
    exact absurd (Option.some.inj hlf') (by decide)
  have hdrop : tokens (text.drop o) = .lineBreak true :: tokens (text.drop (o + 2)) := by
    rw [drop_eq_getElem_cons hcrLt, drop_eq_getElem_cons hlfLt, hcrEq, hlfEq, tokens,
      if_pos ⟨rfl, rfl⟩]
  refine ⟨hlfLt, ?_⟩
  rw [← hdrop]
  exact Lsp.exists_reads hcrLt.le hsplit

/-- A position inside a CRLF gets a negative character, which the strict conversion refuses. -/
theorem SplitsCrlf.strict_positionFromStringOffset {o : ℕ} (h : SplitsCrlf text o) :
    offsetFromLspPositionInStringStrict text (positionFromStringOffset text o) = none := by
  obtain ⟨o, rfl⟩ := Nat.exists_eq_succ_of_ne_zero h.1.ne'
  obtain ⟨-, line, character, hreads⟩ := h.exists_reads
  have hscan := hreads.scanLoop 0 1 0 0
  rw [scanLoop, if_pos (Nat.lt_succ_self _), scanLoop_of_le _ (Nat.add_le_add_left (by decide) _),
    Nat.zero_add] at hscan
  have hneg : (positionFromStringOffset text (o + 1)).character < 0 := by
    rw [positionFromStringOffset, hscan]
    show ((o + 1 : ℕ) : ℤ) - ((o + (1 + 1) : ℕ) : ℤ) < 0
    omega
  exact if_pos (.inr hneg)

/-- The end of a range: the advance from its start counts up to the end. -/
theorem Reads.strict_advanceStringPosition {s e line character : ℕ}
    {rest : List Token} (h : Reads (tokens text) s line character rest) (hse : s ≤ e)
    (he : e ≤ text.length) (hsplit : ¬ SplitsCrlf text e) : offsetFromLspPositionInStringStrict text
      (advanceStringPosition text ⟨line, character⟩ s e) = some e := by
  obtain ⟨-, -, rfl⟩ := h.of_tokens
  obtain ⟨more, rfl⟩ := Nat.exists_eq_add_of_le hse
  obtain ⟨line', character', hmore⟩ := exists_reads (by rw [length_drop]; omega)
    fun hdrop => hsplit ((splitsCrlf_drop_iff hdrop.1).mp hdrop)
  have hadvance := hmore.advanceLoop s 0 ⟨line, character⟩
  rw [Nat.add_zero, advanceLoop_of_le _ le_rfl] at hadvance
  rw [advanceStringPosition, hadvance]
  have hstrict := (h.trans hmore).strict
  have hcast : ((if line' = 0 then character + character' else character' : ℕ) : ℤ)
      = if line' = 0 then (character : ℤ) + character' else character' := by
    split <;> rfl
  rwa [Int.natCast_add, hcast] at hstrict

/-- An end inside a CRLF is carried past it. -/
theorem Reads.strict_advanceStringPosition_splits {s e line character : ℕ}
    {rest : List Token} (h : Reads (tokens text) s line character rest) (hse : s ≤ e)
    (hsplit : SplitsCrlf text e) : offsetFromLspPositionInStringStrict text
      (advanceStringPosition text ⟨line, character⟩ s e) = some (e + 1) := by
  obtain ⟨-, hstart, rfl⟩ := h.of_tokens
  obtain ⟨_ | more, rfl⟩ := Nat.exists_eq_add_of_le hse
  · exact absurd hsplit hstart
  obtain ⟨-, line', character', hmore⟩ :=
    ((splitsCrlf_drop_iff (Nat.succ_pos more)).mpr hsplit).exists_reads
  have hadvance := hmore.advanceLoop s 1 ⟨line, character⟩
  have hbreak := advanceLoop_of_le (tokens ((text.drop s).drop (more + 2)))
    (show s + more + 1 ≤ s + more + (true.toNat + 1) from Nat.add_le_add_left (by decide) _)
    ⟨line + line' + 1, 0⟩
  have hstrict := (h.trans (hmore.trans ((Reads.start _).lineBreak true))).strict
  rw [if_neg (by omega), if_neg (Nat.succ_ne_zero _)] at hstrict
  rw [advanceStringPosition]
  show offsetFromLspPositionInStringStrict text (Lsp.advanceLoop _ s (s + more + 1) _) = _
  rw [hadvance, Lsp.advanceLoop, if_pos (Nat.lt_succ_self _), hbreak]
  exact hstrict

end Taomni.Lsp
