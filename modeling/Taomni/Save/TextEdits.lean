import Taomni.Lsp.TextEdits

/-!
# Text edits in the save pipeline

Reference: `applyLspTextEditsToString` of `components/editor/workspace/saveNormalizationPipeline.ts`.

The save pipeline has its own version of the function of `lspTextEdits.ts`. It takes all offsets from
the text before the first edit, and a line past the last one stands for the end of the text. The other
version resolves every edit in the text edited so far, and a line past the last one is the last line.
-/

namespace Taomni.SaveNormalization

open List
open JsString (cr lf splitLines)
open Lsp (LspPosition LspRange LspTextEdit tokens unitToken splitTokens lineStart)
open Lsp (offsetFromLspPositionInString offsetFromLspPositionInStringStrict)

/-! ## The second version -/

/-- The loop of `getOffset`: the lines before the target, each with its `\n`. -/
@[grind =] def lineOffset : List JsString → ℕ → ℕ
  | [], _ => 0
  | _ :: _, 0 => 0
  | line :: rest, targetLine + 1 => line.length + 1 + lineOffset rest targetLine

/-- `getOffset`. Positions are unsigned numbers on the native side, where they come from. -/
def getOffset (text : JsString) (pos : LspPosition) : ℕ :=
  let lines := splitLines text
  let targetLine := min pos.line.toNat lines.length
  let offset := lineOffset lines targetLine
  let offset := match lines[pos.line.toNat]? with
    | some line => offset + min pos.character.toNat line.length
    | none => offset
  min offset text.length

/-- An element of `offsetEdits`. -/
def offsetEdit (text : JsString) (edit : LspTextEdit) : Splice UInt16 where
  start := getOffset text edit.range.start
  stop := getOffset text edit.range.stop
  insert := edit.newText

/-- The comparator of the sort: `b.start - a.start || b.end - a.end`. -/
def compareOffsets (a b : Splice UInt16) : ℤ :=
  if (b.start : ℤ) - a.start ≠ 0 then (b.start : ℤ) - a.start else (b.stop : ℤ) - a.stop

/-- One round of the loop. -/
def applyOffsetEdit (result : JsString) (edit : Splice UInt16) : JsString :=
  result.take edit.start ++ edit.insert ++ result.drop edit.stop

/-- `applyLspTextEditsToString` of the save pipeline; `sort` is stable, so an insertion sort by the
comparator. -/
def applyLspTextEditsToString (text : JsString) (edits : List LspTextEdit) : JsString :=
  if edits = [] then text
  else
    ((edits.map (offsetEdit text)).insertionSort fun a b => compareOffsets a b ≤ 0).foldl
      applyOffsetEdit text

/-! ## Texts with LF only -/

variable {text : JsString}

theorem tokens_eq_map (hlf : cr ∉ text) : tokens text = text.map unitToken := by
  have happend := Lsp.tokens_append hlf []
  rwa [append_nil, tokens, append_nil] at happend

theorem splitTokens_tokens (hlf : cr ∉ text) : splitTokens (tokens text) = splitLines text := by
  rw [tokens_eq_map hlf, splitLines]
  induction text with
  | nil => rfl
  | cons c text ih =>
    obtain ⟨hc, hrest⟩ := ne_and_not_mem_of_not_mem_cons hlf
    rw [map_cons, splitOn_cons_eq_if_modifyHead, ← ih hrest, unitToken]
    by_cases h : c = lf
    · rw [if_pos (.inr h), if_pos (beq_iff_eq.mpr h)]
      rfl
    · rw [if_neg (not_or.mpr ⟨hc.symm, h⟩), if_neg (mt beq_iff_eq.mp h)]
      rfl

/-- Every line but the last one is followed by a line break. -/
theorem lineStart_tokens (hlf : cr ∉ text) {line : ℕ} (hline : line < (splitLines text).length) :
    lineStart (tokens text) line = lineOffset (splitLines text) line := by
  rw [tokens_eq_map hlf]
  rw [splitLines] at hline ⊢
  induction text generalizing line with
  | nil =>
    obtain rfl : line = 0 := Nat.lt_one_iff.mp hline
    rfl
  | cons c text ih =>
    obtain ⟨hc, hrest⟩ := ne_and_not_mem_of_not_mem_cons hlf
    rw [splitOn_cons_eq_if_modifyHead] at hline ⊢
    by_cases h : c = lf
    · rw [if_pos (beq_iff_eq.mpr h)] at hline ⊢
      rw [map_cons, unitToken, if_pos (.inr h)]
      cases line with
      | zero => rfl
      | succ line => rw [lineStart, lineOffset, ih hrest (Nat.lt_of_succ_lt_succ hline)]; rfl
    · rw [if_neg (mt beq_iff_eq.mp h)] at hline ⊢
      rw [length_modifyHead] at hline
      rw [map_cons, unitToken, if_neg (not_or.mpr ⟨hc.symm, h⟩)]
      have htail := ih hrest hline
      obtain ⟨first, lines, hlines⟩ := exists_cons_of_ne_nil (JsString.splitLines_ne_nil text)
      rw [splitLines] at hlines
      rw [hlines] at htail ⊢
      cases line with
      | zero => rfl
      | succ line =>
        rw [lineStart, htail, modifyHead_cons, lineOffset, lineOffset, length_cons]
        omega

theorem lineOffset_length (text : JsString) :
    lineOffset (splitLines text) (splitLines text).length = text.length + 1 := by
  rw [splitLines]
  induction text with
  | nil => rfl
  | cons c text ih =>
    rw [splitOn_cons_eq_if_modifyHead]
    obtain ⟨first, lines, hlines⟩ := exists_cons_of_ne_nil (JsString.splitLines_ne_nil text)
    rw [splitLines] at hlines
    rw [hlines, length_cons, lineOffset] at ih
    split
    · rw [hlines, length_cons, length_cons, lineOffset, lineOffset, ih, length_cons,
        length_nil]
      omega
    · rw [hlines, modifyHead_cons, length_cons, lineOffset, length_cons,
        length_cons]
      omega

theorem lineOffset_succ {lines : List JsString} {line : ℕ} (h : lines[line]? = some text) :
    lineOffset lines (line + 1) = lineOffset lines line + text.length + 1 := by
  induction lines generalizing line with
  | nil => cases h
  | cons first rest ih =>
    cases line with
    | zero =>
      obtain rfl := Option.some.inj h
      cases rest <;> simp [lineOffset]
    | succ line =>
      rw [lineOffset, lineOffset, ih h]
      omega

theorem lineOffset_mono (lines : List JsString) {line line' : ℕ} (h : line ≤ line') :
    lineOffset lines line ≤ lineOffset lines line' := by
  induction lines generalizing line line' with
  | nil => exact le_rfl
  | cons first rest ih =>
    cases line with
    | zero => exact Nat.zero_le _
    | succ line =>
      cases line' with
      | zero => exact absurd h (Nat.not_succ_le_zero line)
      | succ line' =>
        rw [lineOffset, lineOffset]
        exact Nat.add_le_add_left (ih (Nat.le_of_succ_le_succ h)) _

/-!
# Where the two versions of applying text edits agree

Reference: `components/editor/workspace/lspTextEdits.ts` and `saveNormalizationPipeline.ts`.

On a text with LF only the versions read every position alike, except for one: on a line past the last one
the first version still counts the character, from the start of the last line. And a position past the end
of its line moves in the first version when an edit before it has changed the text right there.
-/

open Lsp (LspPosition LspRange LspTextEdit IsPosition tokens unitToken splitTokens lineStart)

/-! ## Positions -/

/-- The order of positions. -/
def PositionLe (p q : LspPosition) : Prop :=
  p.line < q.line ∨ (p.line = q.line ∧ p.character ≤ q.character)

/-- A range as a server sends it: unsigned numbers, the start not after the end. -/
structure ValidRange (range : LspRange) : Prop where
  start : 0 ≤ range.start.line ∧ 0 ≤ range.start.character
  stop : 0 ≤ range.stop.line ∧ 0 ≤ range.stop.character
  forward : PositionLe range.start range.stop

def RangesApart (r s : LspRange) : Prop := PositionLe r.stop s.start ∨ PositionLe s.stop r.start

/-- The text has no such position: the line is missing or too short. -/
def Past (text : JsString) (pos : LspPosition) : Prop :=
  ∀ line ∈ (splitLines text)[pos.line.toNat]?, line.length < pos.character.toNat

instance (text : JsString) (pos : LspPosition) : Decidable (Past text pos) :=
  inferInstanceAs (Decidable (∀ line ∈ (splitLines text)[pos.line.toNat]?, _))

/-- The line is past the last one, and the last line is longer than the character. -/
def ClampedInside (text : JsString) (pos : LspPosition) : Prop :=
  (splitLines text).length ≤ pos.line.toNat ∧
    ∃ last ∈ (splitLines text).getLast?, pos.character.toNat < last.length

instance (text : JsString) (pos : LspPosition) : Decidable (ClampedInside text pos) :=
  inferInstanceAs (Decidable (_ ∧ ∃ last ∈ (splitLines text).getLast?, _))

section Offsets

variable {text : JsString} {pos : LspPosition} {line : JsString}

theorem offset_of_line (h : (splitTokens (tokens text))[pos.line.toNat]? = some line) :
    offsetFromLspPositionInString text pos =
      lineStart (tokens text) pos.line.toNat + min line.length pos.character.toNat := by
  obtain ⟨hlt, -⟩ := List.getElem?_eq_some_iff.mp h
  have hindex : min ((splitTokens (tokens text)).length - 1) (max 0 pos.line).toNat
      = pos.line.toNat := by
    omega
  have hchar : (max 0 pos.character).toNat = pos.character.toNat := by omega
  rw [offsetFromLspPositionInString, if_neg (by omega)]
  simp only [hindex, h, Option.getD_some, hchar]

theorem getOffset_of_line (h : (splitLines text)[pos.line.toNat]? = some line) : getOffset text pos =
      lineOffset (splitLines text) pos.line.toNat + min pos.character.toNat line.length := by
  obtain ⟨hlt, -⟩ := List.getElem?_eq_some_iff.mp h
  have hend := lineOffset_mono (splitLines text) (Nat.succ_le_of_lt hlt)
  rw [lineOffset_length, Nat.succ_eq_add_one, lineOffset_succ h] at hend
  have htarget : min pos.line.toNat (splitLines text).length = pos.line.toNat :=
    min_eq_left hlt.le
  rw [getOffset]
  simp only [htarget, h]
  have hle : lineOffset (splitLines text) pos.line.toNat + min pos.character.toNat line.length
      ≤ text.length := by
    omega
  exact Nat.min_eq_left hle

/-- A line ends inside the text. -/
theorem line_end_le (h : (splitLines text)[pos.line.toNat]? = some line) :
    lineOffset (splitLines text) pos.line.toNat + line.length ≤ text.length := by
  obtain ⟨hlt, -⟩ := List.getElem?_eq_some_iff.mp h
  have hend := lineOffset_mono (splitLines text) (Nat.succ_le_of_lt hlt)
  rw [lineOffset_length, Nat.succ_eq_add_one, lineOffset_succ h] at hend
  omega

theorem getOffset_of_le (h : (splitLines text).length ≤ pos.line.toNat) :
    getOffset text pos = text.length := by
  have hnone : (splitLines text)[pos.line.toNat]? = none := getElem?_eq_none h
  rw [getOffset]
  simp only [min_eq_right h, hnone, lineOffset_length]
  exact min_eq_right (Nat.le_succ _)

theorem getOffset_le (text : JsString) (pos : LspPosition) : getOffset text pos ≤ text.length :=
  min_le_right _ _

/-- The last line reaches to the end of the text. -/
theorem lineOffset_last {last : JsString} (h : (splitLines text).getLast? = some last) :
    (splitLines text)[(splitLines text).length - 1]? = some last ∧
      lineOffset (splitLines text) ((splitLines text).length - 1) + last.length = text.length := by
  have hlast : (splitLines text)[(splitLines text).length - 1]? = some last := by
    rwa [← getLast?_eq_getElem?]
  have hpos := length_pos_iff.mpr (JsString.splitLines_ne_nil text)
  have hsucc := lineOffset_succ hlast
  rw [Nat.sub_add_cancel hpos, lineOffset_length] at hsucc
  exact ⟨hlast, by omega⟩

theorem offset_of_le (hlf : cr ∉ text) (h : (splitLines text).length ≤ pos.line.toNat)
    {last : JsString} (hlast : (splitLines text).getLast? = some last) :
    offsetFromLspPositionInString text pos =
      text.length - last.length + min last.length pos.character.toNat := by
  obtain ⟨hline, hend⟩ := lineOffset_last hlast
  have hpos := length_pos_iff.mpr (JsString.splitLines_ne_nil text)
  have hindex : min ((splitLines text).length - 1) (max 0 pos.line).toNat
      = (splitLines text).length - 1 := by
    omega
  have hchar : (max 0 pos.character).toNat = pos.character.toNat := by omega
  rw [offsetFromLspPositionInString, if_neg (by rw [splitTokens_tokens hlf]; omega)]
  simp only [splitTokens_tokens hlf, hindex, hline, Option.getD_some, hchar]
  rw [lineStart_tokens hlf (by omega)]
  omega

/-- The versions read a position alike unless the first one clamps it inside the last line. -/
theorem offset_eq_iff (hlf : cr ∉ text) :
    offsetFromLspPositionInString text pos = getOffset text pos ↔ ¬ClampedInside text pos := by
  rcases Nat.lt_or_ge pos.line.toNat (splitLines text).length with hlt | hge
  · obtain ⟨line, hline⟩ : ∃ line, (splitLines text)[pos.line.toNat]? = some line :=
      ⟨_, getElem?_eq_getElem hlt⟩
    refine iff_of_true ?_ fun h => absurd h.1 (Nat.not_le_of_lt hlt)
    rw [getOffset_of_line hline, offset_of_line ((splitTokens_tokens hlf).symm ▸ hline),
      lineStart_tokens hlf hlt, min_comm]
  · obtain ⟨last, hlast⟩ : ∃ last, (splitLines text).getLast? = some last :=
      ⟨_, getLast?_eq_some_getLast (JsString.splitLines_ne_nil text)⟩
    have hend := (lineOffset_last hlast).2
    rw [offset_of_le hlf hge hlast, getOffset_of_le hge, ClampedInside, hlast]
    constructor
    · rintro heq ⟨-, last', hlast', hlt⟩
      obtain rfl := Option.some.inj hlast'
      omega
    · intro hnot
      by_contra hne
      exact hnot ⟨hge, last, rfl, by omega⟩

/-! ## The order of offsets -/

/-- A later position has a later offset. -/
theorem getOffset_mono (text : JsString) {p q : LspPosition} (hp : 0 ≤ p.line) (h : PositionLe p q) :
    getOffset text p ≤ getOffset text q := by
  rcases Nat.lt_or_ge q.line.toNat (splitLines text).length with hlt | hge
  swap
  · rw [getOffset_of_le hge]
    exact getOffset_le text p
  obtain ⟨line, hline⟩ : ∃ line, (splitLines text)[q.line.toNat]? = some line :=
    ⟨_, getElem?_eq_getElem hlt⟩
  rw [getOffset_of_line hline]
  rcases h with hbefore | ⟨hsame, hcharacter⟩
  · have hsucc : p.line.toNat + 1 ≤ q.line.toNat := by omega
    obtain ⟨line', hline'⟩ : ∃ line, (splitLines text)[p.line.toNat]? = some line :=
      ⟨_, getElem?_eq_getElem (by omega)⟩
    have hmono := lineOffset_mono (splitLines text) hsucc
    rw [lineOffset_succ hline'] at hmono
    rw [getOffset_of_line hline']
    omega
  · rw [getOffset_of_line (hsame ▸ hline), hsame]
    omega

/-- Two positions at one offset: the one behind the other is past its line when the first one is. -/
theorem Past.of_le {p q : LspPosition} (hpast : Past text p) (hp : 0 ≤ p.line)
    (h : PositionLe p q) (heq : getOffset text p = getOffset text q) : Past text q := by
  intro line hline
  rcases h with hbefore | ⟨hsame, hcharacter⟩
  · obtain ⟨hlt, -⟩ := List.getElem?_eq_some_iff.mp hline
    obtain ⟨line', hline'⟩ : ∃ line, (splitLines text)[p.line.toNat]? = some line :=
      ⟨_, getElem?_eq_getElem (by omega)⟩
    have hsucc : p.line.toNat + 1 ≤ q.line.toNat := by omega
    have hmono := lineOffset_mono (splitLines text) hsucc
    rw [lineOffset_succ hline'] at hmono
    rw [getOffset_of_line hline', getOffset_of_line hline] at heq
    omega
  · have := hpast line (hsame ▸ hline)
    omega

end Offsets

/-! ## Positions in a text edited behind them -/

theorem lineStart_succ_le {ts : List Lsp.Token} {line : ℕ} {first next : JsString}
    (hline : (splitTokens ts)[line]? = some first) (hnext : (splitTokens ts)[line + 1]? = some next) :
    lineStart ts line + first.length + 1 ≤ lineStart ts (line + 1) := by
  induction ts generalizing line first with
  | nil => cases hnext
  | cons t ts ih =>
    cases t with
    | lineBreak crlf =>
      rw [splitTokens] at hline hnext
      rw [lineStart]
      cases line with
      | zero =>
        obtain rfl := Option.some.inj hline
        rw [Lsp.lineStart_zero, length_nil]
        omega
      | succ line =>
        have := ih hline hnext
        rw [lineStart]
        omega
    | unit c =>
      rw [splitTokens, getElem?_modifyHead_succ] at hnext
      rw [splitTokens] at hline
      rw [lineStart]
      cases line with
      | zero =>
        rw [getElem?_modifyHead_zero, Option.map_eq_some_iff] at hline
        obtain ⟨first, hline, rfl⟩ := hline
        have := ih hline hnext
        rw [Lsp.lineStart_zero] at this ⊢
        rw [length_cons]
        omega
      | succ line =>
        rw [getElem?_modifyHead_succ] at hline
        have := ih hline hnext
        rw [lineStart]
        omega

variable {tail : JsString}

/-- A line that ends before the edits keeps its end. -/
theorem offset_take_append_of_lt (hlf : cr ∉ text) {pos : LspPosition}
    {line : JsString} {k : ℕ} (hline : (splitLines text)[pos.line.toNat]? = some line)
    (hlong : line.length ≤ pos.character.toNat)
    (hk : lineOffset (splitLines text) pos.line.toNat + line.length < k) (hkn : k ≤ text.length) :
    offsetFromLspPositionInString (text.take k ++ tail) pos =
      lineOffset (splitLines text) pos.line.toNat + line.length := by
  obtain ⟨hlt, -⟩ := List.getElem?_eq_some_iff.mp hline
  have hsucc := lineOffset_succ hline
  have hnextLt : pos.line.toNat + 1 < (splitLines text).length := by
    by_contra hnot
    have hlast : pos.line.toNat + 1 = (splitLines text).length := by omega
    rw [hlast, lineOffset_length] at hsucc
    omega
  obtain ⟨next, hnext⟩ : ∃ next, (splitLines text)[pos.line.toNat + 1]? = some next :=
    ⟨_, getElem?_eq_getElem hnextLt⟩
  rw [← splitTokens_tokens hlf] at hline hnext
  -- both ends of the line break are positions of the edited text
  obtain ⟨line', hline', hle, hstart⟩ := Lsp.isPosition_take_append hlf
    ⟨line, hline, le_rfl, by rw [lineStart_tokens hlf hlt]⟩ hk.le tail
  obtain ⟨next', hnext', -, hstop⟩ := Lsp.isPosition_take_append hlf
    ⟨next, hnext, Nat.zero_le _, by rw [lineStart_tokens hlf hnextLt]; rfl⟩
    (show lineOffset (splitLines text) (pos.line.toNat + 1) ≤ k by omega) tail
  have hgap := lineStart_succ_le hline' hnext'
  rw [offset_of_line hline']
  omega

/-- A position is the same one in the edited text, unless it is past its line where the edits start. -/
theorem offset_take_append (hlf : cr ∉ text) {pos : LspPosition}
    {k : ℕ} (hpos : 0 ≤ pos.line ∧ 0 ≤ pos.character) (hplaced : ¬ClampedInside text pos)
    (hkn : k ≤ text.length) (hle : getOffset text pos ≤ k)
    (hsafe : Past text pos → getOffset text pos = k → k = text.length ∧ tail = []) :
    offsetFromLspPositionInString (text.take k ++ tail) pos = getOffset text pos := by
  by_cases hpast : Past text pos
  · rcases Nat.lt_or_ge (getOffset text pos) k with hlt | hge
    · rcases Nat.lt_or_ge pos.line.toNat (splitLines text).length with hline | hline
      · obtain ⟨line, hline⟩ : ∃ line, (splitLines text)[pos.line.toNat]? = some line :=
          ⟨_, getElem?_eq_getElem hline⟩
        have hlong := hpast line hline
        rw [getOffset_of_line hline, min_eq_right hlong.le] at hlt ⊢
        exact offset_take_append_of_lt hlf hline hlong.le hlt hkn
      · rw [getOffset_of_le hline] at hlt
        omega
    · obtain ⟨rfl, rfl⟩ := hsafe hpast (Nat.le_antisymm hle hge)
      rw [take_length, append_nil]
      exact (offset_eq_iff hlf).mpr hplaced
  · rw [Past] at hpast
    push Not at hpast
    obtain ⟨line, hline, hshort⟩ := hpast
    have hgoal := getOffset_of_line hline
    rw [min_eq_left hshort] at hgoal
    rw [hgoal] at hle ⊢
    have hlt := (List.getElem?_eq_some_iff.mp hline).1
    have hposition : IsPosition (tokens text)
        (lineOffset (splitLines text) pos.line.toNat + pos.character.toNat) pos.line.toNat
        pos.character.toNat :=
      ⟨line, (splitTokens_tokens hlf).symm ▸ hline, hshort, by rw [lineStart_tokens hlf hlt]⟩
    have hnat : pos = ⟨pos.line.toNat, pos.character.toNat⟩ := by
      rw [Int.toNat_of_nonneg hpos.1, Int.toNat_of_nonneg hpos.2]
    rw [hnat]
    exact Lsp.offsetFromLspPositionInString_eq
      (Lsp.isPosition_take_append hlf hposition hle tail)

/-! ## Edits -/

/-- In the second version the edit of `r` is applied before the one of `s` behind it in the list. -/
def GoesFirst (text : JsString) (r s : LspRange) : Prop :=
  getOffset text s.start < getOffset text r.start ∨
    (getOffset text r.start = getOffset text s.start ∧
      getOffset text s.stop ≤ getOffset text r.stop)

instance (text : JsString) : DecidableRel (GoesFirst text) :=
  fun _ _ => inferInstanceAs (Decidable (_ ∨ _))

/-- The range of `s` ends past its line, where `r` starts. -/
def Touches (text : JsString) (r s : LspRange) : Prop :=
  Past text s.stop ∧ getOffset text s.stop = getOffset text r.start

instance (text : JsString) (r s : LspRange) : Decidable (Touches text r s) :=
  inferInstanceAs (Decidable (_ ∧ _))

/-- No position is clamped inside the last line, and no edit ends past its line where an edit applied
before it starts. -/
structure SamePlaces (text : JsString) (ranges : List LspRange) : Prop where
  inside : ∀ r ∈ ranges, ¬ClampedInside text r.start ∧ ¬ClampedInside text r.stop
  untouched : ranges.Pairwise fun r s =>
    if GoesFirst text r s then ¬Touches text r s else ¬Touches text s r

theorem compareOffsets_le_iff {a b : LspTextEdit} :
    compareOffsets (offsetEdit text a) (offsetEdit text b) ≤ 0 ↔ GoesFirst text a.range b.range := by
  rw [compareOffsets, GoesFirst, offsetEdit, offsetEdit]
  simp only
  split <;> omega

theorem clampedSplice_eq (hlf : cr ∉ text) {edit : LspTextEdit}
    (hstart : ¬ClampedInside text edit.range.start) (hstop : ¬ClampedInside text edit.range.stop) :
    Lsp.clampedSplice text edit = offsetEdit text edit := by
  rw [Lsp.clampedSplice, offsetEdit, (offset_eq_iff hlf).mpr hstart, (offset_eq_iff hlf).mpr hstop]

/-- The edits are applied from the end of the text: one does not reach into the one before it. -/
theorem stop_le_of_goesFirst {r s : LspRange} (hr : ValidRange r)
    (hs : ValidRange s) (hapart : RangesApart r s) (hfirst : GoesFirst text r s) :
    getOffset text s.stop ≤ getOffset text r.start := by
  rcases hapart with h | h
  · have hforward := getOffset_mono text hr.start.1 hr.forward
    have hbetween := getOffset_mono text hr.stop.1 h
    rw [GoesFirst] at hfirst
    omega
  · exact getOffset_mono text hs.stop.1 h

/-- One round: both versions cut out the same range. -/
theorem applyEdit_eq (hlf : cr ∉ text) {edit : LspTextEdit} {k : ℕ} (hvalid : ValidRange edit.range)
    (hinside : ¬ClampedInside text edit.range.start ∧ ¬ClampedInside text edit.range.stop)
    (hkn : k ≤ text.length) (hstop : getOffset text edit.range.stop ≤ k)
    (hsafe : Past text edit.range.stop → getOffset text edit.range.stop = k →
      k = text.length ∧ tail = []) : Lsp.applyEdit (text.take k ++ tail) edit
      = applyOffsetEdit (text.take k ++ tail) (offsetEdit text edit) := by
  have hforward := getOffset_mono text hvalid.start.1 hvalid.forward
  have hstart : offsetFromLspPositionInString (text.take k ++ tail) edit.range.start
      = getOffset text edit.range.start := by
    refine offset_take_append hlf hvalid.start hinside.1 hkn (hforward.trans hstop) ?_
    intro hpast heq
    have hsame : getOffset text edit.range.start = getOffset text edit.range.stop :=
      hforward.antisymm (hstop.trans heq.ge)
    exact hsafe (hpast.of_le hvalid.start.1 hvalid.forward hsame) (hsame.symm.trans heq)
  rw [Lsp.applyEdit, applyOffsetEdit, offsetEdit, hstart,
    offset_take_append hlf hvalid.stop hinside.2 hkn hstop hsafe]

/-- All rounds: the text before the edits still to come is the old one. -/
theorem foldl_applyEdit_eq (hlf : cr ∉ text) {edits : List LspTextEdit} {k : ℕ}
    (hvalid : ∀ e ∈ edits, ValidRange e.range) (hinside : ∀ e ∈ edits,
      ¬ClampedInside text e.range.start ∧ ¬ClampedInside text e.range.stop)
    (hdescending : edits.Pairwise fun f e =>
      getOffset text e.range.stop ≤ getOffset text f.range.start)
    (huntouched : edits.Pairwise fun f e => ¬Touches text f.range e.range)
    (hkn : k ≤ text.length) (hstop : ∀ e ∈ edits, getOffset text e.range.stop ≤ k)
    (hsafe : ∀ e ∈ edits, Past text e.range.stop → getOffset text e.range.stop = k →
      k = text.length ∧ tail = []) : edits.foldl Lsp.applyEdit (text.take k ++ tail)
      = (edits.map (offsetEdit text)).foldl applyOffsetEdit (text.take k ++ tail) := by
  induction edits generalizing k tail with
  | nil => rfl
  | cons f edits ih =>
    obtain ⟨hfvalid, hvalid⟩ := forall_mem_cons.mp hvalid
    obtain ⟨hfinside, hinside⟩ := forall_mem_cons.mp hinside
    obtain ⟨hfstop, hstop⟩ := forall_mem_cons.mp hstop
    obtain ⟨hfsafe, -⟩ := forall_mem_cons.mp hsafe
    obtain ⟨hfdescending, hdescending⟩ := List.pairwise_cons.mp hdescending
    obtain ⟨hfuntouched, huntouched⟩ := List.pairwise_cons.mp huntouched
    have hforward := getOffset_mono text hfvalid.start.1 hfvalid.forward
    have hfk : getOffset text f.range.start ≤ k := hforward.trans hfstop
    have hnext : applyOffsetEdit (text.take k ++ tail) (offsetEdit text f)
        = text.take (getOffset text f.range.start) ++ (f.newText ++
          (text.take k ++ tail).drop (getOffset text f.range.stop)) := by
      have hlength : getOffset text f.range.start ≤ (text.take k).length := by
        rw [length_take_of_le hkn]
        exact hfk
      rw [applyOffsetEdit, offsetEdit, take_append_of_le_length hlength, take_take,
        min_eq_left hfk, append_assoc]
    rw [map_cons, foldl_cons, foldl_cons,
      applyEdit_eq hlf hfvalid hfinside hkn hfstop hfsafe, hnext]
    exact ih hvalid hinside hdescending huntouched (hfk.trans hkn) hfdescending
      fun e he hpast heq => absurd ⟨hpast, heq⟩ (hfuntouched e he)

instance (text : JsString) : Std.Total fun a b => Lsp.compareEdits text a b ≤ 0 :=
  ⟨fun a b => by
    rw [Lsp.compareEdits_le_iff, Lsp.compareEdits_le_iff, Lsp.Later, Lsp.Later]
    omega⟩

instance (text : JsString) : IsTrans LspTextEdit fun a b => Lsp.compareEdits text a b ≤ 0 :=
  ⟨fun a b c => by
    rw [Lsp.compareEdits_le_iff, Lsp.compareEdits_le_iff, Lsp.compareEdits_le_iff, Lsp.Later,
      Lsp.Later, Lsp.Later]
    omega⟩

/-- On the same places the versions return the same text. -/
theorem SamePlaces.agree (hlf : cr ∉ text) {edits : List LspTextEdit}
    (hvalid : ∀ e ∈ edits, ValidRange e.range)
    (hapart : edits.Pairwise fun e f => RangesApart e.range f.range)
    (h : SamePlaces text (edits.map LspTextEdit.range)) :
    Lsp.applyLspTextEditsToString text edits = applyLspTextEditsToString text edits := by
  have hinside (e : LspTextEdit) (he : e ∈ edits) := h.inside e.range (mem_map_of_mem he)
  have hplaced (e : LspTextEdit) (he : e ∈ edits) : Lsp.clampedSplice text e = offsetEdit text e :=
    clampedSplice_eq hlf (hinside e he).1 (hinside e he).2
  have horder (a : LspTextEdit) (ha : a ∈ edits) (b : LspTextEdit) (hb : b ∈ edits) :
      Lsp.compareEdits text a b ≤ 0 ↔ GoesFirst text a.range b.range := by
    rw [Lsp.compareEdits_le_iff, hplaced a ha, hplaced b hb]
    rfl
  set sorted := edits.insertionSort fun a b => Lsp.compareEdits text a b ≤ 0 with hsorted
  have hmem (e : LspTextEdit) (he : e ∈ sorted) : e ∈ edits := (mem_insertionSort _).mp he
  have hmap : sorted.map (offsetEdit text) = (edits.map (offsetEdit text)).insertionSort
      fun a b => compareOffsets a b ≤ 0 :=
    map_insertionSort _ _ _ _ fun a ha b hb =>
      (horder a ha b hb).trans compareOffsets_le_iff.symm
  have huntouched : sorted.Pairwise fun f e => ¬Touches text f.range e.range := by
    refine pairwise_insertionSort_of_first ?_
    refine (pairwise_map.mp h.untouched).imp_of_mem fun {a b} ha hb hab => ?_
    rwa [if_congr (horder a ha b hb) rfl rfl]
  have hdescending : sorted.Pairwise fun f e =>
      getOffset text e.range.stop ≤ getOffset text f.range.start := by
    refine pairwise_insertionSort_of_first (hapart.imp_of_mem fun {a b} ha hb hab => ?_)
    split
    · next hfirst =>
      exact stop_le_of_goesFirst (hvalid a ha) (hvalid b hb) hab ((horder a ha b hb).mp hfirst)
    · next hfirst =>
      have hlast := (Std.Total.total (r := fun a b => Lsp.compareEdits text a b ≤ 0) a b).resolve_left
        hfirst
      exact stop_le_of_goesFirst (hvalid b hb) (hvalid a ha) hab.symm ((horder b hb a ha).mp hlast)
  have hfold : sorted.foldl Lsp.applyEdit (text.take text.length ++ []) = _ :=
    foldl_applyEdit_eq hlf (fun e he => hvalid e (hmem e he)) (fun e he => hinside e (hmem e he))
      hdescending huntouched le_rfl (fun e _ => getOffset_le text _) fun _ _ _ _ => ⟨rfl, rfl⟩
  rw [take_length, append_nil, hmap] at hfold
  rw [Lsp.applyLspTextEditsToString, applyLspTextEditsToString, ← hsorted, hfold]

/-! ## One edit -/

theorem offset_of_clampedInside (hlf : cr ∉ text) {pos : LspPosition} (h : ClampedInside text pos) :
    offsetFromLspPositionInString text pos < text.length ∧ getOffset text pos = text.length := by
  obtain ⟨hge, last, hlast, hlt⟩ := h
  have hend := (lineOffset_last hlast).2
  rw [offset_of_le hlf hge hlast]
  exact ⟨by omega, getOffset_of_le hge⟩

/-- A range with a clamped position is read in two ways. -/
theorem exists_edit_ne (hlf : cr ∉ text) {r : LspRange} (hvalid : ValidRange r)
    (h : ClampedInside text r.start ∨ ClampedInside text r.stop) :
    ∃ newText, Lsp.applyLspTextEditsToString text [⟨r, newText⟩]
      ≠ applyLspTextEditsToString text [⟨r, newText⟩] := by
  by_cases hstop : ClampedInside text r.stop
  · -- the first version keeps the end of the text behind the edit
    obtain ⟨hlt, hend⟩ := offset_of_clampedInside hlf hstop
    refine ⟨[if text.getLast? = some 0 then 1 else 0], fun heq => ?_⟩
    have hfirst : (Lsp.applyEdit text ⟨r, [if text.getLast? = some 0 then 1 else 0]⟩).getLast?
        = text.getLast? := by
      rw [Lsp.applyEdit, getLast?_append_of_ne_nil _ (drop_eq_nil_iff.not.mpr
        (Nat.not_le_of_lt hlt)), getLast?_drop, if_neg (Nat.not_le_of_lt hlt)]
    have hsecond : (applyOffsetEdit text
        (offsetEdit text ⟨r, [if text.getLast? = some 0 then 1 else 0]⟩)).getLast?
        = some (if text.getLast? = some 0 then 1 else 0) := by
      rw [applyOffsetEdit, offsetEdit, hend, drop_length, append_nil,
        getLast?_concat]
    have hlast : text.getLast? = some (if text.getLast? = some 0 then 1 else 0) :=
      hfirst.symm.trans ((congrArg List.getLast? heq).trans hsecond)
    split at hlast
    · next hzero => exact absurd (hzero.symm.trans hlast) (by decide)
    · next hnot => exact hnot hlast
  · have hstart := h.resolve_right hstop
    obtain ⟨hlt, hend⟩ := offset_of_clampedInside hlf hstart
    have hstopEnd : getOffset text r.stop = text.length :=
      (getOffset_le text _).antisymm (hend ▸ getOffset_mono text hvalid.start.1 hvalid.forward)
    refine ⟨[], fun heq => ?_⟩
    have hlength := congrArg List.length
      (show Lsp.applyEdit text ⟨r, []⟩ = applyOffsetEdit text (offsetEdit text ⟨r, []⟩) from heq)
    rw [Lsp.applyEdit, applyOffsetEdit, offsetEdit, (offset_eq_iff hlf).mpr hstop, hstopEnd, hend,
      drop_length, take_length, append_nil, append_nil, append_nil,
      append_nil, length_take] at hlength
    exact absurd (hlength.ge.trans (min_le_left _ _)) (Nat.not_le_of_lt hlt)

/-! ## Two edits -/

theorem splitLines_concat_lf (text : JsString) :
    splitLines (text ++ [lf]) = splitLines text ++ [[]] := by
  rw [splitLines, splitLines]
  induction text with
  | nil => rfl
  | cons c text ih =>
    rw [cons_append, splitOn_cons_eq_if_modifyHead, splitOn_cons_eq_if_modifyHead, ih]
    split
    · rfl
    · obtain ⟨first, lines, hlines⟩ := exists_cons_of_ne_nil (JsString.splitLines_ne_nil text)
      rw [splitLines] at hlines
      rw [hlines]
      rfl

/-- What an edit must insert at the end of a line, or of the text, for a position past it to move. -/
def movingText (text : JsString) (pos : LspPosition) : UInt16 :=
  if pos.line.toNat < (splitLines text).length then 97 else lf

/-- A position past the end of its line moves when the line grows. -/
theorem lt_offset_of_line (hlf : cr ∉ text) {pos : LspPosition}
    {line rest : JsString} (hline : (splitLines text)[pos.line.toNat]? = some line)
    (hlong : line.length < pos.character.toNat) : getOffset text pos <
      offsetFromLspPositionInString (text.take (getOffset text pos) ++ 97 :: rest) pos := by
  have hlt := (List.getElem?_eq_some_iff.mp hline).1
  rw [getOffset_of_line hline, min_eq_right hlong.le]
  set o := lineOffset (splitLines text) pos.line.toNat + line.length with ho
  have hle : o ≤ text.length := line_end_le hline
  obtain ⟨after, hreads⟩ := (Lsp.isPosition_take_append hlf
    ⟨line, (splitTokens_tokens hlf).symm ▸ hline, le_rfl,
      by rw [lineStart_tokens hlf hlt]⟩ (le_refl o) (97 :: rest)).exists_reads
  obtain ⟨-, -, rfl⟩ := hreads.of_tokens
  have hdrop : (text.take o ++ 97 :: rest).drop o = 97 :: rest := by
    rw [drop_left' (length_take_of_le hle)]
  have htokens : tokens (97 :: rest) = .unit 97 :: tokens rest :=
    Lsp.tokens_append (show cr ∉ [97] by decide) rest
  rw [hdrop, htokens] at hreads
  have hgrown : Lsp.Reads (tokens (text.take o ++ 97 :: rest)) (o + 1) pos.line.toNat
      (line.length + 1) (tokens rest) := hreads.trans ((Lsp.Reads.start _).unit 97)
  obtain ⟨line', hline', hlonger, hstart⟩ := hgrown.isPosition
  rw [offset_of_line hline']
  omega

/-- A position past the last line moves when a line is added. -/
theorem lt_offset_of_le (hlf : cr ∉ text) {pos : LspPosition}
    (hline : (splitLines text).length ≤ pos.line.toNat) :
    text.length < offsetFromLspPositionInString (text ++ [lf]) pos := by
  have hlf' : cr ∉ text ++ [lf] := by
    rw [mem_append, not_or]
    exact ⟨hlf, by decide⟩
  have hlast : (splitLines (text ++ [lf])).getLast? = some [] := by
    rw [splitLines_concat_lf, getLast?_concat]
  have hplaced : ¬ClampedInside (text ++ [lf]) pos := by
    rintro ⟨-, last, hmem, hlt⟩
    obtain rfl := Option.some.inj (hlast.symm.trans hmem)
    exact Nat.not_lt_zero _ hlt
  rw [(offset_eq_iff hlf').mpr hplaced]
  rcases Nat.lt_or_ge pos.line.toNat (splitLines (text ++ [lf])).length with hlt | hge
  · obtain ⟨line, hget⟩ : ∃ line, (splitLines (text ++ [lf]))[pos.line.toNat]? = some line :=
      ⟨_, getElem?_eq_getElem hlt⟩
    rw [splitLines_concat_lf, length_append, length_singleton] at hlt
    have hsame : pos.line.toNat = (splitLines (text ++ [lf])).length - 1 := by
      rw [splitLines_concat_lf, length_append, length_singleton]
      omega
    have hend := (lineOffset_last hlast).2
    rw [length_append, length_singleton, length_nil] at hend
    rw [getOffset_of_line hget, hsame]
    omega
  · rw [getOffset_of_le hge, length_append, length_singleton]
    exact Nat.lt_succ_self _

/-- Two edits of which the second one ends past its line, where the first one starts. -/
theorem exists_edits_ne (hlf : cr ∉ text) {r s : LspRange} (hr : ValidRange r)
    (hs : ValidRange s) (hinside : ¬ClampedInside text r.start ∧ ¬ClampedInside text r.stop)
    (hsinside : ¬ClampedInside text s.start) (htouches : Touches text r s) :
    ∃ first second, Lsp.applyEdit (Lsp.applyEdit text ⟨r, first⟩) ⟨s, second⟩
      ≠ applyOffsetEdit (applyOffsetEdit text (offsetEdit text ⟨r, first⟩))
        (offsetEdit text ⟨s, second⟩) := by
  obtain ⟨hpast, hsame⟩ := htouches
  have hforward := getOffset_mono text hr.start.1 hr.forward
  have hsforward := getOffset_mono text hs.start.1 hs.forward
  set o := getOffset text s.stop with ho
  have hon : o ≤ text.length := getOffset_le text _
  set next := text.take o ++ movingText text s.stop :: text.drop (getOffset text r.stop) with hnext
  have hfirst : Lsp.applyEdit text ⟨r, [movingText text s.stop]⟩ = next := by
    rw [Lsp.applyEdit, (offset_eq_iff hlf).mpr hinside.1, (offset_eq_iff hlf).mpr hinside.2,
      ← hsame, append_assoc, singleton_append]
  have hsecond : applyOffsetEdit text (offsetEdit text ⟨r, [movingText text s.stop]⟩) = next := by
    rw [applyOffsetEdit, offsetEdit, ← hsame, append_assoc, singleton_append]
  have hlength : o < next.length := by
    rw [hnext, length_append, length_take_of_le hon, length_cons]
    omega
  have hmoved : o < offsetFromLspPositionInString next s.stop := by
    rcases Nat.lt_or_ge s.stop.line.toNat (splitLines text).length with hlt | hge
    · obtain ⟨line, hline⟩ : ∃ line, (splitLines text)[s.stop.line.toNat]? = some line :=
        ⟨_, getElem?_eq_getElem hlt⟩
      rw [hnext, movingText, if_pos hlt]
      exact lt_offset_of_line hlf hline (hpast line hline)
    · have hend : o = text.length := getOffset_of_le hge
      rw [hnext, movingText, if_neg (Nat.not_lt_of_le hge), hend, take_length,
        drop_of_length_le (by omega)]
      exact lt_offset_of_le hlf hge
  refine ⟨[movingText text s.stop], [98], fun heq => ?_⟩
  rw [hfirst, hsecond, Lsp.applyEdit, applyOffsetEdit, offsetEdit] at heq
  dsimp only at heq
  rw [← ho] at heq
  rcases Nat.lt_or_ge (getOffset text s.start)
    (offsetFromLspPositionInString next s.start) with hlt | hge
  · -- then the second edit starts past its line as well, and its text ends up behind the first one's
    have hstart : getOffset text s.start = o := by
      by_contra hne
      have hkept : offsetFromLspPositionInString next s.start = getOffset text s.start :=
        offset_take_append hlf hs.start hsinside hon hsforward fun _ h => absurd h hne
      exact absurd hkept hlt.ne'
    rw [hstart] at heq hlt
    have hget := congrArg (·[o]?) heq
    have hinFirst : o < (next.take (offsetFromLspPositionInString next s.start)).length := by
      rw [length_take]
      omega
    have hlengthTake : (next.take o).length = o := length_take_of_le hlength.le
    rw [append_assoc, getElem?_append_left hinFirst, getElem?_take_of_lt hlt,
      append_assoc, getElem?_append_right hlengthTake.le, hlengthTake, Nat.sub_self, hnext,
      getElem?_append_right (length_take_le o text), length_take_of_le hon,
      Nat.sub_self] at hget
    have hunit : movingText text s.stop = 98 := Option.some.inj hget
    rw [movingText] at hunit
    split at hunit <;> exact absurd hunit (by decide)
  · have hcount := congrArg List.length heq
    simp only [length_append, length_take, length_drop, length_singleton]
      at hcount
    omega

/-! ## The ranges on which the versions agree -/

theorem applyFirst_pair (text : JsString) (a b : LspTextEdit) :
    Lsp.applyLspTextEditsToString text [a, b] =
      if Lsp.compareEdits text a b ≤ 0 then Lsp.applyEdit (Lsp.applyEdit text a) b
      else Lsp.applyEdit (Lsp.applyEdit text b) a := by
  rw [Lsp.applyLspTextEditsToString, if_neg (cons_ne_nil _ _), insertionSort_cons,
    insertionSort_cons, insertionSort_nil, orderedInsert_nil, orderedInsert_cons]
  split <;> rfl

theorem applySecond_pair (text : JsString) (a b : LspTextEdit) : applyLspTextEditsToString text [a, b] =
      if compareOffsets (offsetEdit text a) (offsetEdit text b) ≤ 0 then
        applyOffsetEdit (applyOffsetEdit text (offsetEdit text a)) (offsetEdit text b)
      else applyOffsetEdit (applyOffsetEdit text (offsetEdit text b)) (offsetEdit text a) := by
  rw [applyLspTextEditsToString, if_neg (cons_ne_nil _ _), map_cons, map_singleton,
    insertionSort_cons, insertionSort_cons, insertionSort_nil,
    orderedInsert_nil, orderedInsert_cons]
  split <;> rfl

/-- The versions return the same text for all edits of some of these ranges exactly when the ranges are the
same places in both. -/
theorem versions_agree_iff {text : JsString} (hlf : cr ∉ text) {ranges : List LspRange}
    (hvalid : ∀ r ∈ ranges, ValidRange r) (hapart : ranges.Pairwise RangesApart) :
    (∀ edits : List LspTextEdit, (edits.map LspTextEdit.range).Sublist ranges →
      Lsp.applyLspTextEditsToString text edits = applyLspTextEditsToString text edits) ↔
      SamePlaces text ranges := by
  constructor
  · intro hagree
    have hinside (r : LspRange) (hr : r ∈ ranges) :
        ¬ClampedInside text r.start ∧ ¬ClampedInside text r.stop := by
      rw [← not_or]
      intro h
      obtain ⟨newText, hne⟩ := exists_edit_ne hlf (hvalid r hr) h
      exact hne (hagree [⟨r, newText⟩] (List.singleton_sublist.mpr hr))
    refine ⟨hinside, ?_⟩
    rw [pairwise_iff_forall_sublist]
    intro r s hsublist
    have hr := hsublist.subset mem_cons_self
    have hs := hsublist.subset (mem_cons_of_mem r mem_cons_self)
    have horder (first second : JsString) : Lsp.compareEdits text ⟨r, first⟩ ⟨s, second⟩ ≤ 0 ↔
        GoesFirst text r s := by
      rw [Lsp.compareEdits_le_iff, clampedSplice_eq hlf (hinside r hr).1 (hinside r hr).2,
        clampedSplice_eq hlf (hinside s hs).1 (hinside s hs).2]
      rfl
    split
    · next hfirst =>
      intro htouches
      obtain ⟨first, second, hne⟩ := exists_edits_ne hlf (hvalid r hr) (hvalid s hs) (hinside r hr)
        (hinside s hs).1 htouches
      have heq := hagree [⟨r, first⟩, ⟨s, second⟩] hsublist
      rw [applyFirst_pair, applySecond_pair, if_pos ((horder _ _).mpr hfirst),
        if_pos (compareOffsets_le_iff.mpr hfirst)] at heq
      exact hne heq
    · next hlast =>
      intro htouches
      obtain ⟨first, second, hne⟩ := exists_edits_ne hlf (hvalid s hs) (hvalid r hr) (hinside s hs)
        (hinside r hr).1 htouches
      have heq := hagree [⟨r, second⟩, ⟨s, first⟩] hsublist
      rw [applyFirst_pair, applySecond_pair, if_neg (mt (horder _ _).mp hlast),
        if_neg (mt compareOffsets_le_iff.mp hlast)] at heq
      exact hne heq
  · intro h edits hsublist
    have hmem (e : LspTextEdit) (he : e ∈ edits) := hsublist.subset (mem_map_of_mem he)
    refine SamePlaces.agree hlf (fun e he => hvalid e.range (hmem e he))
      (pairwise_map.mp (hapart.sublist hsublist)) ⟨fun r hr => h.inside r (hsublist.subset hr),
        h.untouched.sublist hsublist⟩

/-- The edit that replaces a line up to its end. -/
def replaceLine : List LspTextEdit := [⟨⟨⟨0, 0⟩, ⟨0, 1⟩⟩, JsString.ascii "b"⟩]

theorem versions_agree_replaceLine : Lsp.applyLspTextEditsToString (JsString.ascii "a") replaceLine
      = applyLspTextEditsToString (JsString.ascii "a") replaceLine :=
  (versions_agree_iff (by decide)
    (forall_mem_singleton.mpr ⟨by decide, by decide, .inr ⟨rfl, by decide⟩⟩)
    (pairwise_singleton _ _)).mpr
      ⟨forall_mem_singleton.mpr (by decide), pairwise_singleton _ _⟩
      replaceLine (List.Sublist.refl _)

/-- The edit of a whole document of one line, with the line behind it as its end. -/
def replaceDocument : List LspTextEdit := [⟨⟨⟨0, 0⟩, ⟨1, 0⟩⟩, JsString.ascii "b"⟩]

/-- The first version inserts before the line and the second one replaces it. -/
theorem versions_disagree_on_document :
    (cr ∉ JsString.ascii "a" ∧ ∀ e ∈ replaceDocument, ValidRange e.range) ∧
      Lsp.applyLspTextEditsToString (JsString.ascii "a") replaceDocument = JsString.ascii "ba" ∧
      applyLspTextEditsToString (JsString.ascii "a") replaceDocument = JsString.ascii "b" := by
  refine ⟨⟨by decide, forall_mem_singleton.mpr ⟨by decide, by decide, .inl (by decide)⟩⟩,
    by decide, by decide⟩

end Taomni.SaveNormalization
