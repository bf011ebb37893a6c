import Mathlib.Data.List.Forall2
import Taomni.Common.Fallible
import Taomni.Lsp.LineBreaks
import Taomni.Workspace.ReplaceInFiles

/-!
# Replaced occurrences

The library counts the lines that end with an LF, and the editor also those that end with a CR alone. An edit
selects the characters of its hit exactly while the two agree.

Reference: `src-tauri/src/workspace_search.rs`, `components/editor/workspace/replaceModel/coordinates.ts`
and `planning.ts`.
-/

namespace Taomni.Replace

open List
open Lsp

/-! ## Code points -/

theorem codePointLoop_unit {u : UInt16} (h : ∀ v, isSurrogatePair u v = false) (rest : JsString)
    (offset : ℕ) : codePointLoop (u :: rest) (offset + 1) = (codePointLoop rest offset).map (1 + ·) := by
  cases rest with
  | nil => rfl
  | cons v rest =>
    rw [codePointLoop, h v]
    rfl

theorem codePointLoop_zero (text : JsString) : codePointLoop text 0 = some 0 := by
  cases text with
  | nil => rfl
  | cons u rest => cases rest <;> rfl

/-- One round reads one character. -/
theorem codePointLoop_cons (c : Char) (text : Text) (offset : ℕ) :
    codePointLoop (encodeUtf16 (c :: text)) (offset + 1) =
      (codePointLoop (encodeUtf16 text) offset).map ((utf16Char c).length + ·) := by
  have hvalid := toNat_char c
  show codePointLoop (utf16Char c ++ encodeUtf16 text) (offset + 1) = _
  unfold utf16Char
  split
  · rename_i hplane
    have hunit (v : UInt16) : isSurrogatePair (UInt16.ofNat c.toNat) v = false := by
      unfold isSurrogatePair
      rw [UInt16.toNat_ofNat_of_lt' hplane]
      simp only [Bool.and_eq_false_iff, decide_eq_false_iff_not]
      omega
    exact codePointLoop_unit hunit _ offset
  · rename_i hplane
    have hpair : isSurrogatePair (UInt16.ofNat (0xD800 + (c.toNat - 0x10000) / 0x400))
        (UInt16.ofNat (0xDC00 + (c.toNat - 0x10000) % 0x400)) = true := by
      unfold isSurrogatePair
      rw [UInt16.toNat_ofNat_of_lt' (show _ < 65536 by omega),
        UInt16.toNat_ofNat_of_lt' (show _ < 65536 by omega)]
      simp only [Bool.and_eq_true, decide_eq_true_eq]
      omega
    rw [cons_append, singleton_append, codePointLoop, hpair, if_pos rfl]
    rfl

variable {text : Text}

/-- The loop counts the code units of the first characters, while there are as many. -/
theorem codePointLoop_eq_some {offset character : ℕ}
    (h : codePointLoop (encodeUtf16 text) offset = some character) :
    offset ≤ text.length ∧ character = (encodeUtf16 (text.take offset)).length := by
  induction text generalizing offset character with
  | nil =>
    cases offset with
    | zero => exact ⟨Nat.le_refl 0, (Option.some.inj h).symm⟩
    | succ offset => cases h
  | cons c text ih =>
    cases offset with
    | zero =>
      rw [codePointLoop_zero] at h
      exact ⟨Nat.zero_le _, (Option.some.inj h).symm⟩
    | succ offset =>
      rw [codePointLoop_cons] at h
      obtain ⟨units, hunits, rfl⟩ := Option.map_eq_some_iff.mp h
      obtain ⟨hle, rfl⟩ := ih hunits
      refine ⟨Nat.succ_le_succ hle, ?_⟩
      show _ = (utf16Char c ++ encodeUtf16 (text.take offset)).length
      rw [length_append]

/-- An offset that is converted is that of a cut, and counts the code units before it. -/
theorem converted_charOffset {offset character : ℕ} (hle : offset ≤ byteLength text)
    (h : codePointOffsetToUtf16OffsetChecked (encodeUtf16 text) (charOffset text offset) =
      some character) :
    ∃ front rest, cutAt offset text = some (front, rest) ∧ character = (encodeUtf16 front).length := by
  unfold codePointOffsetToUtf16OffsetChecked at h
  rw [if_neg (Int.not_lt.mpr (Int.natCast_nonneg _)), Int.toNat_natCast] at h
  obtain ⟨hlength, hcharacter⟩ := codePointLoop_eq_some h
  unfold charOffset at hlength hcharacter
  cases hcut : cutAt offset text with
  | none =>
    rw [hcut] at hlength
    exact absurd hlength (Nat.not_le.mpr (length_lt_of_cutAt_eq_none hcut hle))
  | some pieces =>
    obtain ⟨front, rest⟩ := pieces
    refine ⟨front, rest, rfl, ?_⟩
    rw [hcut] at hcharacter
    rw [hcharacter, (cutAt_eq_some hcut).1]
    dsimp only
    rw [take_left]

/-! ## Inputs -/

/-- What is known of the input of a hit. -/
structure InputOf (text : Text) (hit : Hit) (input : ReplaceInFilesMatch) (front front' : Text) :
    Prop where
  cutStart : ∃ rest, cutAt hit.start hit.lineText = some (front, rest)
  cutStop : ∃ rest, cutAt hit.stop hit.lineText = some (front', rest)
  startLine : input.startLine = (hit.lineNumber - 1 : ℕ)
  endLine : input.endLine = (hit.lineNumber - 1 : ℕ)
  startCharacter : input.startCharacter = (encodeUtf16 front).length
  endCharacter : input.endCharacter = (encodeUtf16 front').length

variable {input : ReplaceInFilesMatch}

theorem toReplaceInput_path {m : SearchMatch}
    (h : toReplaceInput m = .ok input) : input.filePath = replaceMatchAbsolutePath m := by
  unfold toReplaceInput at h
  dsimp only at h
  split at h
  · cases h
  · split at h
    · cases h
    · cases h
    · split at h
      · cases h
      · cases h
        rfl

theorem inputOf_hit {hit : Hit} (hof : hit.Of text) {rootPath path : Text}
    (h : toReplaceInput (hit.report rootPath path).received = .ok input) :
    ∃ front front', InputOf text hit input front front' := by
  obtain ⟨index, line, hnumber, -, -⟩ := hof.line
  obtain ⟨hle, hinside⟩ := hof.inside
  unfold toReplaceInput at h
  dsimp only at h
  split at h
  · cases h
  · split at h
    · cases h
    · cases h
    · rename_i startCharacter endCharacter hstart hstop
      split at h
      · cases h
      · cases h
        obtain ⟨front, rest, hcut, hfront⟩ := converted_charOffset (hle.trans hinside) hstart
        obtain ⟨front', rest', hcut', hfront'⟩ := converted_charOffset hinside hstop
        have hline : ((hit.lineNumber : ℤ) - 1) = (hit.lineNumber - 1 : ℕ) := by
          rw [hnumber]
          omega
        exact ⟨front, front', ⟨rest, hcut⟩, ⟨rest', hcut'⟩, hline, hline, congrArg _ hfront,
          congrArg _ hfront'⟩

/-! ## Edits -/

variable {replacementText : JsString} {pathKey : Text → Text}

variable {m : ReplaceInFilesMatch}

theorem addEdit_same {uri path : Text} {edits : List LspTextEdit} (h : m.filePath = path) :
    addEdit pathKey replacementText [(pathKey path, ⟨uri, path, edits⟩)] m =
      [(pathKey path, ⟨uri, path, edits ++ [m.edit replacementText]⟩)] := by
  unfold addEdit
  dsimp only
  rw [h, any_cons, decide_eq_true rfl, Bool.true_or, if_pos rfl, map_singleton, if_pos rfl]

variable {ms : List ReplaceInFilesMatch}

theorem foldl_addEdit {uri path : Text} (h : ∀ m ∈ ms, m.filePath = path) (edits : List LspTextEdit) :
    ms.foldl (addEdit pathKey replacementText) [(pathKey path, ⟨uri, path, edits⟩)] =
      [(pathKey path, ⟨uri, path, edits ++ ms.map (ReplaceInFilesMatch.edit replacementText)⟩)] := by
  induction ms generalizing edits with
  | nil => rw [foldl_nil, map_nil, append_nil]
  | cons m ms ih =>
    obtain ⟨hm, hms⟩ := forall_mem_cons.mp h
    rw [foldl_cons, addEdit_same hm, ih hms, append_assoc]
    rfl

/-- The edits of one file are those of its matches, in their order. -/
theorem edits_build {path : Text} (h : ∀ m ∈ ms, m.filePath = path) :
    (buildReplaceInFilesWorkspaceEdit pathKey ms replacementText).flatMap LspFileTextEdits.edits =
      ms.map (ReplaceInFilesMatch.edit replacementText) := by
  unfold buildReplaceInFilesWorkspaceEdit
  cases ms with
  | nil => rfl
  | cons m ms =>
    obtain ⟨hm, hms⟩ := forall_mem_cons.mp h
    have hfirst : ∃ uri, addEdit pathKey replacementText [] m =
        [(pathKey path, ⟨uri, path, [m.edit replacementText]⟩)] := by
      unfold addEdit
      dsimp only
      rw [hm, any_nil, if_neg Bool.false_ne_true, nil_append, map_singleton, if_pos rfl]
      exact ⟨_, rfl⟩
    obtain ⟨uri, hfirst⟩ := hfirst
    rw [foldl_cons, hfirst, foldl_addEdit hms]
    simp only [map_cons, map_nil, flatMap_cons, flatMap_nil, append_nil,
      singleton_append]

variable {diskTexts : List (Text × JsString)}

theorem resolved_of_fresh {diskText : JsString} (hdisk : diskTexts.lookup m.filePath = some diskText)
    (h : freshnessConflict diskTexts m = none) : ∃ startOffset endOffset,
      offsetFromLspPositionInStringStrict diskText ⟨m.startLine, m.startCharacter⟩ = some startOffset ∧
        offsetFromLspPositionInStringStrict diskText ⟨m.endLine, m.endCharacter⟩ = some endOffset := by
  unfold freshnessConflict at h
  rw [hdisk] at h
  dsimp only at h
  split at h
  · cases h
  · split at h
    · rename_i startOffset endOffset hstart hend
      exact ⟨startOffset, endOffset, hstart, hend⟩
    · cases h

/-- A strict offset is that many code units behind the start of its line. -/
theorem strict_eq_lineStart {text : JsString} {line character offset : ℕ}
    (h : offsetFromLspPositionInStringStrict text ⟨line, character⟩ = some offset) :
    offset = lineStart (tokens text) line + character := by
  obtain ⟨line', character', heq, -, -, -, hoffset⟩ :=
    offsetFromLspPositionInStringStrict_eq_some_iff.mp h
  obtain ⟨hline, hcharacter⟩ := LspPosition.mk.inj heq
  rw [hoffset, Int.ofNat_inj.mp hline, Int.ofNat_inj.mp hcharacter]

/-! ## Selections -/

/-- The edit selects the characters of the hit: behind the lines before it and what is before it in its line. -/
def Hit.SelectedBy (hit : Hit) (text : Text) (replacementText : JsString) (edit : LspTextEdit) : Prop :=
  ∃ front rest front' rest', cutAt hit.start hit.lineText = some (front, rest) ∧
    cutAt hit.stop hit.lineText = some (front', rest') ∧
    editSplice (encodeUtf16 text) edit =
      some
        { start := (encodeUtf16 (textBefore text (hit.lineNumber - 1) ++ front)).length
          stop := (encodeUtf16 (textBefore text (hit.lineNumber - 1) ++ front')).length
          insert := replacementText }

theorem selectedBy_iff {hit : Hit} (hof : hit.Of text)
    {front front' : Text} (hinput : InputOf text hit input front front')
    (hdisk : diskTexts.lookup input.filePath = some (encodeUtf16 text))
    (hfresh : freshnessConflict diskTexts input = none) (replacementText : JsString) :
    hit.SelectedBy text replacementText (input.edit replacementText) ↔
      loneReturns (textBefore text (hit.lineNumber - 1)) = 0 := by
  obtain ⟨index, line, hnumber, hline, -⟩ := hof.line
  obtain ⟨startOffset, endOffset, hstart, hend⟩ := resolved_of_fresh hdisk hfresh
  obtain ⟨hcount, hends⟩ := textBefore_line hline
  have hindex : hit.lineNumber - 1 = index := by omega
  have hiff : lineStart (tokens (encodeUtf16 text)) index = (encodeUtf16 (textBefore text index)).length ↔
      loneReturns (textBefore text index) = 0 := by
    have hall := lineStart_encodeUtf16_iff hends (line ++ ((lfLines text).drop (index + 1)).flatten)
    rw [← append_assoc, ← text_eq_line hline, hcount] at hall
    exact hall
  have hsplice : editSplice (encodeUtf16 text) (input.edit replacementText) =
      some ⟨startOffset, endOffset, replacementText⟩ :=
    editSplice_eq_some_iff.mpr ⟨hstart, hend, rfl⟩
  rw [hinput.startLine, hinput.startCharacter] at hstart
  rw [hinput.endLine, hinput.endCharacter] at hend
  have hstartOffset := strict_eq_lineStart hstart
  have hendOffset := strict_eq_lineStart hend
  rw [hindex] at hstartOffset hendOffset ⊢
  obtain ⟨rest, hcut⟩ := hinput.cutStart
  obtain ⟨rest', hcut'⟩ := hinput.cutStop
  unfold Hit.SelectedBy
  rw [hsplice, hindex, ← hiff]
  constructor
  · rintro ⟨front₁, _, _, _, hcut₁, _, heq⟩
    rw [hcut] at hcut₁
    obtain ⟨rfl, -⟩ := Prod.mk.inj (Option.some.inj hcut₁)
    have hsame := congrArg Splice.start (Option.some.inj heq)
    dsimp only at hsame
    rw [encodeUtf16_append, length_append] at hsame
    omega
  · intro heq
    refine ⟨front, rest, front', rest', hcut, hcut', ?_⟩
    rw [encodeUtf16_append, encodeUtf16_append, length_append, length_append, hstartOffset,
      hendOffset, heq]

/-- Every chosen hit has its input, in the same order. -/
theorem forall₂_inputs {matches_ : List SearchMatch} {inputs : List ReplaceInFilesMatch}
    (h : searchMatchesToReplaceInputs matches_ = .ok inputs) :
    List.Forall₂ (fun m input => toReplaceInput m = .ok input) matches_ inputs := by
  unfold searchMatchesToReplaceInputs at h
  induction matches_ generalizing inputs with
  | nil =>
    cases h
    exact .nil
  | cons m rest ih =>
    rw [mapM_cons] at h
    obtain ⟨input, hinput, h⟩ := exists_of_bind_eq_ok h
    obtain ⟨inputs', hinputs, h⟩ := exists_of_bind_eq_ok h
    cases h
    exact .cons hinput (ih hinputs)

/-- Where the inputs of some hits are fresh, the edits select exactly the characters of the hits if and only if
no CR alone stands before the line of one of them. -/
theorem replaces_exactly_iff (matcher : Matcher) (options : SearchOptions) (totalMatches : ℕ)
    (rootPath path text : Text) (chosen : List Hit)
    (hchosen : ∀ hit ∈ chosen, hit ∈ searchHits matcher options totalMatches text)
    (inputs : List ReplaceInFilesMatch) (hinputs : searchMatchesToReplaceInputs
      (chosen.map fun hit => (hit.report rootPath path).received) = .ok inputs)
    (diskTexts : List (Text × JsString))
    (hdisk : ∀ input ∈ inputs, diskTexts.lookup input.filePath = some (encodeUtf16 text))
    (hfresh : verifyReplaceMatchFreshness diskTexts inputs = []) (pathKey : Text → Text)
    (replacementText : JsString) :
    List.Forall₂ (fun hit edit => hit.SelectedBy text replacementText edit) chosen
        ((buildReplaceInFilesWorkspaceEdit pathKey inputs replacementText).flatMap
          LspFileTextEdits.edits) ↔
      ∀ hit ∈ chosen, loneReturns (textBefore text (hit.lineNumber - 1)) = 0 := by
  have hforall := List.forall₂_map_left_iff.mp (forall₂_inputs hinputs)
  have hpath : ∀ input ∈ inputs, input.filePath =
      replaceMatchAbsolutePath ⟨rootPath, path, 0, 0, 0, []⟩ := by
    clear hinputs hdisk hfresh
    induction hforall with
    | nil => exact fun _ h => absurd h not_mem_nil
    | cons hone _ ih =>
      exact forall_mem_cons.mpr ⟨(toReplaceInput_path hone).trans rfl,
        ih fun hit hhit => hchosen hit (mem_cons_of_mem _ hhit)⟩
  rw [edits_build hpath, forall₂_map_right_iff]
  have hnone : ∀ input ∈ inputs, freshnessConflict diskTexts input = none :=
    List.filterMap_eq_nil_iff.mp hfresh
  clear hinputs hfresh hpath
  induction hforall with
  | nil => exact iff_of_true .nil fun _ h => absurd h not_mem_nil
  | cons hone _ ih =>
    obtain ⟨hhit, hhits⟩ := forall_mem_cons.mp hchosen
    obtain ⟨hdiskOne, hdiskRest⟩ := forall_mem_cons.mp hdisk
    obtain ⟨hfreshOne, hfreshRest⟩ := forall_mem_cons.mp hnone
    obtain ⟨front, front', hinput⟩ := inputOf_hit (hit_of_search hhit) hone
    rw [forall₂_cons, forall_mem_cons]
    exact and_congr (selectedBy_iff (hit_of_search hhit) hinput hdiskOne hfreshOne replacementText)
      (ih hhits hdiskRest hfreshRest)

/-- The letter `a`, in lines of ASCII. -/
def letterA : Matcher where
  isMatch line := line.contains 'a'
  findIter cs := ((List.range cs.length).filter fun i => cs[i]? = some 'a').map fun i => (i, i + 1)
  inside line p hp := by
    obtain ⟨i, hi, rfl⟩ := mem_map.mp hp
    have hlt := mem_range.mp (mem_filter.mp hi).1
    have hle := length_le_byteLength line
    exact ⟨Nat.le_succ i, by omega⟩

def unlimited : SearchOptions := ⟨none, none⟩

/-- The hit on the last line of a text with three `a`. -/
def lastHit : Hit := ⟨2, ['a'], 0, 1⟩

def lastInput : ReplaceInFilesMatch :=
  ⟨"/w/f".toList, "file:///w/f".toList, 1, 0, 1, 1, encodeUtf16 ['a']⟩

theorem replaces_exactly_crlf :
    List.Forall₂ (fun hit edit => hit.SelectedBy "a\r\na".toList [] edit) [lastHit]
      ((buildReplaceInFilesWorkspaceEdit id [lastInput] []).flatMap LspFileTextEdits.edits) :=
  (replaces_exactly_iff letterA unlimited 0 "/w".toList ['f'] "a\r\na".toList [lastHit]
    (forall_mem_singleton.mpr (by decide)) [lastInput] rfl
    [("/w/f".toList, encodeUtf16 "a\r\na".toList)] (forall_mem_singleton.mpr rfl) rfl id []).mpr
    (forall_mem_singleton.mpr (by decide))

/-- Only the last `a` is chosen. The edit selects the second one, on the second line of the editor. -/
theorem replaces_another_occurrence : lastHit ∈ searchHits letterA unlimited 0 "a\ra\na".toList ∧
      searchMatchesToReplaceInputs [(lastHit.report "/w".toList ['f']).received] = .ok [lastInput] ∧
      verifyReplaceMatchFreshness [("/w/f".toList, encodeUtf16 "a\ra\na".toList)] [lastInput] = [] ∧
      editSplice (encodeUtf16 "a\ra\na".toList) (lastInput.edit []) = some ⟨2, 3, []⟩ ∧
      ¬lastHit.SelectedBy "a\ra\na".toList [] (lastInput.edit []) := by
  have hsplice : editSplice (encodeUtf16 "a\ra\na".toList) (lastInput.edit []) = some ⟨2, 3, []⟩ := by
    decide
  refine ⟨by decide, rfl, rfl, hsplice, ?_⟩
  rintro ⟨front, rest, _, _, hcut, _, heq⟩
  rw [hsplice] at heq
  obtain ⟨rfl, -⟩ := Prod.mk.inj (Option.some.inj hcut)
  have hstart : 2 = (encodeUtf16 (textBefore "a\ra\na".toList 1 ++ [])).length :=
    congrArg Splice.start (Option.some.inj heq)
  exact absurd hstart (by decide)

end Taomni.Replace
