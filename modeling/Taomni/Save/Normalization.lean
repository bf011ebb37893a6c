import Mathlib.Data.List.DropRight
import Mathlib.Data.List.Infix
import Taomni.Save.SaveBytes

/-!
# The save normalization pipeline

Reference: `components/editor/workspace/saveNormalizationPipeline.ts`, and
`containsDisabledFormatterMarker` of `workspaceCodeStyleScheme.ts`.

Six stages in a fixed order: format, organize imports, trim, final newline, line endings, charset. The
first two call a provider, which is a function here, and may end the run early when the buffer was
edited meanwhile; the last one may end it with an encoding error.
-/

namespace Taomni.SaveNormalization

open JsString (ascii lf cr splitLines)
open Save (SaveEol Sha256)

/-! ## Text functions -/

/-- `[ \t]`. -/
def isSpaceOrTab (u : UInt16) : Bool := u == 32 || u == 9

/-- `[\r\n]`. -/
def isBreak (u : UInt16) : Bool := u == cr || u == lf

/-- `text.replace(/[ \t]+(?=\r\n|\r|\n|$)/g, "")`: a space or tab goes when all that follows it, up to
the line break or the end, has gone. -/
def trimLineEnds (text : JsString) : JsString :=
  text.foldr (fun u rest => if isSpaceOrTab u && rest.head?.all isBreak then rest else u :: rest) []

/-- Trim trailing whitespace from each line; without `eol` the line breaks stay as they are. -/
def trimTrailingWhitespace (text : JsString) (eol : Option JsString) : JsString :=
  match eol.filter (· ≠ []) with
  | none => trimLineEnds text
  | some eol =>
      eol.intercalate ((splitLines (Save.lfText text)).map fun line => line.rdropWhile isSpaceOrTab)

/-- `text.replace(/(\r\n|\r|\n)+$/, "")`. -/
def stripFinalBreaks (text : JsString) : JsString := text.rdropWhile isBreak

/-- The line ending `adjustFinalNewline` detects. -/
def detectedEol (text : JsString) : JsString :=
  if [cr, lf] <:+: text then [cr, lf]
  else if cr ∈ text ∧ lf ∉ text then [cr]
  else [lf]

/-- Adjust the newline at the end of the file: exactly one, or none. -/
def adjustFinalNewline (text : JsString) (insertFinalNewline : Bool) (eol : Option JsString) :
    JsString :=
  if text.length = 0 then text
  else if !insertFinalNewline then stripFinalBreaks text
  else
    match eol.filter (· ≠ []) with
    | some eol => stripFinalBreaks text ++ eol
    | none => stripFinalBreaks text ++ detectedEol text

/-- Normalize line endings to the requested format. -/
def normalizeLineEndings (text : JsString) (targetEol : SaveEol) : JsString :=
  match targetEol with
  | .lf => Save.lfText text
  | .crlf => (Save.lfText text).flatMap fun u => if u = lf then [cr, lf] else [u]
  | .cr => (Save.lfText text).map fun u => if u = lf then cr else u

/-- `text.lastIndexOf(pattern)`; `none` is -1. -/
def lastIndexOf (text pattern : JsString) : Option ℕ :=
  (List.range (text.length + 1)).reverse.find? fun i => pattern.isPrefixOf (text.drop i)

def containsDisabledFormatterMarker (text : JsString) : Bool :=
  match lastIndexOf text (ascii "@formatter:off") with
  | none => false
  | some offIndex => (lastIndexOf text (ascii "@formatter:on")).all (· < offIndex)

/-! ## Options and results -/

inductive SaveStageKind where
  | format | organizeImports | trim | finalNewline | eol | charsetBom
deriving DecidableEq

inductive SaveStageStatus where
  | applied | executed | disabled | unavailable | failed | stale | skippedPriorFailure
deriving DecidableEq

structure SaveStageReport where
  stage : SaveStageKind
  status : SaveStageStatus
  error : Option JsString := none
  reason : Option String := none
  beforeHash : String
  afterHash : String
deriving DecidableEq

/-- The fields of a code style that normalization reads. -/
structure CodeStyle where
  trimTrailingWhitespace : Bool
  insertFinalNewline : Option Bool
  endOfLine : Option SaveEol
  charset : Option String
deriving DecidableEq

structure EffectiveSavePolicyV4 where
  formatEnabled : Bool
  organizeImportsEnabled : Bool
  formatterMarkers : Bool
deriving DecidableEq

/-- A formatter or import organizer: it may throw, or have no answer. -/
abbrev SaveProvider := JsString → Except JsString (Option JsString)

/-- `pathIsExcluded` is what `isPathExcluded` says of the file under the policy. The buffer's version
is the one read when the stage asks for it. -/
structure SaveNormalizationOptions where
  text : JsString
  codeStyle : CodeStyle
  savePolicy : Option EffectiveSavePolicyV4
  pathIsExcluded : Bool
  formatOnSave : Bool
  formatFn : Option SaveProvider
  organizeImportsOnSave : Bool
  organizeImportsFn : Option SaveProvider
  getLatestBufferText : Option JsString
  expectedVersion : Option ℕ
  getLatestBufferVersion : Option (SaveStageKind → ℕ)

inductive SaveDisposition where
  | ready | stale | failed | cancelled
deriving DecidableEq

structure SaveNormalizationResult where
  text : JsString
  formatted : Bool := false
  importsOrganized : Bool := false
  whitespaceTrimmed : Bool := false
  newlineAdjusted : Bool := false
  eolNormalized : Bool := false
  cancelledDueToEdit : Bool
  encodingError : Bool := false
  diagnostics : List JsString
  stages : List SaveStageReport
  resolvedEol : Option SaveEol := none
  resolvedCharset : Option String := none
  resolvedBom : Option Bool := none
  disposition : SaveDisposition
deriving DecidableEq

/-- The variables of the run. -/
structure SaveDraft where
  currentText : JsString
  formatted : Bool := false
  importsOrganized : Bool := false
  whitespaceTrimmed : Bool := false
  newlineAdjusted : Bool := false
  eolNormalized : Bool := false
  diagnostics : List JsString := []
  stages : List SaveStageReport := []
  stopEffectful : Bool := false
deriving DecidableEq

/-! ## Stages -/

section Stages

variable (sha256 : Sha256)

/-- A stage that leaves the text alone. -/
def SaveDraft.skip (draft : SaveDraft) (stage : SaveStageKind) (status : SaveStageStatus)
    (reason : Option String) : SaveDraft :=
  let hash := sha256.hexOfText draft.currentText
  { draft with
    stages := draft.stages ++ [{ stage, status, reason, beforeHash := hash, afterHash := hash }] }

/-- Whether a stage changed the text, as its hashes say. -/
def SaveDraft.changed (draft : SaveDraft) (text : JsString) : Bool :=
  sha256.hexOfText text ≠ sha256.hexOfText draft.currentText

/-- A stage that gives the text `text`. -/
def SaveDraft.apply (draft : SaveDraft) (stage : SaveStageKind) (text : JsString) : SaveDraft :=
  { draft with
    currentText := text
    stages := draft.stages ++ [{
      stage
      status := if draft.changed sha256 text then .applied else .executed
      beforeHash := sha256.hexOfText draft.currentText
      afterHash := sha256.hexOfText text }] }

/-- The call of a provider. A result that arrives after an edit ends the run. -/
def runProvider (options : SaveNormalizationOptions) (stage : SaveStageKind)
    (provider : SaveProvider) (stale failed : String) (draft : SaveDraft) :
    Except SaveNormalizationResult SaveDraft :=
  match provider draft.currentText with
  | .error msg =>
      let hash := sha256.hexOfText draft.currentText
      .ok { draft with
        diagnostics := draft.diagnostics ++ [ascii failed ++ msg]
        stages := draft.stages ++ [{
          stage, status := .failed, error := some msg, beforeHash := hash, afterHash := hash }]
        stopEffectful := true }
  | .ok none => .ok (draft.skip sha256 stage .unavailable (some "no-change-or-empty"))
  | .ok (some result) =>
      let edited : Bool := match options.getLatestBufferVersion, options.expectedVersion with
        | some latest, some expected => latest stage ≠ expected
        | _, _ => false
      if edited then
        .error {
          text := options.text
          formatted := draft.formatted
          cancelledDueToEdit := true
          diagnostics := [ascii stale]
          stages := (draft.skip sha256 stage .stale (some "concurrent edit")).stages
          disposition := .stale }
      else .ok (draft.apply sha256 stage result)

/-- Stage 1. -/
def formatStage (options : SaveNormalizationOptions) (draft : SaveDraft) :
    Except SaveNormalizationResult SaveDraft :=
  let formatEnabled := (options.savePolicy.map (·.formatEnabled)).getD options.formatOnSave
  let pathIsExcluded := options.savePolicy.isSome && options.pathIsExcluded
  let markerOff := options.savePolicy.any fun policy =>
    policy.formatterMarkers && containsDisabledFormatterMarker draft.currentText
  if !formatEnabled then .ok (draft.skip sha256 .format .disabled (some "format-disabled"))
  else if pathIsExcluded then .ok (draft.skip sha256 .format .disabled (some "path-excluded"))
  else if markerOff then .ok (draft.skip sha256 .format .disabled (some "formatter-marker-off"))
  else
    match options.formatFn with
    | none => .ok (draft.skip sha256 .format .unavailable (some "no-provider"))
    | some formatFn =>
        (runProvider sha256 options .format formatFn
          "Formatter cancelled because buffer was modified concurrently." "Format on save failed: "
          draft).map fun next =>
            { next with formatted := draft.changed sha256 next.currentText }

/-- Stage 2. -/
def organizeImportsStage (options : SaveNormalizationOptions) (draft : SaveDraft) :
    Except SaveNormalizationResult SaveDraft :=
  let organizeImportsEnabled :=
    (options.savePolicy.map (·.organizeImportsEnabled)).getD options.organizeImportsOnSave
  if draft.stopEffectful then
    .ok (draft.skip sha256 .organizeImports .skippedPriorFailure
      (some "Skipped due to prior format failure"))
  else if !organizeImportsEnabled then
    .ok (draft.skip sha256 .organizeImports .disabled (some "organize-imports-disabled"))
  else
    match options.organizeImportsFn with
    | none => .ok (draft.skip sha256 .organizeImports .unavailable (some "no-provider"))
    | some organizeImportsFn =>
        (runProvider sha256 options .organizeImports organizeImportsFn
          "Organize imports cancelled because buffer was modified concurrently."
          "Organize imports on save failed: " draft).map fun next =>
            { next with importsOrganized := draft.changed sha256 next.currentText }

/-- Stage 3. -/
def trimStage (codeStyle : CodeStyle) (draft : SaveDraft) : SaveDraft :=
  if codeStyle.trimTrailingWhitespace then
    let trimmed := trimTrailingWhitespace draft.currentText none
    { draft.apply sha256 .trim trimmed with whitespaceTrimmed := draft.changed sha256 trimmed }
  else draft.skip sha256 .trim .disabled none

/-- Stage 4. -/
def finalNewlineStage (codeStyle : CodeStyle) (draft : SaveDraft) : SaveDraft :=
  match codeStyle.insertFinalNewline with
  | some insertFinalNewline =>
      let adjusted := adjustFinalNewline draft.currentText insertFinalNewline none
      { draft.apply sha256 .finalNewline adjusted with
        newlineAdjusted := draft.changed sha256 adjusted }
  | none => draft.skip sha256 .finalNewline .disabled none

/-- Stage 5. -/
def eolStage (codeStyle : CodeStyle) (draft : SaveDraft) : SaveDraft :=
  match codeStyle.endOfLine with
  | some endOfLine =>
      let eolFixed := normalizeLineEndings draft.currentText endOfLine
      { draft.apply sha256 .eol eolFixed with eolNormalized := draft.changed sha256 eolFixed }
  | none => draft.skip sha256 .eol .disabled none

/-- The charset stage of an encoding with one byte a character: the first character above the limit
is an error, and the untouched text is returned. -/
def singleByteCharset (options : SaveNormalizationOptions) (limit : ℕ) (name range : String)
    (draft : SaveDraft) : Except SaveNormalizationResult SaveDraft :=
  let hash := sha256.hexOfText draft.currentText
  match draft.currentText.findIdx? fun u => limit < u.toNat with
  | some errorIndex =>
      .error {
        text := options.text
        cancelledDueToEdit := false
        encodingError := true
        diagnostics := [ascii "Save blocked: Character '" ++ draft.currentText[errorIndex]?.toList
          ++ ascii "' at position " ++ ascii (toString errorIndex) ++ ascii " exceeds "
          ++ ascii range ++ ascii " range (cannot be represented in " ++ ascii name ++ ascii ")."]
        stages := draft.stages ++ [{
          stage := .charsetBom
          status := .failed
          error := some (ascii name ++ ascii " encoding error")
          beforeHash := hash
          afterHash := hash }]
        disposition := .failed }
  | none => .ok (draft.skip sha256 .charsetBom .executed none)

/-- Stage 6: the draft, `resolvedCharset` and `resolvedBom`. The names compared with are ASCII, so the
lower case of ASCII letters decides. -/
def charsetStage (options : SaveNormalizationOptions) (draft : SaveDraft) :
    Except SaveNormalizationResult (SaveDraft × Option String × Option Bool) :=
  match options.codeStyle.charset with
  | none => .ok (draft.skip sha256 .charsetBom .disabled none, none, none)
  | some codeStyleCharset =>
      let charset := codeStyleCharset.toLower
      if codeStyleCharset = "" then
        .ok (draft.skip sha256 .charsetBom .disabled none, some codeStyleCharset, none)
      else if charset = "utf-8" then
        let text := if draft.currentText.head? = some 0xFEFF then draft.currentText.tail
          else draft.currentText
        .ok (draft.apply sha256 .charsetBom text, some "UTF-8", some false)
      else if charset = "utf-8-bom" then
        let text := if draft.currentText.length > 0 ∧ draft.currentText.head? ≠ some 0xFEFF then
          0xFEFF :: draft.currentText else draft.currentText
        .ok (draft.apply sha256 .charsetBom text, some "UTF-8", some true)
      else if charset = "latin1" ∨ charset = "iso-8859-1" then
        (singleByteCharset sha256 options 255 "Latin-1" "Latin-1" draft).map
          (·, some "ISO-8859-1", none)
      else if charset = "us-ascii" ∨ charset = "ascii" then
        (singleByteCharset sha256 options 127 "US-ASCII" "ASCII" draft).map
          (·, some "US-ASCII", none)
      else if charset = "utf-16le" ∨ charset = "utf-16be" ∨ charset = "utf-16" then
        .ok (draft.skip sha256 .charsetBom .executed none, some charset.toUpper, none)
      else .ok (draft, some codeStyleCharset, none)

/-- The stages up to the charset. -/
def prepareStages (options : SaveNormalizationOptions) : Except SaveNormalizationResult SaveDraft :=
  match formatStage sha256 options { currentText := options.text } with
  | .error result => .error result
  | .ok draft =>
      match organizeImportsStage sha256 options draft with
      | .error result => .error result
      | .ok draft =>
          .ok (eolStage sha256 options.codeStyle (finalNewlineStage sha256 options.codeStyle
            (trimStage sha256 options.codeStyle draft)))

/-- Run the save normalization pipeline. -/
def runSaveNormalizationPipeline (options : SaveNormalizationOptions) : SaveNormalizationResult :=
  match prepareStages sha256 options with
  | .error result => result
  | .ok draft =>
      match charsetStage sha256 options draft with
      | .error result => result
      | .ok (draft, resolvedCharset, resolvedBom) =>
          let result : SaveNormalizationResult := {
            text := draft.currentText
            formatted := draft.formatted
            importsOrganized := draft.importsOrganized
            whitespaceTrimmed := draft.whitespaceTrimmed
            newlineAdjusted := draft.newlineAdjusted
            eolNormalized := draft.eolNormalized
            cancelledDueToEdit := false
            diagnostics := draft.diagnostics
            stages := draft.stages
            resolvedEol := options.codeStyle.endOfLine
            resolvedCharset
            resolvedBom
            disposition := .ready }
          -- the buffer may have changed while the providers ran
          match options.getLatestBufferText.filter fun latestText =>
            latestText ≠ options.text ∧ latestText ≠ draft.currentText with
          | none => result
          | some latestText =>
              { result with
                text := latestText
                cancelledDueToEdit := true
                diagnostics := [ascii "Normalization aborted due to newer buffer edits."]
                resolvedEol := none
                resolvedCharset := none
                resolvedBom := none
                disposition := .stale }

end Stages

end Taomni.SaveNormalization
