import Mathlib.Data.List.DropRight
import Taomni.Common.Utf8
import Taomni.Lsp.TextEdits

/-!
# Search in the workspace

The hits that a search reports for the text of one file.

Reference: `src-tauri/src/workspace_search.rs`.
-/

namespace Taomni.Replace

open List

abbrev Text := List Char

/-- The lines of a text, each with the LF at its end. -/
def lfLines : Text → List Text
  | [] => []
  | c :: rest =>
    if c = '\n' then [c] :: lfLines rest
    else
      match lfLines rest with
      | [] => [[c]]
      | line :: lines => (c :: line) :: lines

/-- `trim_end_matches(['\r', '\n'])`. -/
def trimEnd (line : Text) : Text := line.rdropWhile fun c => c = '\r' || c = '\n'

/-! ## Hits -/

/-- The compiled query: which lines the library hands over, and what matches inside a line, in bytes. -/
structure Matcher where
  isMatch : Text → Bool
  findIter : Text → List (ℕ × ℕ)
  inside : ∀ line, ∀ p ∈ findIter line, p.1 ≤ p.2 ∧ p.2 ≤ byteLength line

structure SearchOptions where
  maxMatchesPerFile : Option ℕ
  maxTotalMatches : Option ℕ

def defaultTotalMatchLimit : ℕ := 10000

def defaultFileMatchLimit : ℕ := 1000

def maxTotalMatchLimit : ℕ := 100000

def maxFileMatchLimit : ℕ := 10000

def SearchOptions.totalLimit (options : SearchOptions) : ℕ :=
  min (max (options.maxTotalMatches.getD defaultTotalMatchLimit) 1) maxTotalMatchLimit

def SearchOptions.fileLimit (options : SearchOptions) : ℕ :=
  min (max (options.maxMatchesPerFile.getD defaultFileMatchLimit) 1) maxFileMatchLimit

/-- Where a match was found: the number of its line, the trimmed line, and the bytes in it. -/
structure Hit where
  lineNumber : ℕ
  lineText : Text
  start : ℕ
  stop : ℕ
deriving DecidableEq

/-- What is reported of a hit. -/
structure WorkspaceSearchMatch where
  rootPath : Text
  path : Text
  lineNumber : ℕ
  column : ℕ
  matchStart : ℕ
  matchEnd : ℕ
  lineText : Text
deriving DecidableEq

/-- An offset in characters, or the bytes of the whole text where the offset is inside of a character. -/
def charOffset (text : Text) (byteOffset : ℕ) : ℕ :=
  match cutAt byteOffset text with
  | some (front, _) => front.length
  | none => byteLength text

def Hit.report (rootPath path : Text) (hit : Hit) : WorkspaceSearchMatch where
  rootPath := rootPath
  path := path
  lineNumber := hit.lineNumber
  column := charOffset hit.lineText hit.start + 1
  matchStart := charOffset hit.lineText hit.start
  matchEnd := charOffset hit.lineText hit.stop
  lineText := hit.lineText

/-! ## The search of a file -/

/-- What is counted over a file. -/
structure Counts where
  fileMatches : ℕ
  totalMatches : ℕ

def Counts.full (options : SearchOptions) (counts : Counts) : Bool :=
  options.fileLimit ≤ counts.fileMatches || options.totalLimit ≤ counts.totalMatches

def Counts.next (counts : Counts) : Counts := ⟨counts.fileMatches + 1, counts.totalMatches + 1⟩

/-- The hits of a line until the limits are reached. -/
def lineHits (options : SearchOptions) (lineNumber : ℕ) (lineText : Text) :
    List (ℕ × ℕ) → Counts → List Hit × Counts
  | [], counts => ([], counts)
  | (start, stop) :: rest, counts =>
    if counts.full options then ([], counts)
    else
      let (hits, counts) := lineHits options lineNumber lineText rest counts.next
      (⟨lineNumber, lineText, start, stop⟩ :: hits, counts)

/-- The hits of lines, numbered from a line on. -/
def fileHits (matcher : Matcher) (options : SearchOptions) : List Text → ℕ → Counts → List Hit
  | [], _, _ => []
  | line :: lines, lineNumber, counts =>
    if !matcher.isMatch line then fileHits matcher options lines (lineNumber + 1) counts
    else if counts.full options then []
    else
      let lineText := trimEnd line
      let (hits, counts) := lineHits options lineNumber lineText (matcher.findIter lineText) counts
      hits ++ fileHits matcher options lines (lineNumber + 1) counts

/-- The hits of a file after some matches in other files. -/
def searchHits (matcher : Matcher) (options : SearchOptions) (totalMatches : ℕ) (text : Text) :
    List Hit :=
  fileHits matcher options (lfLines text) 1 ⟨0, totalMatches⟩

/-- The part of `run_workspace_search` for one file. -/
def searchFile (matcher : Matcher) (options : SearchOptions) (totalMatches : ℕ)
    (rootPath path text : Text) : List WorkspaceSearchMatch :=
  (searchHits matcher options totalMatches text).map (Hit.report rootPath path)

/-! ## Where hits are -/

/-- The text before a line. -/
def textBefore (text : Text) (line : ℕ) : Text := ((lfLines text).take line).flatten

/-- A hit is in a line of the text. -/
structure Hit.Of (hit : Hit) (text : Text) : Prop where
  line : ∃ index line, hit.lineNumber = index + 1 ∧ (lfLines text)[index]? = some line ∧
    hit.lineText = trimEnd line
  inside : hit.start ≤ hit.stop ∧ hit.stop ≤ byteLength hit.lineText

variable {options : SearchOptions}

theorem lineHits_inside {lineNumber : ℕ} {lineText : Text}
    {ranges : List (ℕ × ℕ)} (hinside : ∀ p ∈ ranges, p.1 ≤ p.2 ∧ p.2 ≤ byteLength lineText)
    (counts : Counts) : ∀ hit ∈ (lineHits options lineNumber lineText ranges counts).1,
      hit.lineNumber = lineNumber ∧ hit.lineText = lineText ∧ hit.start ≤ hit.stop ∧
        hit.stop ≤ byteLength lineText := by
  induction ranges generalizing counts with
  | nil => exact fun _ h => absurd h not_mem_nil
  | cons range rest ih =>
    obtain ⟨hrange, hrest⟩ := forall_mem_cons.mp hinside
    unfold lineHits
    split
    · exact fun _ h => absurd h not_mem_nil
    · exact forall_mem_cons.mpr ⟨⟨rfl, rfl, hrange⟩, ih hrest counts.next⟩

theorem fileHits_of {matcher : Matcher} {text : Text} (before : List Text)
    {lines : List Text} (hlines : lfLines text = before ++ lines) (counts : Counts) :
    ∀ hit ∈ fileHits matcher options lines (before.length + 1) counts, hit.Of text := by
  induction lines generalizing before counts with
  | nil => exact fun _ h => absurd h not_mem_nil
  | cons line lines ih =>
    have hnext (counts : Counts) :
        ∀ hit ∈ fileHits matcher options lines (before.length + 1 + 1) counts, hit.Of text := by
      have hall := ih (before ++ [line]) (by rw [hlines, append_assoc]; rfl) counts
      rw [length_append, length_singleton] at hall
      exact hall
    unfold fileHits
    split
    · exact hnext counts
    · split
      · exact fun _ h => absurd h not_mem_nil
      · refine forall_mem_append.mpr ⟨fun hit hhit => ?_, hnext _⟩
        obtain ⟨hnumber, htext, hinside⟩ :=
          lineHits_inside (fun p hp => matcher.inside _ p hp) counts hit hhit
        refine ⟨⟨before.length, line, hnumber, ?_, htext⟩, ?_⟩
        · rw [hlines, getElem?_append_right (Nat.le_refl _), Nat.sub_self]
          rfl
        · rw [htext]
          exact hinside

/-- Every hit of a search is in a line of the text. -/
theorem hit_of_search {matcher : Matcher} {totalMatches : ℕ} {text : Text}
    {hit : Hit} (h : hit ∈ searchHits matcher options totalMatches text) : hit.Of text :=
  fileHits_of [] rfl _ hit h

/-! ## Lines and their text -/

theorem flatten_lfLines (text : Text) : (lfLines text).flatten = text := by
  induction text with
  | nil => rfl
  | cons c rest ih =>
    unfold lfLines
    split
    · rw [flatten_cons, ih]
      rfl
    · split
      · rename_i hnil
        rw [hnil] at ih
        rw [← ih]
        rfl
      · rename_i line lines hcons
        rw [hcons] at ih
        rw [← ih]
        rfl

theorem text_eq_line {text line : Text} {index : ℕ} (h : (lfLines text)[index]? = some line) :
    text = textBefore text index ++ line ++ ((lfLines text).drop (index + 1)).flatten := by
  obtain ⟨hlt, hline⟩ := List.getElem?_eq_some_iff.mp h
  conv_lhs => rw [← flatten_lfLines text, ← take_append_drop index (lfLines text),
    drop_eq_getElem_cons hlt, hline, flatten_append, flatten_cons, ← append_assoc]
  rfl

/-- Before a line stand as many LF as lines, the last one at the end. -/
theorem textBefore_line {text line : Text} {index : ℕ} (h : (lfLines text)[index]? = some line) :
    (textBefore text index).count '\n' = index ∧
      (textBefore text index = [] ∨ ∃ front, textBefore text index = front ++ ['\n']) := by
  unfold textBefore
  induction text generalizing index line with
  | nil => cases h
  | cons c rest ih =>
    cases index with
    | zero => exact ⟨rfl, .inl rfl⟩
    | succ index =>
      unfold lfLines at h ⊢
      by_cases hc : c = '\n'
      · rw [if_pos hc] at h ⊢
        obtain ⟨hcount, hends⟩ := ih h
        rw [take_succ_cons, flatten_cons, hc]
        refine ⟨by rw [singleton_append, count_cons_self, hcount], .inr ?_⟩
        rcases hends with hnil | ⟨front, hfront⟩
        · rw [hnil]
          exact ⟨[], rfl⟩
        · rw [hfront]
          exact ⟨'\n' :: front, rfl⟩
      · rw [if_neg hc] at h ⊢
        cases hlines : lfLines rest with
        | nil =>
          rw [hlines] at h
          cases h
        | cons first lines =>
          rw [hlines] at h ih
          have hnext : (first :: lines)[index + 1]? = some line := h
          obtain ⟨hcount, hends⟩ := ih hnext
          dsimp only
          rw [take_succ_cons, flatten_cons] at hcount hends ⊢
          refine ⟨?_, ?_⟩
          · rw [cons_append, count_cons_of_ne hc, hcount]
          · rcases hends with hnil | ⟨front, hfront⟩
            · rw [hnil] at hcount
              cases hcount
            · rw [cons_append, hfront]
              exact .inr ⟨c :: front, rfl⟩

/-!
# Replace in files

Search matches become the edits of documents, and are compared with the text on disk before they are
applied.

Reference: `components/editor/workspace/replaceModel/coordinates.ts` and `planning.ts`.
-/

open Lsp

/-! ## Coordinates -/

/-- A match of the search as the editor receives it. -/
structure SearchMatch where
  rootPath : Text
  path : Text
  lineNumber : ℤ
  matchStart : ℤ
  matchEnd : ℤ
  lineText : JsString

/-- The strings of a reported match are those of the runtime. -/
def WorkspaceSearchMatch.received (m : WorkspaceSearchMatch) : SearchMatch where
  rootPath := m.rootPath
  path := m.path
  lineNumber := m.lineNumber
  matchStart := m.matchStart
  matchEnd := m.matchEnd
  lineText := encodeUtf16 m.lineText

def replaceMatchAbsolutePath (m : SearchMatch) : Text :=
  if m.path.isEmpty then m.rootPath
  else
    (m.rootPath.map fun c => if c = '\\' then '/' else c).rdropWhile (· = '/') ++ '/' ::
      m.path.dropWhile (· = '/')

/-- Whether `codePointAt` reads two code units. -/
def isSurrogatePair (high low : UInt16) : Bool :=
  0xD800 ≤ high.toNat && high.toNat < 0xDC00 && (0xDC00 ≤ low.toNat && low.toNat < 0xE000)

/-- The loop over the code points of a line: the code units of the first ones. -/
def codePointLoop : JsString → ℕ → Option ℕ
  | _, 0 => some 0
  | [], _ + 1 => none
  | [_], offset + 1 => (codePointLoop [] offset).map (1 + ·)
  | high :: low :: rest, offset + 1 =>
    if isSurrogatePair high low then (codePointLoop rest offset).map (2 + ·)
    else (codePointLoop (low :: rest) offset).map (1 + ·)

def codePointOffsetToUtf16OffsetChecked (lineText : JsString) (offset : ℤ) : Option ℕ :=
  if offset < 0 then none else codePointLoop lineText offset.toNat

structure InvalidSearchMatchCoordinatesError where
  path : Text
  lineNumber : ℤ
  offset : ℤ

def InvalidSearchMatchCoordinatesError.message (e : InvalidSearchMatchCoordinatesError) : Text :=
  "Search match at ".toList ++ e.path ++ ':' :: (toString e.lineNumber).toList ++ " has ".toList ++
    (if e.lineNumber < 1 then "an invalid line number ".toList ++ (toString e.lineNumber).toList
      else "an invalid offset ".toList ++ (toString e.offset).toList) ++
    "; replace refused".toList

structure ReplaceInFilesMatch where
  filePath : Text
  fileUri : Text
  startLine : ℤ
  startCharacter : ℤ
  endLine : ℤ
  endCharacter : ℤ
  matchedText : JsString

/-- One match of `searchMatchesToReplaceInputs`. -/
def toReplaceInput (m : SearchMatch) : Except InvalidSearchMatchCoordinatesError ReplaceInFilesMatch :=
  let absolute := replaceMatchAbsolutePath m
  if m.lineNumber < 1 then .error ⟨absolute, m.lineNumber, m.matchStart⟩
  else
    match codePointOffsetToUtf16OffsetChecked m.lineText m.matchStart,
      codePointOffsetToUtf16OffsetChecked m.lineText m.matchEnd with
    | none, _ => .error ⟨absolute, m.lineNumber, m.matchStart⟩
    | some _, none => .error ⟨absolute, m.lineNumber, m.matchEnd⟩
    | some startCharacter, some endCharacter =>
      if endCharacter < startCharacter then .error ⟨absolute, m.lineNumber, m.matchEnd⟩
      else
        .ok
          { filePath := absolute
            fileUri := "file://".toList ++ absolute
            startLine := m.lineNumber - 1
            startCharacter := startCharacter
            endLine := m.lineNumber - 1
            endCharacter := endCharacter
            matchedText := slice m.lineText startCharacter endCharacter }

def searchMatchesToReplaceInputs (ms : List SearchMatch) :
    Except InvalidSearchMatchCoordinatesError (List ReplaceInFilesMatch) :=
  ms.mapM toReplaceInput

/-! ## Edits -/

structure LspFileTextEdits where
  uri : Text
  path : Text
  edits : List LspTextEdit

def ReplaceInFilesMatch.edit (replacementText : JsString) (m : ReplaceInFilesMatch) : LspTextEdit :=
  ⟨⟨⟨m.startLine, m.startCharacter⟩, ⟨m.endLine, m.endCharacter⟩⟩, replacementText⟩

/-- One round of the loop that groups by the keys of paths. -/
def addEdit (pathKey : Text → Text) (replacementText : JsString)
    (groups : List (Text × LspFileTextEdits)) (m : ReplaceInFilesMatch) : List (Text × LspFileTextEdits) :=
  let canonicalKey := pathKey m.filePath
  let uri := if m.fileUri.isEmpty then
      "file://".toList ++ m.filePath.map fun c => if c = '\\' then '/' else c
    else m.fileUri
  let groups := if groups.any (·.1 = canonicalKey) then groups
    else groups ++ [(canonicalKey, ⟨uri, m.filePath, []⟩)]
  groups.map fun group => if group.1 = canonicalKey then
      (group.1, { group.2 with edits := group.2.edits ++ [m.edit replacementText] })
    else group

/-- `buildReplaceInFilesWorkspaceEdit`: its document edits. -/
def buildReplaceInFilesWorkspaceEdit (pathKey : Text → Text) (ms : List ReplaceInFilesMatch)
    (replacementText : JsString) : List LspFileTextEdits :=
  (ms.foldl (addEdit pathKey replacementText) []).map Prod.snd

/-! ## Freshness -/

structure ReplaceMatchFreshnessConflict where
  path : Text
  reason : JsString

def unreadable (m : ReplaceInFilesMatch) : ReplaceMatchFreshnessConflict :=
  ⟨m.filePath, .ascii "File is no longer readable on disk since search"⟩

def changed (m : ReplaceInFilesMatch) : ReplaceMatchFreshnessConflict :=
  ⟨m.filePath, .ascii "Match \"" ++ m.matchedText ++ .ascii "\" changed since search (line " ++
    .ascii (toString (m.startLine + 1)) ++ .ascii ")"⟩

/-- The conflict of one match. -/
def freshnessConflict (diskTexts : List (Text × JsString)) (m : ReplaceInFilesMatch) :
    Option ReplaceMatchFreshnessConflict :=
  match diskTexts.lookup m.filePath with
  | none => some (unreadable m)
  | some diskText =>
    if m.startLine ≠ m.endLine ∨ m.startLine < 0 ∨ m.endLine < 0 ∨ m.startCharacter < 0 ∨
        m.endCharacter < m.startCharacter then some (changed m)
    else
      match offsetFromLspPositionInStringStrict diskText ⟨m.startLine, m.startCharacter⟩,
        offsetFromLspPositionInStringStrict diskText ⟨m.endLine, m.endCharacter⟩ with
      | some startOffset, some endOffset =>
        if endOffset < startOffset ∨ slice diskText startOffset endOffset ≠ m.matchedText then
          some (changed m)
        else none
      | _, _ => some (changed m)

def verifyReplaceMatchFreshness (diskTexts : List (Text × JsString)) (ms : List ReplaceInFilesMatch) :
    List ReplaceMatchFreshnessConflict :=
  ms.filterMap (freshnessConflict diskTexts)

end Taomni.Replace
