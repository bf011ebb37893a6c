import Taomni.Common.Lines

/-!
# Export to and import from mbox

A folder is exported as one text: for each message a separator line, the message with its `From ` lines
quoted, and a blank line. Import splits such a text. The two are inverse up to line ends and blank
lines at the end of a message (`splitMbox_export`).

Reference: `src-tauri/src/mail/mbox.rs`.
-/

namespace Taomni.Mail

open List

def lf : UInt8 := 10
def cr : UInt8 := 13

/-- The byte `>`. -/
def quote : UInt8 := 62

/-- The bytes of `From `. -/
def fromWord : List UInt8 := [70, 114, 111, 109, 32]

/-! ## Export -/

/-- What `%a %b %e %H:%M:%S %Y` prints for a time. -/
structure Asctime where
  text : List UInt8
  oneLine : lf ∉ text

/-- The line `From - ` with a time. -/
def separatorLine (time : Asctime) : List UInt8 := fromWord ++ [45, 32] ++ time.text

def mboxSeparator (time : Asctime) : List UInt8 := separatorLine time ++ [lf]

def isFromLine (line : List UInt8) : Bool :=
  let quoted := (line.takeWhile (· == quote)).length
  fromWord.isPrefixOf (line.drop quoted)

/-- `strip_suffix(b"\r")`. -/
def stripCr (line : List UInt8) : List UInt8 :=
  if line.getLast? = some cr then line.dropLast else line

def escapeLine (line : List UInt8) : List UInt8 :=
  if isFromLine line then quote :: line else line

def mboxrdEscape (raw : List UInt8) : List UInt8 :=
  let out := (raw.splitOn lf).flatMap fun line => escapeLine (stripCr line) ++ [lf]
  if raw.getLast? = some lf then out.dropLast else out

/-- What `imap_export_folder` writes for one message. -/
def exportMessage (time : Asctime) (body : List UInt8) : List UInt8 :=
  mboxSeparator time ++ mboxrdEscape body ++ if body.getLast? = some lf then [lf] else [lf, lf]

/-! ## Import -/

def joinCrlf (lines : List (List UInt8)) : List UInt8 :=
  (lines.rdropWhile List.isEmpty).flatMap (· ++ [cr, lf])

/-- The variables of `split_mbox`. -/
structure Splitting where
  messages : List (List UInt8) := []
  current : Option (List (List UInt8)) := none
  previousBlank : Bool := true

def unquoteLine (line : List UInt8) : List UInt8 :=
  if line.head? = some quote ∧ isFromLine (line.drop 1) then line.drop 1 else line

def Splitting.line (s : Splitting) (line : List UInt8) : Splitting :=
  let line := stripCr line
  if s.previousBlank && fromWord.isPrefixOf line then
    { messages := s.messages ++ (s.current.map joinCrlf).toList
      current := some []
      previousBlank := false }
  else
    { messages := s.messages
      current := s.current.map (· ++ [unquoteLine line])
      previousBlank := line.isEmpty }

def isAsciiWhitespace (byte : UInt8) : Bool := byte ∈ ([9, 10, 12, 13, 32] : List UInt8)

/-- The messages when the last line has been read. -/
def Splitting.finish (s : Splitting) : List (List UInt8) :=
  s.messages ++ (s.current.map joinCrlf).toList

def splitMbox (data : List UInt8) : List (List UInt8) :=
  ((data.splitOn lf).foldl Splitting.line {}).finish.filter fun message =>
    !message.all isAsciiWhitespace

/-! ## Lines -/

variable {line : List UInt8}

theorem stripCr_eq_self (h : line.getLast? ≠ some cr) : stripCr line = line :=
  if_neg h

theorem isFromLine_of_startsWith (h : fromWord.isPrefixOf line) : isFromLine line = true := by
  obtain ⟨rest, rfl⟩ := isPrefixOf_iff_prefix.mp h
  rfl

theorem isFromLine_cons_quote (line : List UInt8) : isFromLine (quote :: line) = isFromLine line :=
  rfl

theorem escapeLine_getLast? (h : line.getLast? ≠ some cr) : (escapeLine line).getLast? ≠ some cr := by
  unfold escapeLine
  split
  · cases line with
    | nil => decide
    | cons byte line => rwa [getLast?_cons_cons]
  · exact h

/-- A quoted line is no separator. -/
theorem escapeLine_not_from (line : List UInt8) : fromWord.isPrefixOf (escapeLine line) = false := by
  unfold escapeLine
  cases h : isFromLine line with
  | true => rfl
  | false =>
    rw [if_neg Bool.false_ne_true, Bool.eq_false_iff]
    intro hfrom
    exact absurd (h.symm.trans (isFromLine_of_startsWith hfrom)) Bool.false_ne_true

/-- Unquoting takes one `>` from the lines that quoting gave one, and from no others. -/
theorem unquoteLine_escapeLine (line : List UInt8) : unquoteLine (escapeLine line) = line := by
  unfold unquoteLine escapeLine
  cases h : isFromLine line with
  | true => exact if_pos ⟨rfl, h⟩
  | false =>
    rw [if_neg Bool.false_ne_true]
    refine if_neg fun ⟨hquote, hrest⟩ => ?_
    obtain ⟨rest, rfl⟩ := List.head?_eq_some_iff.mp hquote
    rw [drop_one, tail_cons, ← isFromLine_cons_quote, h] at hrest
    exact absurd hrest Bool.false_ne_true

theorem isEmpty_escapeLine (line : List UInt8) : (escapeLine line).isEmpty = line.isEmpty := by
  unfold escapeLine
  split
  · rename_i h
    cases line with
    | nil => exact absurd h Bool.false_ne_true
    | cons byte line => rfl
  · rfl

/-! ## One message -/

/-- The lines of a message without their line ends. -/
def messageLines (raw : List UInt8) : List (List UInt8) := (raw.splitOn lf).map stripCr

/-- A message with CRLF line ends and without blank lines at its end. -/
def canonical (raw : List UInt8) : List UInt8 :=
  ((messageLines raw).rdropWhile List.isEmpty).flatMap (· ++ [cr, lf])

/-- Every CR is followed by an LF. -/
def NoBareCr (raw : List UInt8) : Prop :=
  ∀ before after, raw = before ++ cr :: after → after.head? = some lf

variable {raw : List UInt8}

theorem not_cr_mem_messageLines (h : NoBareCr raw) (hline : line ∈ messageLines raw) : cr ∉ line := by
  obtain ⟨piece, hpiece, rfl⟩ := mem_map.mp hline
  obtain ⟨before, after, rfl⟩ := isInfix_of_mem_splitOn hpiece
  have hlf := not_mem_of_mem_splitOn hpiece
  -- A CR within a piece ends it, or it would be bare.
  have hlast (u v : List UInt8) (hsplit : piece = u ++ cr :: v) : v = [] := by
    cases v with
    | nil => rfl
    | cons next v =>
      have hnext := h (before ++ u) (next :: v ++ after) (by rw [hsplit]; simp)
      rw [cons_append, head?_cons, Option.some_inj] at hnext
      exact absurd (by rw [hsplit, hnext]; simp) hlf
  unfold stripCr
  split
  · rename_i hcr
    obtain ⟨u, rfl⟩ := List.getLast?_eq_some_iff.mp hcr
    rw [dropLast_concat]
    intro hmem
    obtain ⟨v, w, rfl⟩ := append_of_mem hmem
    have hnil := hlast v (w ++ [cr]) (by simp)
    exact absurd hnil (append_ne_nil_of_right_ne_nil _ (cons_ne_nil _ _))
  · rename_i hcr
    intro hmem
    obtain ⟨v, w, rfl⟩ := append_of_mem hmem
    obtain rfl := hlast v w rfl
    exact hcr getLast?_concat

theorem not_lf_mem_messageLines (hline : line ∈ messageLines raw) : lf ∉ line := by
  obtain ⟨piece, hpiece, rfl⟩ := mem_map.mp hline
  have hlf := not_mem_of_mem_splitOn hpiece
  unfold stripCr
  split
  · exact fun hmem => hlf (mem_of_mem_dropLast hmem)
  · exact hlf

theorem not_lf_mem_escapeLine (h : lf ∉ line) : lf ∉ escapeLine line := by
  unfold escapeLine
  split
  · rw [mem_cons, not_or]
    exact ⟨by decide, h⟩
  · exact h

theorem mboxrdEscape_eq (raw : List UInt8) : mboxrdEscape raw =
    if raw.getLast? = some lf then (written lf ((messageLines raw).map escapeLine)).dropLast
    else written lf ((messageLines raw).map escapeLine) := by
  unfold mboxrdEscape written messageLines
  rw [flatMap_map, flatMap_map]

variable (time : Asctime)

/-- What is written for a message: the separator, its quoted lines and blank ones, which end it. -/
theorem exportMessage_eq (raw : List UInt8) : ∃ blanks init : List (List UInt8),
    (∀ line ∈ blanks, line = []) ∧ messageLines raw ++ blanks = init ++ [[]] ∧ exportMessage time raw =
      written lf (separatorLine time :: (messageLines raw ++ blanks).map escapeLine) := by
  unfold exportMessage mboxSeparator
  simp only [mboxrdEscape_eq, written_cons]
  by_cases hlf : raw.getLast? = some lf
  · obtain ⟨init, rfl⟩ := List.getLast?_eq_some_iff.mp hlf
    have hlines : messageLines (init ++ [lf]) = messageLines init ++ [[]] := by
      unfold messageLines
      rw [splitOn_concat_self, map_append]
      rfl
    refine ⟨[], messageLines init, fun _ h => absurd h not_mem_nil, ?_, ?_⟩
    · rw [append_nil, hlines]
    · have hwritten : written lf ((messageLines init ++ [[]]).map escapeLine) =
          written lf ((messageLines init).map escapeLine) ++ [lf] := by
        unfold written
        rw [map_append, flatMap_append]
        rfl
      rw [if_pos hlf, if_pos hlf, append_nil, hlines, hwritten, dropLast_concat]
      simp
  · refine ⟨[[], []], messageLines raw ++ [[]], by decide, by simp, ?_⟩
    have hwritten : written lf ((messageLines raw ++ [[], []]).map escapeLine) =
        written lf ((messageLines raw).map escapeLine) ++ [lf, lf] := by
      unfold written
      rw [map_append, flatMap_append]
      rfl
    rw [if_neg hlf, if_neg hlf, hwritten]
    simp

theorem canonical_not_blank (h : raw.all isAsciiWhitespace = false) :
    (canonical raw).all isAsciiWhitespace = false := by
  obtain ⟨byte, hbyte, hblank⟩ := List.all_eq_false.mp h
  have hlf : byte ≠ lf := by
    rintro rfl
    exact hblank rfl
  obtain ⟨piece, hpiece, hmem⟩ := exists_mem_splitOn hbyte hlf
  have hstrip : byte ∈ stripCr piece := by
    unfold stripCr
    split
    · rename_i hcr
      obtain ⟨u, rfl⟩ := List.getLast?_eq_some_iff.mp hcr
      rw [dropLast_concat]
      refine (mem_append.mp hmem).resolve_right fun hlast => hblank ?_
      rw [mem_singleton.mp hlast]
      rfl
    · exact hmem
  refine List.all_eq_false.mpr ⟨byte, ?_, hblank⟩
  refine mem_flatMap.mpr ⟨stripCr piece, mem_rdropWhile ?_ ?_, mem_append_left _ hstrip⟩
  · exact mem_map.mpr ⟨piece, hpiece, rfl⟩
  · rw [List.isEmpty_iff]
    exact ne_nil_of_mem hstrip

/-! ## Splitting -/

section

variable {messages : List (List UInt8)} {current : Option (List (List UInt8))}

theorem Splitting.line_separator : Splitting.line ⟨messages, current, true⟩ (separatorLine time) =
      ⟨messages ++ (current.map joinCrlf).toList, some [], false⟩ := by
  have hfrom : fromWord.isPrefixOf (stripCr (separatorLine time)) = true := by
    unfold stripCr separatorLine
    split
    · rename_i hcr
      rcases eq_nil_or_concat time.text with hnil | ⟨text, byte, hconcat⟩
      · rw [hnil] at hcr
        exact absurd hcr (by decide)
      · rw [hconcat, concat_eq_append, ← append_assoc, dropLast_concat]
        rfl
    · rfl
  unfold Splitting.line
  dsimp only
  rw [hfrom]
  rfl

theorem Splitting.line_body {lines : List (List UInt8)} {previousBlank : Bool}
    (h : cr ∉ line) : Splitting.line ⟨messages, some lines, previousBlank⟩ (escapeLine line) =
      ⟨messages, some (lines ++ [line]), line.isEmpty⟩ := by
  have hcr : (escapeLine line).getLast? ≠ some cr :=
    escapeLine_getLast? fun hlast => h (mem_of_getLast? hlast)
  unfold Splitting.line
  dsimp only
  rw [stripCr_eq_self hcr, escapeLine_not_from, Bool.and_false, if_neg Bool.false_ne_true,
    isEmpty_escapeLine, Option.map_some, unquoteLine_escapeLine]

theorem foldl_line_body {lines body : List (List UInt8)} {previousBlank : Bool}
    (h : ∀ line ∈ body, cr ∉ line) : ∃ blank,
    (body.map escapeLine).foldl Splitting.line ⟨messages, some lines, previousBlank⟩ =
      ⟨messages, some (lines ++ body), blank⟩ := by
  induction body generalizing lines previousBlank with
  | nil => exact ⟨previousBlank, by rw [append_nil]; rfl⟩
  | cons line body ih =>
    obtain ⟨hline, hbody⟩ := forall_mem_cons.mp h
    rw [map_cons, foldl_cons, Splitting.line_body hline]
    obtain ⟨blank, hfold⟩ := @ih (lines ++ [line]) line.isEmpty hbody
    exact ⟨blank, by rw [hfold, append_assoc]; rfl⟩

theorem joinCrlf_append {lines blanks : List (List UInt8)} (h : ∀ line ∈ blanks, line = []) :
    joinCrlf (lines ++ blanks) = joinCrlf lines := by
  unfold joinCrlf
  rw [rdropWhile_append_of_forall fun line hline => List.isEmpty_iff.mpr (h line hline)]

/-- The lines that are written for a message are split into that message. After it the last line was
blank, so that the next separator counts. -/
theorem exportMessage_lines (h : NoBareCr raw) :
    ∃ lines, exportMessage time raw = written lf lines ∧ (∀ line ∈ lines, lf ∉ line) ∧
      ∀ messages current, ∃ body, joinCrlf body = canonical raw ∧
        lines.foldl Splitting.line ⟨messages, current, true⟩ =
          ⟨messages ++ (current.map joinCrlf).toList, some body, true⟩ := by
  obtain ⟨blanks, init, hblanks, hinit, hwritten⟩ := exportMessage_eq time raw
  have hbody : ∀ line ∈ messageLines raw ++ blanks, cr ∉ line ∧ lf ∉ line := by
    intro line hline
    rcases mem_append.mp hline with hline | hline
    · exact ⟨not_cr_mem_messageLines h hline, not_lf_mem_messageLines hline⟩
    · rw [hblanks line hline]
      exact ⟨not_mem_nil, not_mem_nil⟩
  refine ⟨_, hwritten, ?_, fun messages current => ⟨messageLines raw ++ blanks,
    joinCrlf_append hblanks, ?_⟩⟩
  · refine forall_mem_cons.mpr ⟨?_, ?_⟩
    · unfold separatorLine
      rw [mem_append, not_or]
      exact ⟨by decide, time.oneLine⟩
    · rw [forall_mem_map]
      exact fun line hline => not_lf_mem_escapeLine (hbody line hline).2
  · rw [hinit] at hbody ⊢
    obtain ⟨hhead, hlast⟩ := forall_mem_append.mp hbody
    obtain ⟨blank, hfold⟩ := foldl_line_body fun line hline => (hhead line hline).1
    rw [foldl_cons, Splitting.line_separator, map_append, foldl_append, hfold,
      nil_append]
    exact Splitting.line_body not_mem_nil

theorem exportMessages_lines {ms : List (Asctime × List UInt8)} (h : ∀ m ∈ ms, NoBareCr m.2) :
    ∃ lines, ms.flatMap (fun m => exportMessage m.1 m.2) = written lf lines ∧
      (∀ line ∈ lines, lf ∉ line) ∧ ∀ messages current,
        (lines.foldl Splitting.line ⟨messages, current, true⟩).finish =
          messages ++ (current.map joinCrlf).toList ++ ms.map fun m => canonical m.2 := by
  induction ms with
  | nil =>
    refine ⟨[], rfl, fun _ h => absurd h not_mem_nil, fun messages current => ?_⟩
    rw [map_nil, append_nil]
    rfl
  | cons m ms ih =>
    obtain ⟨hm, hms⟩ := forall_mem_cons.mp h
    obtain ⟨first, hfirst, hfirstLf, hfirstFold⟩ := exportMessage_lines m.1 hm
    obtain ⟨rest, hrest, hrestLf, hrestFold⟩ := ih hms
    refine ⟨first ++ rest, ?_, forall_mem_append.mpr ⟨hfirstLf, hrestLf⟩,
      fun messages current => ?_⟩
    · unfold written at hfirst hrest ⊢
      rw [flatMap_cons, flatMap_append, hfirst, hrest]
    · obtain ⟨body, hbody, hfold⟩ := hfirstFold messages current
      rw [foldl_append, hfold, hrestFold, Option.map_some, hbody, map_cons]
      simp

/-- The empty piece after the last line end changes nothing. -/
theorem Splitting.finish_line_nil (s : Splitting) : (s.line []).finish = s.finish := by
  have hline : s.line [] = ⟨s.messages, s.current.map (· ++ [[]]), true⟩ := by
    cases s with
    | mk messages current previousBlank => cases previousBlank <;> rfl
  rw [hline]
  unfold Splitting.finish
  cases s.current with
  | none => rfl
  | some lines =>
    rw [Option.map_some, Option.map_some, joinCrlf_append (by decide)]
    rfl

end

/-! ## Round trip -/

/-- Exported messages are imported again: one for each, in order, with CRLF line ends and without
blank lines at the end. -/
theorem splitMbox_export (ms : List (Asctime × List UInt8))
    (h : ∀ m ∈ ms, NoBareCr m.2 ∧ m.2.all isAsciiWhitespace = false) :
    splitMbox (ms.flatMap fun m => exportMessage m.1 m.2) = ms.map fun m => canonical m.2 := by
  obtain ⟨lines, hwritten, hlf, hfold⟩ := exportMessages_lines fun m hm => (h m hm).1
  unfold splitMbox
  rw [hwritten, splitOn_written hlf, foldl_append, foldl_cons, foldl_nil,
    Splitting.finish_line_nil]
  have hfinish := hfold [] none
  rw [Option.map_none, Option.toList_none, append_nil, nil_append] at hfinish
  rw [hfinish, filter_eq_self]
  rw [forall_mem_map]
  intro m hm
  rw [canonical_not_blank (h m hm).2]
  rfl

/-- Two messages, the second with a line that looks like a separator. -/
def fromLines : List (Asctime × List UInt8) :=
  [(⟨[84], by decide⟩, [97, lf]), (⟨[85], by decide⟩, [lf] ++ fromWord ++ [lf, 98])]

theorem noBareCr_of_not_mem (h : cr ∉ raw) : NoBareCr raw := by
  rintro before after rfl
  exact absurd (mem_append_right _ mem_cons_self) h

theorem splitMbox_export_fromLines : splitMbox (fromLines.flatMap fun m => exportMessage m.1 m.2) =
      [[97, cr, lf], [cr, lf] ++ fromWord ++ [cr, lf, 98, cr, lf]] := by
  have hcr : ∀ m ∈ fromLines, cr ∉ m.2 ∧ m.2.all isAsciiWhitespace = false := by decide
  exact (splitMbox_export fromLines fun m hm =>
    ⟨noBareCr_of_not_mem (hcr m hm).1, (hcr m hm).2⟩).trans (by decide)

end Taomni.Mail
