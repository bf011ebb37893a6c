import Taomni.Agent.CommandLine
import Taomni.Vnc.Clipboard

/-!
# vCards

The address book edits a few properties of a card and keeps its other lines. Texts are lists of
characters.

Reference: `src-tauri/src/mail/vcard.rs`, and `unfold`, `split_property`, `unescape`, `escape` and
`fold` of `src-tauri/src/mail/calendar.rs`.
-/

namespace Taomni.Mail

open List
open Agent (isWhitespace trim)

abbrev Text := List Char

def crlf : Text := ['\r', '\n']

/-- `strip_suffix('\r')`. -/
def stripCarriage (line : Text) : Text :=
  if line.getLast? = some '\r' then line.dropLast else line

def toAsciiUppercase (s : Text) : Text := s.map Char.toUpper

/-- `eq_ignore_ascii_case`. -/
def eqIgnoreAsciiCase (a b : Text) : Bool := a.map Char.toLower == b.map Char.toLower

/-! ## Content lines -/

def isFoldBlank (c : Char) : Bool := c == ' ' || c == '\t'

/-- One line of the loop of `unfold`. -/
def unfoldLine (lines : List Text) (raw : Text) : List Text :=
  let line := stripCarriage raw
  if line.head?.any isFoldBlank && !lines.isEmpty then
    lines.dropLast ++ [lines.getLast?.getD [] ++ line.drop 1]
  else if line.isEmpty then lines
  else lines ++ [line]

/-- `unfold` of `calendar.rs`. -/
def unfoldLines (text : Text) : List Text := (text.splitOn '\n').foldl unfoldLine []

/-- A line is cut at its first colon outside quotes. -/
def splitColon : Bool → Text → Text × Text
  | _, [] => ([], [])
  | inQuotes, c :: rest =>
    if c = ':' ∧ inQuotes = false then ([], rest)
    else
      let split := splitColon (if c = '"' then !inQuotes else inQuotes) rest
      (c :: split.1, split.2)

/-- `split_once`. -/
def splitOnce (sep : Char) (s : Text) : Option (Text × Text) :=
  if sep ∈ s then some (s.takeWhile (· ≠ sep), (s.dropWhile (· ≠ sep)).drop 1) else none

structure Property where
  name : Text
  params : List (Text × Text)
  value : Text

/-- `NAME;P1=a;P2="b":value`. -/
def splitProperty (line : Text) : Property :=
  let split := splitColon false line
  let parts := split.1.splitOn ';'
  { name := toAsciiUppercase (parts.head?.getD [])
    params := parts.tail.filterMap fun part => (splitOnce '=' part).map fun (key, value) =>
      (toAsciiUppercase key, (value.dropWhile (· == '"')).rdropWhile (· == '"'))
    value := split.2 }

def param (params : List (Text × Text)) (key : Text) : Option Text :=
  (params.find? fun p => p.1 == key).map fun p => p.2

/-- `replace` of two characters by one. -/
def replacePair (a b c : Char) : Text → Text
  | x :: y :: rest =>
    if x = a ∧ y = b then c :: replacePair a b c rest else x :: replacePair a b c (y :: rest)
  | rest => rest

def unescape (value : Text) : Text :=
  replacePair '\\' '\\' '\\' (replacePair '\\' ';' ';' (replacePair '\\' ',' ','
    (replacePair '\\' 'N' '\n' (replacePair '\\' 'n' '\n' value))))

/-- `replace` of a character by a text. -/
def replaceChar (a : Char) (text s : Text) : Text :=
  s.flatMap fun c => if c = a then text else [c]

def escape (value : Text) : Text :=
  replaceChar '\n' ['\\', 'n'] (replaceChar ',' ['\\', ','] (replaceChar ';' ['\\', ';']
    (replaceChar '\\' ['\\', '\\'] value)))

/-- The loop of `fold` after some octets of the current line. -/
def foldFrom : ℕ → Text → Text
  | _, [] => []
  | count, c :: rest =>
    if 75 < count + c.utf8Size then '\r' :: '\n' :: ' ' :: c :: foldFrom (1 + c.utf8Size) rest
    else c :: foldFrom (count + c.utf8Size) rest

/-- `fold` of `calendar.rs`. -/
def foldLine (line : Text) : Text := foldFrom 0 line

/-! ## Quoted-printable -/

def hexDigit (c : Char) : Option ℕ :=
  if c.isDigit then some (c.toNat - '0'.toNat)
  else if 'a' ≤ c ∧ c ≤ 'f' then some (c.toNat - 'a'.toNat + 10)
  else if 'A' ≤ c ∧ c ≤ 'F' then some (c.toNat - 'A'.toNat + 10)
  else none

/-- `u8::from_str_radix(_, 16)` of two characters, the first of which may be a sign. -/
def hexByte (a b : Char) : Option UInt8 :=
  if a = '+' then (hexDigit b).map UInt8.ofNat
  else (hexDigit a).bind fun high => (hexDigit b).map fun low => UInt8.ofNat (16 * high + low)

def quotedPrintableBytes : Text → List UInt8
  | [] => []
  | '=' :: a :: b :: rest =>
    match hexByte a b with
    | some byte => byte :: quotedPrintableBytes rest
    | none => String.utf8EncodeChar '=' ++ quotedPrintableBytes (a :: b :: rest)
  | c :: rest => String.utf8EncodeChar c ++ quotedPrintableBytes rest

def decodeQuotedPrintable (value : Text) : Text :=
  (Vnc.fromUtf8Lossy (quotedPrintableBytes value)).toList

/-- The line says that it is quoted-printable, and goes on in the next one. -/
def isSoftBreak (line : Text) : Bool :=
  decide ("QUOTED-PRINTABLE".toList <:+: toAsciiUppercase line) && line.getLast? == some '='

/-- The loops of `join_qp_soft_breaks`: the inner one runs while there is a joined line. -/
def joinLines : Option Text → List Text → Text
  | none, [] => []
  | some joined, [] => joined ++ crlf
  | none, line :: lines =>
    let line := stripCarriage line
    if isSoftBreak line then joinLines (some (line.rdropWhile (· == '='))) lines
    else line ++ crlf ++ joinLines none lines
  | some joined, next :: lines =>
    let next := stripCarriage next
    if next.getLast? = some '=' then joinLines (some (joined ++ next.dropLast)) lines
    else joined ++ next ++ crlf ++ joinLines none lines

def joinQpSoftBreaks (text : Text) : Text := joinLines none (text.splitOn '\n')

/-! ## Cards -/

structure MailContactCard where
  uid : Text := []
  displayName : Text := []
  emails : List Text := []
  phones : List Text := []
  org : Option Text := none
  note : Option Text := none
  raw : Option Text := none

/-- `MANAGED`: the properties that the address book owns. -/
def managed : List Text :=
  ["VERSION".toList, "UID".toList, "FN".toList, "N".toList, "EMAIL".toList, "TEL".toList,
    "ORG".toList, "NOTE".toList, "REV".toList, "PRODID".toList]

/-- The name without a group before it. -/
def bareName (name : Text) : Text := name.rtakeWhile (· ≠ '.')

def isQuotedPrintable (params : List (Text × Text)) : Bool :=
  (param params "ENCODING".toList).any fun e => eqIgnoreAsciiCase e "QUOTED-PRINTABLE".toList

def valueOf (params : List (Text × Text)) (value : Text) : Text :=
  let decoded := if isQuotedPrintable params then decodeQuotedPrintable value else value
  unescape (trim decoded)

/-- `trim_start_matches`, with the length of the text as fuel. -/
def trimStartFrom (pattern : Text) : ℕ → Text → Text
  | 0, s => s
  | fuel + 1, s =>
    if pattern <+: s then trimStartFrom pattern fuel (s.drop pattern.length) else s

def trimStartMatches (pattern s : Text) : Text := trimStartFrom pattern s.length s

/-- `Some(value).filter(|v| !v.is_empty())`. -/
def nonEmpty (value : Text) : Option Text := if value.isEmpty then none else some value

/-- The variables of `parse_card`. -/
structure Parsing where
  card : MailContactCard := {}
  structuredName : Text := []

def structuredNameOf (property : Property) : Text :=
  let parts := (property.value.splitOn ';').map fun p =>
    unescape (trim (if isQuotedPrintable property.params then decodeQuotedPrintable p else p))
  let given := parts[1]?.getD []
  let family := parts.head?.getD []
  trim (given ++ [' '] ++ family)

def addEmail (card : MailContactCard) (email : Text) : MailContactCard :=
  if !email.isEmpty && email ∉ card.emails then { card with emails := card.emails ++ [email] }
  else card

def addPhone (card : MailContactCard) (phone : Text) : MailContactCard :=
  if !phone.isEmpty then { card with phones := card.phones ++ [phone] } else card

def Parsing.line (s : Parsing) (line : Text) : Parsing :=
  let property := splitProperty line
  let name := bareName property.name
  let value := property.value
  if name = "UID".toList then
    { s with card.uid := trimStartMatches "urn:uuid:".toList (trim value) }
  else if name = "FN".toList then { s with card.displayName := valueOf property.params value }
  else if name = "N".toList then { s with structuredName := structuredNameOf property }
  else if name = "EMAIL".toList then
    let email := trimStartMatches "mailto:".toList (valueOf property.params value)
    { s with card := addEmail s.card email }
  else if name = "TEL".toList then
    let phone := trimStartMatches "tel:".toList (valueOf property.params value)
    { s with card := addPhone s.card phone }
  else if name = "ORG".toList then
    let org := valueOf property.params ((value.splitOn ';').head?.getD [])
    { s with card.org := nonEmpty org }
  else if name = "NOTE".toList then
    { s with card.note := nonEmpty (valueOf property.params value) }
  else s

def parseCard (lines : List Text) : Option MailContactCard :=
  let s := lines.foldl Parsing.line {}
  let named := if s.card.displayName.isEmpty then { s.card with displayName := s.structuredName }
    else s.card
  let card := if named.displayName.isEmpty then
      { named with displayName := named.emails.head?.getD [] }
    else named
  if card.displayName.isEmpty && card.emails.isEmpty && card.phones.isEmpty then none
  else some card

def isCard (value : Text) : Bool := eqIgnoreAsciiCase (trim value) "VCARD".toList

def beginsCard (line : Text) : Bool :=
  (splitProperty line).name == "BEGIN".toList && isCard (splitProperty line).value

def endsCard (line : Text) : Bool :=
  (splitProperty line).name == "END".toList && isCard (splitProperty line).value

/-- The variables of `parse_vcards`. -/
structure Reading where
  cards : List MailContactCard := []
  current : Option (List Text) := none
  depth : ℕ := 0

def joinRaw (body : List Text) : Text := crlf.intercalate body ++ crlf

def Reading.push (s : Reading) (line : Text) : Reading :=
  { s with current := s.current.map (· ++ [line]) }

def Reading.finish (s : Reading) (line : Text) : Reading :=
  match s.current with
  | none => s
  | some body =>
    let body := body ++ [line]
    match parseCard body with
    | none => { s with current := none }
    | some card =>
      { s with
        current := none
        cards := s.cards ++ [{ card with raw := some (joinRaw body) }] }

def Reading.line (s : Reading) (line : Text) : Reading :=
  if beginsCard line then
    let s := { s with depth := s.depth + 1 }
    if s.depth = 1 then { s with current := some [line] } else s.push line
  else if endsCard line && 0 < s.depth then
    let s := { s with depth := s.depth - 1 }
    if s.depth = 0 then s.finish line else s.push line
  else s.push line

def parseVcards (text : Text) : List MailContactCard :=
  ((unfoldLines (joinQpSoftBreaks text)).foldl Reading.line {}).cards

/-! ## Serialization -/

/-- What `%Y%m%dT%H%M%SZ` prints for a time. -/
structure Stamp where
  text : Text
  digits : ∀ c ∈ text, c ∈ "0123456789TZ+-".toList

/-- The loop over the lines of `raw`: the lines of the outer card that are not managed. -/
def keepLines : ℕ → List Text → List Text
  | _, [] => []
  | depth, line :: lines =>
    if beginsCard line then keepLines (depth + 1) lines
    else if endsCard line then keepLines (depth - 1) lines
    else if depth = 1 ∧ bareName (splitProperty line).name ∉ managed then
      line :: keepLines depth lines
    else keepLines depth lines

def keptLines (raw : Option Text) : List Text :=
  match raw with
  | none => []
  | some raw => keepLines 0 (unfoldLines raw)

/-- `rsplit_once(' ')` of the trimmed display name. -/
def nameParts (displayName : Text) : Text × Text :=
  let name := trim displayName
  if ' ' ∈ name then ((name.rdropWhile (· ≠ ' ')).dropLast, name.rtakeWhile (· ≠ ' '))
  else (name, [])

def nameLine (displayName : Text) : Text :=
  "N:".toList ++ escape (nameParts displayName).2 ++ [';'] ++ escape (nameParts displayName).1 ++
    ";;;".toList

def cardLines (card : MailContactCard) (stamp : Stamp) : List Text :=
  ["BEGIN:VCARD".toList, "VERSION:3.0".toList, "PRODID:-//Taomni//Mail//EN".toList,
    "UID:".toList ++ card.uid, "FN:".toList ++ escape card.displayName,
    nameLine card.displayName] ++
  card.emails.map (fun email => "EMAIL;TYPE=INTERNET:".toList ++ escape email) ++
  card.phones.map (fun phone => "TEL:".toList ++ escape phone) ++
  ((card.org.bind nonEmpty).map fun org => "ORG:".toList ++ escape org).toList ++
  ((card.note.bind nonEmpty).map fun note => "NOTE:".toList ++ escape note).toList ++
  keptLines card.raw ++
  ["REV:".toList ++ stamp.text, "END:VCARD".toList]

def serializeVcard (card : MailContactCard) (stamp : Stamp) : Text :=
  crlf.intercalate ((cardLines card stamp).map foldLine) ++ crlf

/-!
# How lines of a card are carried

A content line is folded into physical lines, which are joined at soft breaks and unfolded again. A line
none of whose physical lines is a soft break is carried as it is (`carried_self`), and a text is carried
line by line (`unfoldLines_carried`).

Reference: `fold` and `unfold` of `src-tauri/src/mail/calendar.rs`, and `join_qp_soft_breaks` of
`src-tauri/src/mail/vcard.rs`.
-/

/-! ## Folding -/

/-- What `fold` puts on the current physical line, and on the ones after it. -/
def foldPieces : ℕ → Text → Text × List Text
  | _, [] => ([], [])
  | count, c :: rest =>
    if 75 < count + c.utf8Size then
      let pieces := foldPieces (1 + c.utf8Size) rest
      ([], (c :: pieces.1) :: pieces.2)
    else
      let pieces := foldPieces (count + c.utf8Size) rest
      (c :: pieces.1, pieces.2)

/-- The physical lines of a content line; all but the first start with a blank. -/
def physicalLines (line : Text) : List Text :=
  (foldPieces 0 line).1 :: (foldPieces 0 line).2.map (' ' :: ·)

theorem foldFrom_eq (count : ℕ) (line : Text) : foldFrom count line =
    (foldPieces count line).1 ++ (foldPieces count line).2.flatMap fun piece =>
      crlf ++ ' ' :: piece := by
  induction line generalizing count with
  | nil => rfl
  | cons c line ih =>
    unfold foldFrom foldPieces
    split
    · rw [ih]
      rfl
    · rw [ih]
      rfl

theorem foldPieces_join (count : ℕ) (line : Text) :
    (foldPieces count line).1 ++ (foldPieces count line).2.flatten = line := by
  induction line generalizing count with
  | nil => rfl
  | cons c line ih =>
    unfold foldPieces
    split
    · exact congrArg (c :: ·) (ih (1 + c.utf8Size))
    · exact congrArg (c :: ·) (ih (count + c.utf8Size))

/-- The first character of a line is on its first physical line. -/
theorem foldPieces_head (c : Char) (line : Text) : ∃ rest, (foldPieces 0 (c :: line)).1 = c :: rest := by
  have hsize := c.utf8Size_le_four
  unfold foldPieces
  rw [if_neg (by omega)]
  exact ⟨_, rfl⟩

theorem foldLine_crlf (line : Text) :
    foldLine line ++ crlf = (physicalLines line).flatMap (· ++ crlf) := by
  have hjoin (first : Text) (rest : List Text) :
      (first ++ rest.flatMap fun piece => crlf ++ ' ' :: piece) ++ crlf =
        (first :: rest.map (' ' :: ·)).flatMap (· ++ crlf) := by
    induction rest generalizing first with
    | nil => simp
    | cons next rest ih =>
      have h := ih (' ' :: next)
      rw [flatMap_cons, map_cons, flatMap_cons, ← h]
      simp
  unfold foldLine
  rw [foldFrom_eq, hjoin]
  rfl

variable {line : Text}

theorem mem_physicalLines {piece : Text} {c : Char} (hpiece : piece ∈ physicalLines line)
    (hc : c ∈ piece) : c ∈ line ∨ c = ' ' := by
  rw [← foldPieces_join 0 line]
  rcases mem_cons.mp hpiece with rfl | hpiece
  · exact .inl (mem_append_left _ hc)
  · obtain ⟨rest, hrest, rfl⟩ := mem_map.mp hpiece
    rcases mem_cons.mp hc with rfl | hc
    · exact .inr rfl
    · exact .inl (mem_append_right _ (List.mem_flatten.mpr ⟨rest, hrest, hc⟩))

theorem newline_not_mem_physicalLines {piece : Text} (h : '\n' ∉ line)
    (hpiece : piece ∈ physicalLines line) : '\n' ∉ piece := by
  intro hmem
  exact (mem_physicalLines hpiece hmem).elim h (by decide)

/-! ## Texts of lines -/

/-- The lines of a text with a CR at the end of each. -/
def withCarriage (lines : List Text) : List Text := lines.map (· ++ ['\r'])

theorem stripCarriage_concat (line : Text) : stripCarriage (line ++ ['\r']) = line := by
  unfold stripCarriage
  rw [getLast?_concat, if_pos rfl, dropLast_concat]

variable {lines : List Text}

theorem crlf_intercalate (h : lines ≠ []) :
    crlf.intercalate lines ++ crlf = lines.flatMap (· ++ crlf) := by
  induction lines with
  | nil => exact absurd rfl h
  | cons line lines ih =>
    cases lines with
    | nil => simp
    | cons next lines =>
      rw [intercalate_cons_cons, append_assoc, ih (cons_ne_nil _ _)]
      rfl

theorem splitOn_flatMap_crlf (h : ∀ line ∈ lines, '\n' ∉ line) :
    (lines.flatMap (· ++ crlf)).splitOn '\n' = withCarriage lines ++ [[]] := by
  have hwritten : lines.flatMap (· ++ crlf) = written '\n' (withCarriage lines) := by
    unfold written withCarriage crlf
    rw [flatMap_map]
    simp
  rw [hwritten, splitOn_written]
  unfold withCarriage
  rw [forall_mem_map]
  intro line hline
  rw [mem_append, not_or]
  exact ⟨h line hline, by decide⟩

/-! ## Unfolding -/

/-- The line starts a content line: it is neither empty nor a continuation. -/
def StartsLine (line : Text) : Prop := ∃ c rest, line = c :: rest ∧ isFoldBlank c = false

theorem unfoldLine_start (h : StartsLine line) :
    unfoldLine lines (line ++ ['\r']) = lines ++ [line] := by
  obtain ⟨c, rest, rfl, hc⟩ := h
  unfold unfoldLine
  rw [stripCarriage_concat]
  simp [hc]

theorem unfoldLine_continue {more : Text} :
    unfoldLine (lines ++ [line]) (' ' :: more ++ ['\r']) = lines ++ [line ++ more] := by
  unfold unfoldLine
  rw [stripCarriage_concat]
  simp [isFoldBlank]

theorem foldl_unfoldLine_pieces {first : Text} {rest : List Text}
    (h : StartsLine first) : (withCarriage (first :: rest.map (' ' :: ·))).foldl unfoldLine lines =
      lines ++ [first ++ rest.flatten] := by
  unfold withCarriage
  rw [map_cons, foldl_cons, unfoldLine_start h, map_map]
  clear h
  induction rest generalizing first with
  | nil => rw [flatten_nil, append_nil]; rfl
  | cons next rest ih =>
    rw [map_cons, foldl_cons]
    show List.foldl unfoldLine (unfoldLine (lines ++ [first]) (' ' :: next ++ ['\r'])) _ = _
    rw [unfoldLine_continue, ih, flatten_cons, append_assoc]

theorem joinLines_none {more : List Text} (h : ∀ line ∈ lines, isSoftBreak line = false) :
    joinLines none (withCarriage lines ++ more) = lines.flatMap (· ++ crlf) ++ joinLines none more := by
  induction lines with
  | nil => rfl
  | cons line lines ih =>
    obtain ⟨hline, hlines⟩ := forall_mem_cons.mp h
    unfold withCarriage at ih ⊢
    rw [map_cons, cons_append, joinLines]
    rw [stripCarriage_concat, hline, if_neg Bool.false_ne_true, ih hlines, flatMap_cons]
    simp only [append_assoc]

/-! ## Carried lines -/

/-- After joining and unfolding, the physical lines of `line` are one line `line'`. -/
def Carried (line line' : Text) : Prop :=
  ∃ pieces : List Text, (∀ piece ∈ pieces, '\n' ∉ piece) ∧
    (∀ more, joinLines none (withCarriage (physicalLines line) ++ more) =
      pieces.flatMap (· ++ crlf) ++ joinLines none more) ∧
    ∀ lines, (withCarriage pieces).foldl unfoldLine lines = lines ++ [line']

def NoSoftBreak (line : Text) : Prop := ∀ piece ∈ physicalLines line, isSoftBreak piece = false

theorem startsLine_physicalLines (h : StartsLine line) : StartsLine (foldPieces 0 line).1 := by
  obtain ⟨c, rest, rfl, hc⟩ := h
  obtain ⟨more, hmore⟩ := foldPieces_head c rest
  exact ⟨c, more, hmore, hc⟩

theorem carried_self (hstart : StartsLine line) (hnewline : '\n' ∉ line)
    (h : NoSoftBreak line) : Carried line line := by
  refine ⟨physicalLines line, fun piece hpiece => newline_not_mem_physicalLines hnewline hpiece,
    fun more => joinLines_none h, fun lines => ?_⟩
  unfold physicalLines
  rw [foldl_unfoldLine_pieces (startsLine_physicalLines hstart), foldPieces_join]

/-! A line that does not end with `=` stays one line, even with soft breaks in it. -/

def Continued (pieces : List Text) : Prop := ∀ piece ∈ pieces, ∃ rest, piece = ' ' :: rest

theorem rdropWhile_equals_cons {c : Char} (hc : (c == '=') = false) (line : Text) :
    (c :: line).rdropWhile (· == '=') = c :: line.rdropWhile (· == '=') := by
  unfold List.rdropWhile
  rw [reverse_cons, dropWhile_append]
  split
  · rename_i hall
    rw [List.isEmpty_iff.mp hall]
    simp [hc]
  · rw [reverse_append]
    rfl

theorem newline_not_mem_rdropWhile (h : '\n' ∉ line) : '\n' ∉ line.rdropWhile (· == '=') :=
  fun hmem => h ((List.rdropWhile_prefix (· == '=') line).subset hmem)

/-- The loops of `join_qp_soft_breaks` over physical lines of which the last does not end with `=`: as
the outer one, and as the inner one after some joined text. -/
theorem joinLines_continued {pieces : List Text} (hcontinued : Continued pieces)
    (hnewline : ∀ piece ∈ pieces, '\n' ∉ piece)
    (hlast : ∀ piece, pieces.getLast? = some piece → piece.getLast? ≠ some '=') :
    (∃ out, Continued out ∧ (∀ piece ∈ out, '\n' ∉ piece) ∧
      ∀ more, joinLines none (withCarriage pieces ++ more) =
        out.flatMap (· ++ crlf) ++ joinLines none more) ∧
    (pieces ≠ [] → ∃ suffix out, Continued out ∧ (∀ piece ∈ suffix :: out, '\n' ∉ piece) ∧
      ∀ joined more, joinLines (some joined) (withCarriage pieces ++ more) =
        ((joined ++ suffix) :: out).flatMap (· ++ crlf) ++ joinLines none more) := by
  induction pieces with
  | nil =>
    refine ⟨⟨[], hcontinued, hnewline, fun more => rfl⟩, fun h => absurd rfl h⟩
  | cons piece pieces ih =>
    obtain ⟨⟨rest, rfl⟩, htail⟩ := forall_mem_cons.mp hcontinued
    obtain ⟨hpiece, hnewline⟩ := forall_mem_cons.mp hnewline
    have hlast' (next : Text) (hnext : pieces.getLast? = some next) : next.getLast? ≠ some '=' := by
      refine hlast next ?_
      rw [getLast?_cons, hnext]
      rfl
    obtain ⟨⟨out, hout, houtNewline, hnone⟩, hsome⟩ := ih htail hnewline hlast'
    have hne (hends : (' ' :: rest).getLast? = some '=') : pieces ≠ [] := by
      rintro rfl
      exact hlast _ rfl hends
    unfold withCarriage at hnone hsome ⊢
    refine ⟨?_, fun _ => ?_⟩
    · by_cases hbreak : isSoftBreak (' ' :: rest) = true
      · have hends : (' ' :: rest).getLast? = some '=' :=
          beq_iff_eq.mp (Bool.and_eq_true_iff.mp hbreak).2
        obtain ⟨suffix, out', hout', hnewline', hjoin⟩ := hsome (hne hends)
        obtain ⟨hsuffix, hnewline'⟩ := forall_mem_cons.mp hnewline'
        have hhead := rdropWhile_equals_cons (show (' ' == '=') = false from rfl) rest
        refine ⟨((' ' :: rest).rdropWhile (· == '=') ++ suffix) :: out', ?_, ?_, fun more => ?_⟩
        · refine forall_mem_cons.mpr ⟨?_, hout'⟩
          rw [hhead]
          exact ⟨_, rfl⟩
        · refine forall_mem_cons.mpr ⟨?_, hnewline'⟩
          rw [mem_append, not_or]
          exact ⟨newline_not_mem_rdropWhile hpiece, hsuffix⟩
        · rw [map_cons, cons_append, joinLines, stripCarriage_concat, if_pos hbreak, hjoin]
      · refine ⟨(' ' :: rest) :: out, forall_mem_cons.mpr ⟨⟨rest, rfl⟩, hout⟩,
          forall_mem_cons.mpr ⟨hpiece, houtNewline⟩, fun more => ?_⟩
        rw [map_cons, cons_append, joinLines, stripCarriage_concat, if_neg hbreak, hnone,
          flatMap_cons]
        simp only [append_assoc]
    · by_cases hends : (' ' :: rest).getLast? = some '='
      · obtain ⟨suffix, out', hout', hnewline', hjoin⟩ := hsome (hne hends)
        obtain ⟨hsuffix, hnewline'⟩ := forall_mem_cons.mp hnewline'
        refine ⟨(' ' :: rest).dropLast ++ suffix, out', hout', ?_, fun joined more => ?_⟩
        · refine forall_mem_cons.mpr ⟨?_, hnewline'⟩
          rw [mem_append, not_or]
          exact ⟨fun hmem => hpiece (mem_of_mem_dropLast hmem), hsuffix⟩
        · rw [map_cons, cons_append, joinLines, stripCarriage_concat, if_pos hends, hjoin,
            append_assoc]
      · refine ⟨' ' :: rest, out, hout, forall_mem_cons.mpr ⟨hpiece, houtNewline⟩,
          fun joined more => ?_⟩
        rw [map_cons, cons_append, joinLines, stripCarriage_concat, if_neg hends, hnone,
          flatMap_cons]
        simp only [append_assoc]

/-- A line ends as its last physical line does. -/
theorem getLast?_physicalLines {piece : Text} (h : (physicalLines line).getLast? = some piece) :
    piece.getLast? = line.getLast? := by
  have hpieces (count : ℕ) (text : Text) : ∀ p ∈ (foldPieces count text).2, p ≠ [] := by
    induction text generalizing count with
    | nil => exact fun _ h => absurd h not_mem_nil
    | cons c text ih =>
      unfold foldPieces
      split
      · exact forall_mem_cons.mpr ⟨cons_ne_nil _ _, ih _⟩
      · exact ih _
  have hjoin := foldPieces_join 0 line
  unfold physicalLines at h
  rcases eq_nil_or_concat (foldPieces 0 line).2 with hnil | ⟨init, last, hconcat⟩
  · rw [hnil, flatten_nil, append_nil] at hjoin
    rw [hnil, hjoin] at h
    cases h
    rfl
  · rw [concat_eq_append] at hconcat
    have hlast := hpieces 0 line last (by rw [hconcat]; simp)
    rw [hconcat, map_append, ← cons_append, map_cons, map_nil,
      getLast?_concat] at h
    cases h
    rw [← hjoin, hconcat, flatten_append]
    obtain ⟨front, c, rfl⟩ := eq_nil_or_concat last |>.resolve_left hlast
    simp [getLast?_append, getLast?_cons]

theorem foldPieces_cons {count : ℕ} {c : Char} (h : count + c.utf8Size ≤ 75) (line : Text) :
    foldPieces count (c :: line) = (c :: (foldPieces (count + c.utf8Size) line).1,
      (foldPieces (count + c.utf8Size) line).2) := by
  rw [foldPieces, if_neg (Nat.not_lt.mpr h)]

theorem Continued.eq_map {pieces : List Text} (h : Continued pieces) :
    ∃ rests : List Text, pieces = rests.map (' ' :: ·) := by
  induction pieces with
  | nil => exact ⟨[], rfl⟩
  | cons piece pieces ih =>
    obtain ⟨⟨rest, rfl⟩, htail⟩ := forall_mem_cons.mp h
    obtain ⟨rests, rfl⟩ := ih htail
    exact ⟨rest :: rests, rfl⟩

/-- A line of two plain characters and a text that does not end with `=` keeps the two. -/
theorem carried_start {c d : Char} {text : Text} (hc : isFoldBlank c = false)
    (hequals : (c == '=') = false ∧ (d == '=') = false)
    (hsize : c.utf8Size = 1 ∧ d.utf8Size = 1) (hnewline : '\n' ∉ c :: d :: text)
    (hlast : (c :: d :: text).getLast? ≠ some '=') :
    ∃ text', '\n' ∉ text' ∧ Carried (c :: d :: text) (c :: d :: text') := by
  have hpieces : physicalLines (c :: d :: text) =
      (c :: d :: (foldPieces 2 text).1) :: (foldPieces 2 text).2.map (' ' :: ·) := by
    unfold physicalLines
    rw [foldPieces_cons (by rw [hsize.1]; decide), hsize.1, foldPieces_cons (by rw [hsize.2]; decide),
      hsize.2]
  have hall (piece : Text) (hpiece : piece ∈ physicalLines (c :: d :: text)) : '\n' ∉ piece :=
    newline_not_mem_physicalLines hnewline hpiece
  have hends (piece : Text) (hpiece : (physicalLines (c :: d :: text)).getLast? = some piece) :
      piece.getLast? ≠ some '=' := by
    rw [getLast?_physicalLines hpiece]
    exact hlast
  rw [hpieces] at hall hends
  generalize (foldPieces 2 text).1 = first at hpieces hall hends
  obtain ⟨hfirst, hrest⟩ := forall_mem_cons.mp hall
  have hcontinued : Continued ((foldPieces 2 text).2.map (' ' :: ·)) := by
    unfold Continued
    rw [forall_mem_map]
    exact fun rest _ => ⟨rest, rfl⟩
  generalize (foldPieces 2 text).2.map (' ' :: ·) = rest at hpieces hends hrest hcontinued
  obtain ⟨⟨out, hout, houtNewline, hnone⟩, hsome⟩ := joinLines_continued hcontinued hrest
    fun piece hpiece => hends piece (by rw [getLast?_cons, hpiece]; rfl)
  -- However the first physical line ends, the joined text starts with the two characters.
  have hjoin : ∃ (text' : Text) (out : List Text), Continued out ∧
      (∀ piece ∈ (c :: d :: text') :: out, '\n' ∉ piece) ∧
      ∀ more, joinLines none (withCarriage (physicalLines (c :: d :: text)) ++ more) =
        ((c :: d :: text') :: out).flatMap (· ++ crlf) ++ joinLines none more := by
    rw [hpieces]
    unfold withCarriage at hnone hsome ⊢
    by_cases hbreak : isSoftBreak (c :: d :: first) = true
    · have hrestNe : rest ≠ [] := by
        rintro rfl
        exact hends _ rfl (beq_iff_eq.mp (Bool.and_eq_true_iff.mp hbreak).2)
      obtain ⟨suffix, out', hout', hnewline', hjoin⟩ := hsome hrestNe
      obtain ⟨hsuffix, hnewline'⟩ := forall_mem_cons.mp hnewline'
      have htrim : (c :: d :: first).rdropWhile (· == '=') =
          c :: d :: first.rdropWhile (· == '=') := by
        rw [rdropWhile_equals_cons hequals.1, rdropWhile_equals_cons hequals.2]
      refine ⟨first.rdropWhile (· == '=') ++ suffix, out', hout',
        forall_mem_cons.mpr ⟨?_, hnewline'⟩, fun more => ?_⟩
      · have htrimmed := newline_not_mem_rdropWhile hfirst
        rw [htrim] at htrimmed
        rw [← cons_append, ← cons_append, mem_append, not_or]
        exact ⟨htrimmed, hsuffix⟩
      · rw [map_cons, cons_append, joinLines, stripCarriage_concat, if_pos hbreak, hjoin,
          htrim]
        rfl
    · refine ⟨first, out, hout, forall_mem_cons.mpr ⟨hfirst, houtNewline⟩, fun more => ?_⟩
      rw [map_cons, cons_append, joinLines, stripCarriage_concat, if_neg hbreak, hnone,
        flatMap_cons]
      simp only [append_assoc]
  obtain ⟨text', out, hout, hnewline', hjoin⟩ := hjoin
  obtain ⟨rests, rfl⟩ := hout.eq_map
  obtain ⟨htext', hrests⟩ := forall_mem_cons.mp hnewline'
  refine ⟨text' ++ rests.flatten, ?_, (c :: d :: text') :: rests.map (' ' :: ·), hnewline', hjoin,
    fun lines => ?_⟩
  · rw [mem_append, not_or]
    refine ⟨fun hmem => htext' (mem_cons_of_mem _ (mem_cons_of_mem _ hmem)), fun hmem => ?_⟩
    obtain ⟨part, hpart, hmem⟩ := List.mem_flatten.mp hmem
    exact hrests (' ' :: part) (mem_map.mpr ⟨part, hpart, rfl⟩) (mem_cons_of_mem _ hmem)
  · exact foldl_unfoldLine_pieces ⟨c, d :: text', rfl, hc⟩

/-- A text is carried line by line. -/
theorem unfoldLines_carried {lines' : List Text} (h : List.Forall₂ Carried lines lines') :
    unfoldLines (joinLines none (withCarriage (lines.flatMap physicalLines) ++ [[]])) = lines' := by
  have hjoin : ∃ pieces : List Text, (∀ piece ∈ pieces, '\n' ∉ piece) ∧
      joinLines none (withCarriage (lines.flatMap physicalLines) ++ [[]]) =
        pieces.flatMap (· ++ crlf) ++ crlf ∧
      ∀ acc, (withCarriage pieces).foldl unfoldLine acc = acc ++ lines' := by
    induction h with
    | nil => exact ⟨[], fun _ h => absurd h not_mem_nil, rfl, fun acc => by simp [withCarriage]⟩
    | cons hline _ ih =>
      obtain ⟨first, hfirst, hjoin, hunfold⟩ := hline
      obtain ⟨rest, hrest, hjoin', hunfold'⟩ := ih
      refine ⟨first ++ rest, forall_mem_append.mpr ⟨hfirst, hrest⟩, ?_, fun acc => ?_⟩
      · unfold withCarriage at hjoin hjoin' ⊢
        rw [flatMap_cons, map_append, append_assoc, hjoin, hjoin',
          flatMap_append, append_assoc]
      · unfold withCarriage at hunfold hunfold' ⊢
        rw [map_append, foldl_append, hunfold, hunfold']
        simp
  obtain ⟨pieces, hpieces, hjoin, hunfold⟩ := hjoin
  have hconcat : pieces.flatMap (· ++ crlf) ++ crlf = (pieces ++ [[]]).flatMap (· ++ crlf) := by
    simp
  unfold unfoldLines
  rw [hjoin, hconcat, splitOn_flatMap_crlf, foldl_append]
  · unfold withCarriage at hunfold ⊢
    rw [map_append, foldl_append, hunfold, nil_append]
    simp [unfoldLine, stripCarriage]
  · rw [forall_mem_append]
    exact ⟨hpieces, by decide⟩

/-- A text of whole lines is unfolded into them. -/
theorem unfoldLines_lines (hstart : ∀ line ∈ lines, StartsLine line)
    (hnewline : ∀ line ∈ lines, '\n' ∉ line) : unfoldLines (lines.flatMap (· ++ crlf)) = lines := by
  have hfold (acc : List Text) : (withCarriage lines).foldl unfoldLine acc = acc ++ lines := by
    clear hnewline
    unfold withCarriage
    induction lines generalizing acc with
    | nil => exact (append_nil acc).symm
    | cons line lines ih =>
      obtain ⟨hline, hlines⟩ := forall_mem_cons.mp hstart
      rw [map_cons, foldl_cons, unfoldLine_start hline, ih hlines, append_assoc]
      rfl
  unfold unfoldLines
  rw [splitOn_flatMap_crlf hnewline, foldl_append, hfold, nil_append]
  simp [unfoldLine, stripCarriage]

end Taomni.Mail
