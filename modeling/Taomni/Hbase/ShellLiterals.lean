import Taomni.Common.Quoting
import Taomni.Hbase.Shell

/-!
# Literals of the HBase shell

A literal is one item for `split_top_level`, and `strip_quotes` reads it in one pass that knows the letters `n` and
`t`, and not the backslash. So a text comes through when each of its backslashes is before the other quote.

Reference: `src-tauri/src/hbase/shell_parser.rs`.
-/

namespace Taomni.Hbase.Shell

open List
open Agent (Text isWhitespace trim trim_eq_self trim_append trim_trim eq_trim)
open Option (bind_some)

/-! ## Escapes -/

/-- What `strip_quotes` knows of escapes. -/
def meanings : Char → Option Char :=
  addMeaning (addMeaning (addMeaning (addMeaning (fun _ => none) '\'' '\'') '"' '"') 'n' '\n') 't' '\t'

theorem addMeaning_eq_some {meaning : Char → Option Char} {a b c r : Char} (h : addMeaning meaning a b c = some r) :
    r = b ∨ meaning c = some r := by
  by_cases hc : c = a
  · rw [hc, addMeaning_self] at h
    exact .inl (Option.some.inj h).symm
  · rw [addMeaning_ne hc] at h
    exact .inr h

theorem unescape_eq (text : Text) : unescape text = readEscapes '\\' meanings text := by
  have hadd {meaning : Char → Option Char} {a b a' : Char} (hb : b ≠ a' ∧ b ≠ '\\')
      (h : ∀ c r, meaning c = some r → r ≠ a' ∧ r ≠ '\\') : ∀ c r, addMeaning meaning a b c = some r → r ≠ a' ∧ r ≠ '\\' := by
    intro c r hr
    rcases addMeaning_eq_some hr with rfl | hr
    · exact hb
    · exact h c r hr
  have hnone (a : Char) : ∀ c r, (fun _ : Char => (none : Option Char)) c = some r → r ≠ a ∧ r ≠ '\\' := nofun
  have hquote := replaceEscape_readEscapes (b := '\'') (by decide) rfl (hnone '\'') text
  rw [readEscapes_nothing] at hquote
  rw [unescape, hquote, replaceEscape_readEscapes (by decide) rfl (hadd (by decide) (hnone _)),
    replaceEscape_readEscapes (by decide) rfl (hadd (by decide) (hadd (by decide) (hnone _))),
    replaceEscape_readEscapes (by decide) rfl (hadd (by decide) (hadd (by decide) (hadd (by decide) (hnone _))))]
  rfl

theorem meanings_self {c r : Char} (h : meanings c = some r) (hself : r = c) : c = '\'' ∨ c = '"' := by
  subst hself
  by_contra hne
  rw [not_or] at hne
  by_cases ht : r = 't'
  · rw [ht] at h
    cases h
  · by_cases hn : r = 'n'
    · rw [hn] at h
      cases h
    · rw [meanings, addMeaning_ne ht, addMeaning_ne hn, addMeaning_ne hne.2, addMeaning_ne hne.1] at h
      cases h

namespace Literal

variable (l : Literal)

/-- What `strip_quotes` makes of a literal. -/
def read : Text := readEscapes '\\' meanings (escaped '\\' l.quote.char l.text)

/-- Every backslash is directly before the other quote. -/
def Kept : Prop := ∀ back, '\\' :: back <:+ l.text → ∃ rest, back = l.quote.other.char :: rest

end Literal

variable {l : Literal}

theorem Quote.char_ne (q : Quote) : q.char ≠ '\\' := by cases q <;> decide

theorem Quote.meanings_char (q : Quote) : meanings q.char = some q.char := by cases q <;> rfl

theorem harmless_iff : Harmless '\\' l.quote.char meanings l.text ↔ l.Kept := by
  refine forall₂_congr fun back _ => ⟨?_, ?_⟩
  · rintro ⟨c, rest, rfl, hne, hself⟩
    refine ⟨rest, ?_⟩
    have hc := meanings_self hself rfl
    cases hquote : l.quote <;> rw [hquote] at hne
    · rw [hc.resolve_left hne]
      rfl
    · rw [hc.resolve_right hne]
      rfl
  · rintro ⟨rest, rfl⟩
    refine ⟨l.quote.other.char, rest, rfl, ?_, Quote.meanings_char _⟩
    cases l.quote <;> decide

theorem read_append_iff {more : Text} (hmore : '\\' ∉ more) : l.read = l.text ++ more ↔ l.Kept ∧ more = [] := by
  rw [← harmless_iff]
  exact readEscapes_escaped_iff l.quote.meanings_char rfl hmore l.quote.char_ne l.text

theorem read_iff : l.read = l.text ↔ l.Kept := by
  have happend : l.read = l.text ++ [] ↔ l.Kept ∧ ([] : Text) = [] := read_append_iff not_mem_nil
  rwa [append_nil, and_iff_left rfl] at happend

/-- A literal is read with its first letter. -/
theorem head?_read : l.read.head? = l.text.head? := by
  unfold Literal.read
  cases l.text with
  | nil => rfl
  | cons c text =>
    by_cases hc : c = '\\'
    · rw [hc, readEscapes_escape rfl]
      rfl
    · rw [readEscapes_letter l.quote.meanings_char hc]
      rfl

theorem read_eq_nil : l.read = [] ↔ l.text = [] := by
  rw [← head?_eq_none_iff, head?_read, head?_eq_none_iff]

/-! ## Ends -/

/-- A text without blanks at its ends. -/
structure Trimmed (text : Text) : Prop where
  ne_nil : text ≠ []
  head : ∀ c, text.head? = some c → isWhitespace c = false
  last : ∀ c, text.getLast? = some c → isWhitespace c = false

theorem Trimmed.trim {text : Text} (h : Trimmed text) : trim text = text := trim_eq_self h.head h.last

theorem Trimmed.trim_lead {text lead : Text} (h : Trimmed text) (hlead : ∀ c ∈ lead, isWhitespace c = true) :
    Agent.trim (lead ++ text) = text := by
  have happend : Agent.trim (lead ++ (text ++ [])) = Agent.trim text := trim_append hlead nofun
  rw [append_nil] at happend
  rw [happend, h.trim]

theorem getLast?_between (first last : Char) (text : Text) : (first :: (text ++ [last])).getLast? = some last := by
  rw [← cons_append, getLast?_append, getLast?_singleton, Option.some_or]

theorem trimmed_between {first last : Char} (hfirst : isWhitespace first = false) (hlast : isWhitespace last = false)
    (text : Text) : Trimmed (first :: (text ++ [last])) := by
  refine ⟨cons_ne_nil _ _, fun c hc => ?_, fun c hc => ?_⟩
  · rw [← Option.some.inj hc]
    exact hfirst
  · rw [getLast?_between] at hc
    rw [← Option.some.inj hc]
    exact hlast

theorem Quote.isWhitespace_char (q : Quote) : isWhitespace q.char = false := by cases q <;> decide

theorem trimmed_write (l : Literal) : Trimmed l.write :=
  trimmed_between l.quote.isWhitespace_char l.quote.isWhitespace_char _

theorem isQuoted_between (q : Quote) (text : Text) : IsQuoted (q.char :: (text ++ [q.char])) := by
  refine ⟨?_, ?_⟩
  · rw [getLast?_between]
    cases q
    · exact .inl ⟨rfl, rfl⟩
    · exact .inr ⟨rfl, rfl⟩
  · rw [length_cons, length_append, length_singleton]
    omega

theorem stripQuotes_write (l : Literal) : stripQuotes l.write = l.read := by
  have hquoted : IsQuoted l.write := isQuoted_between l.quote _
  rw [stripQuotes, (trimmed_write l).trim, if_pos hquoted, unescape_eq, Literal.write, tail_cons,
    dropLast_concat]
  rfl

/-! ## Scanning -/

/-- The state after a text without a delimiter at the top level. -/
def scanAll (s : Scan) (text : Text) : Option Scan := text.foldlM (Scan.next ',') s

theorem scanAll_cons (s : Scan) (c : Char) (text : Text) :
    scanAll s (c :: text) = (s.next ',' c).bind fun s => scanAll s text := rfl

theorem scanAll_append (s : Scan) (a b : Text) : scanAll s (a ++ b) = (scanAll s a).bind fun s => scanAll s b :=
  foldlM_append

theorem splitFrom_append {s s' : Scan} {text : Text} (h : scanAll s text = some s') (current rest : Text) :
    splitFrom ',' s current (text ++ rest) = splitFrom ',' s' (current ++ text) rest := by
  induction text generalizing s current with
  | nil =>
    cases h
    rw [append_nil, nil_append]
  | cons c text ih =>
    rw [scanAll_cons] at h
    obtain ⟨s₁, hnext, h⟩ := Option.bind_eq_some_iff.mp h
    rw [cons_append, splitFrom, hnext]
    dsimp only
    rw [ih h, append_assoc]
    rfl

/-- In no quotes, and after no backslash. -/
def Scan.Outside (s : Scan) : Prop := s.quotes = .none ∧ s.escaped = false

namespace Quote

/-- In the quotes of a literal. -/
def inside : Quote → Quotes
  | single => ⟨true, false⟩
  | double => ⟨false, true⟩

theorem next_none (q : Quote) : Quotes.none.next q.char = q.inside := by cases q <;> rfl

theorem next_inside (q : Quote) : q.inside.next q.char = .none := by cases q <;> rfl

theorem inside_ne (q : Quote) : q.inside ≠ .none := by cases q <;> decide

theorem next_inside_ne (q : Quote) {c : Char} (h : c ≠ q.char) : q.inside.next c = q.inside := by
  cases q
  · rw [Quotes.next, if_neg fun hc => h hc.1, if_neg fun hc => absurd hc.2 (by decide)]
  · rw [Quotes.next, if_neg fun hc => absurd hc.2 (by decide), if_neg fun hc => h hc.1]

theorem char_cases (q : Quote) : q.char = '\'' ∨ q.char = '"' := by cases q <;> decide

end Quote

variable {items : List Text}

section

variable {s : Scan} {q : Quote}

theorem next_escaped (h : s.escaped = true) (c : Char) : s.next ',' c = some { s with escaped := false } := if_pos h

theorem next_backslash (hescaped : s.escaped = false) (hquotes : s.quotes ≠ .none) :
    s.next ',' '\\' = some { s with escaped := true } := by
  rw [Scan.next, if_neg (by rw [hescaped]; exact Bool.false_ne_true), if_pos ⟨rfl, hquotes⟩]

theorem next_quote (hescaped : s.escaped = false) (q : Quote) :
    s.next ',' q.char = some { s with quotes := s.quotes.next q.char } := by
  rw [Scan.next, if_neg (by rw [hescaped]; exact Bool.false_ne_true), if_neg fun h => q.char_ne h.1, if_pos q.char_cases]

theorem next_inside (hescaped : s.escaped = false) (hquotes : s.quotes = q.inside) {c : Char} (hc : c ≠ '\\')
    (hcq : c ≠ q.char) : s.next ',' c = some s := by
  rw [Scan.next, if_neg (by rw [hescaped]; exact Bool.false_ne_true), if_neg fun h => hc h.1]
  split
  · rw [hquotes, q.next_inside_ne hcq, ← hquotes]
  · rw [if_pos]
    rw [hquotes]
    exact q.inside_ne

/-- The inside of a literal leaves the scanner in its quotes. -/
theorem scanAll_escaped (hescaped : s.escaped = false) (hquotes : s.quotes = q.inside) (text : Text) :
    scanAll s (escaped '\\' q.char text) = some s := by
  have hne : s.quotes ≠ .none := hquotes ▸ q.inside_ne
  have hback : ({ { s with escaped := true } with escaped := false } : Scan) = s := by
    rw [← hescaped]
  induction text with
  | nil => rfl
  | cons c text ih =>
    by_cases hc : c = '\\' ∨ c = q.char
    · rw [escaped_cons_of hc, scanAll_cons, next_backslash hescaped hne, bind_some, scanAll_cons, next_escaped rfl,
        bind_some, hback]
      exact ih
    · rw [escaped_cons_ne hc, scanAll_cons, next_inside hescaped hquotes (not_or.mp hc).1 (not_or.mp hc).2,
        bind_some]
      exact ih

/-- A literal is scanned from its opening to its closing quote. -/
theorem scanAll_write (h : s.Outside) (l : Literal) : scanAll s l.write = some s := by
  obtain ⟨hquotes, hescaped⟩ := h
  have hopen : s.quotes.next l.quote.char = l.quote.inside := by rw [hquotes, Quote.next_none]
  have hclose : ({ { s with quotes := l.quote.inside } with quotes := l.quote.inside.next l.quote.char } : Scan) = s := by
    rw [Quote.next_inside, ← hquotes]
  rw [Literal.write, scanAll_cons, next_quote hescaped, bind_some, hopen, scanAll_append,
    scanAll_escaped (q := l.quote) (by exact hescaped) rfl, bind_some, scanAll_cons,
    next_quote (by exact hescaped), bind_some, hclose]
  rfl

/-- The letters that change no state outside of quotes. -/
def IsPlain (c : Char) : Bool := !List.contains ['\\', '\'', '"', '{', '}', '[', ']', ','] c

theorem next_plain (h : s.Outside) {c : Char} (hc : IsPlain c = true) : s.next ',' c = some s := by
  obtain ⟨hquotes, hescaped⟩ := h
  have hne : ∀ d ∈ ['\\', '\'', '"', '{', '}', '[', ']', ','], c ≠ d := by
    intro d hd heq
    subst heq
    rw [IsPlain, contains_iff_mem.mpr hd] at hc
    cases hc
  simp only [forall_mem_cons] at hne
  obtain ⟨hbackslash, hsingle, hdouble, hopen, hclose, hopen', hclose', hcomma, -⟩ := hne
  rw [Scan.next, if_neg (by rw [hescaped]; exact Bool.false_ne_true), if_neg fun h => hbackslash h.1,
    if_neg (not_or.mpr ⟨hsingle, hdouble⟩), if_neg (not_not_intro hquotes), if_neg hopen, if_neg hclose, if_neg hopen',
    if_neg hclose', if_neg fun h => hcomma h.1]

theorem scanAll_plain (h : s.Outside) {text : Text} (htext : ∀ c ∈ text, IsPlain c = true) :
    scanAll s text = some s := by
  induction text with
  | nil => rfl
  | cons c text ih =>
    obtain ⟨hc, htext⟩ := forall_mem_cons.mp htext
    rw [scanAll_cons, next_plain h hc, bind_some]
    exact ih htext

/-- A comma in brackets is no delimiter. -/
theorem scanAll_comma (h : s.Outside) (hdepth : s.braceDepth ≠ 0 ∨ s.bracketDepth ≠ 0) :
    scanAll s ", ".toList = some s := by
  have hnext : s.next ',' ',' = some s := by
    rw [Scan.next, if_neg (by rw [h.2]; exact Bool.false_ne_true), if_neg fun hc => absurd hc.1 (by decide),
      if_neg (by decide), if_neg (not_not_intro h.1), if_neg (by decide), if_neg (by decide), if_neg (by decide), if_neg (by decide), if_neg]
    rintro ⟨-, hbrace, hbracket⟩
    exact hdepth.elim (· hbrace) (· hbracket)
  have hspace : scanAll s [' '] = some s := scanAll_plain h fun c hc => by
    rw [mem_singleton.mp hc]
    rfl
  change (s.next ',' ',').bind (fun s => scanAll s [' ']) = some s
  rw [hnext]
  exact hspace

theorem scanAll_intercalate (h : s.Outside) (hdepth : s.braceDepth ≠ 0 ∨ s.bracketDepth ≠ 0)
    (hitems : ∀ item ∈ items, scanAll s item = some s) : scanAll s (", ".toList.intercalate items) = some s := by
  induction items with
  | nil => rfl
  | cons item items ih =>
    obtain ⟨hitem, hitems⟩ := forall_mem_cons.mp hitems
    cases items with
    | nil =>
      rw [intercalate_singleton]
      exact hitem
    | cons next items =>
      rw [intercalate_cons_cons, scanAll_append, scanAll_append, hitem, bind_some, scanAll_comma h hdepth]
      exact ih hitems

end

/-! ## Items -/

/-- A text that is one item at the top level. -/
structure IsItem (text : Text) : Prop extends Trimmed text where
  scan : scanAll .top text = some .top

theorem Scan.outside_top : Scan.top.Outside := ⟨rfl, rfl⟩

theorem isItem_write (l : Literal) : IsItem l.write := ⟨trimmed_write l, scanAll_write Scan.outside_top l⟩

theorem splitFrom_items (h : ∀ item ∈ items, IsItem item) (hne : items ≠ []) {lead : Text}
    (hlead : ∀ c ∈ lead, isWhitespace c = true) : splitFrom ',' .top lead (", ".toList.intercalate items) = items := by
  induction items generalizing lead with
  | nil => exact absurd rfl hne
  | cons item items ih =>
    obtain ⟨hitem, hitems⟩ := forall_mem_cons.mp h
    cases items with
    | nil =>
      rw [intercalate_singleton, ← append_nil item, splitFrom_append hitem.scan, append_nil, splitFrom,
        hitem.trim_lead hlead, if_neg (mt List.isEmpty_iff.mp hitem.ne_nil)]
    | cons next items =>
      rw [intercalate_cons_cons, append_assoc, splitFrom_append hitem.scan]
      change trim (lead ++ item) :: splitFrom ',' .top [' '] (", ".toList.intercalate (next :: items)) = _
      rw [hitem.trim_lead hlead, ih hitems (cons_ne_nil _ _)]
      intro c hc
      rw [mem_singleton.mp hc]
      rfl

/-- Items with commas between them are found again. -/
theorem splitTopLevel_items (h : ∀ item ∈ items, IsItem item) :
    splitTopLevel ',' (", ".toList.intercalate items) = items := by
  by_cases hne : items = []
  · rw [hne]
    rfl
  · exact splitFrom_items h hne nofun

end Taomni.Hbase.Shell

/-!
# Arguments of the HBase shell

The items of a command are its literals and its option map, and the entries of the map are found by their keys. A
command comes through when its literals do; a required argument must not be empty, and the one column of a scan is
unquoted once more.

Reference: `src-tauri/src/hbase/shell_parser.rs`.
-/

namespace Taomni.Hbase.Shell

open List
open Agent (Text isWhitespace trim trim_eq_self trim_append trim_trim eq_trim)

/-! ## The command line -/

/-- An item of a command line. No semicolon ends it. -/
structure IsArgument (text : Text) : Prop extends IsItem text where
  semicolon : text.getLast? ≠ some ';'

theorem isArgument_write (l : Literal) : IsArgument l.write := by
  refine ⟨isItem_write l, ?_⟩
  rw [Literal.write, getLast?_between]
  cases l.quote <;> decide

theorem trimmed_intercalate {items : List Text} (h : ∀ item ∈ items, IsArgument item) (hne : items ≠ []) :
    Trimmed (", ".toList.intercalate items) ∧ (", ".toList.intercalate items).getLast? ≠ some ';' := by
  induction items with
  | nil => exact absurd rfl hne
  | cons item items ih =>
    obtain ⟨hitem, hitems⟩ := forall_mem_cons.mp h
    cases items with
    | nil =>
      rw [intercalate_singleton]
      exact ⟨hitem.toTrimmed, hitem.semicolon⟩
    | cons next items =>
      obtain ⟨hrest, hsemicolon⟩ := ih hitems (cons_ne_nil _ _)
      have hlast : (", ".toList.intercalate (item :: next :: items)).getLast? =
          (", ".toList.intercalate (next :: items)).getLast? := by
        rw [intercalate_cons_cons, getLast?_append_of_ne_nil _ hrest.ne_nil]
      refine ⟨⟨?_, fun c hc => ?_, fun c hc => hrest.last c (hlast ▸ hc)⟩, hlast ▸ hsemicolon⟩
      · rw [intercalate_cons_cons]
        exact append_ne_nil_of_right_ne_nil _ hrest.ne_nil
      · rw [intercalate_cons_cons, append_assoc, head?_append] at hc
        obtain ⟨first, text, heq⟩ := exists_cons_of_ne_nil hitem.ne_nil
        rw [heq, head?_cons, Option.some_or] at hc
        exact hitem.head c (by rw [heq, head?_cons, hc])

/-- A command line is taken apart into its name and its items. -/
theorem parseShellCommand_items {name : Text} (hname : ∀ c ∈ name, isWhitespace c = false) (hne : name ≠ [])
    (hlower : name.map Char.toLower = name) {items : List Text} (h : ∀ item ∈ items, IsArgument item)
    (hitems : items ≠ []) :
    parseShellCommand (name ++ ' ' :: ", ".toList.intercalate items) = runCommand name items := by
  obtain ⟨hbody, hsemicolon⟩ := trimmed_intercalate h hitems
  have hlast : (name ++ ' ' :: ", ".toList.intercalate items).getLast? = (", ".toList.intercalate items).getLast? := by
    rw [getLast?_append_of_ne_nil _ (cons_ne_nil _ _), getLast?_cons_of_ne_nil hbody.ne_nil]
  have hline : Trimmed (name ++ ' ' :: ", ".toList.intercalate items) := by
    refine ⟨append_ne_nil_of_left_ne_nil hne _, fun c hc => ?_, fun c hc => hbody.last c (hlast ▸ hc)⟩
    obtain ⟨first, rest, heq⟩ := exists_cons_of_ne_nil hne
    rw [heq, cons_append, head?_cons] at hc
    rw [← Option.some.inj hc]
    exact hname first (heq ▸ mem_cons_self)
  have hdrop : (name ++ ' ' :: ", ".toList.intercalate items).rdropWhile (· == ';') =
      name ++ ' ' :: ", ".toList.intercalate items := by
    rw [rdropWhile_eq_self_iff]
    intro hne' hc
    refine hsemicolon ?_
    rw [← hlast, getLast?_eq_some_getLast hne', beq_iff_eq.mp hc]
  have hletters : ∀ c ∈ name, (!isWhitespace c) = true := fun c hc => by rw [hname c hc]; rfl
  have hstop : ¬(!isWhitespace ' ') = true := by decide
  have hsplit : splitCommandName (name ++ ' ' :: ", ".toList.intercalate items) =
      .ok (name, ", ".toList.intercalate items) := by
    rw [splitCommandName, dropWhile_append_of_pos hletters, dropWhile_cons_of_neg (p := fun c => !isWhitespace c) hstop,
      takeWhile_append_of_pos hletters, takeWhile_cons_of_neg (p := fun c => !isWhitespace c) hstop,
      append_nil]
    rfl
  have hfilter : items.filter (fun arg => !(trim arg).isEmpty) = items := by
    refine filter_eq_self.mpr fun item hitem => ?_
    rw [(h item hitem).trim, Bool.not_eq_true', isEmpty_eq_false_iff]
    exact (h item hitem).ne_nil
  rw [parseShellCommand, hline.trim, hdrop, hline.trim, if_neg (mt List.isEmpty_iff.mp hline.ne_nil), hsplit]
  change runCommand (name.map Char.toLower) _ = _
  rw [hlower, hbody.trim, splitTopLevel_items fun item hitem => (h item hitem).toIsItem, hfilter]

theorem requiredArg_eq_ok {args : List Text} {index : ℕ} {label : String} {l : Literal} {value : Text}
    (h : args[index]? = some l.write) : requiredArg args index label = .ok value ↔ l.text ≠ [] ∧ l.read = value := by
  rw [requiredArg, h, Option.map_some, stripQuotes_write]
  by_cases hempty : l.text = []
  · rw [read_eq_nil.mpr hempty]
    exact iff_of_false nofun fun hvalue => hvalue.1 hempty
  · have hread : l.read.isEmpty = false := isEmpty_eq_false_iff.mpr (mt read_eq_nil.mp hempty)
    rw [Option.filter_some, hread, and_iff_right hempty]
    exact ⟨Except.ok.inj, congrArg Except.ok⟩

namespace Literal

/-- A literal that a command requires. -/
def Arg (l : Literal) : Prop := l.text ≠ [] ∧ l.Kept

end Literal

/-! ## Option maps -/

/-- A key with its value, in a map. -/
def writeEntry (entry : Text × Text) : Text := entry.1 ++ " => ".toList ++ entry.2

/-- An entry that is read as it is written. -/
structure IsEntry (entry : Text × Text) : Prop where
  key : Trimmed entry.1
  plain : ∀ c ∈ entry.1, IsPlain c = true ∧ c ≠ '='
  upper : entry.1.map Char.toUpper = entry.1
  value : Trimmed entry.2
  scan : ∀ s : Scan, s.Outside → scanAll s entry.2 = some s

theorem isPlain_ne {c : Char} (h : IsPlain c = true) : c ≠ '\'' ∧ c ≠ '"' := by
  constructor <;> rintro rfl <;> exact absurd h (by decide)

theorem splitArrowFrom_key {key : Text} (h : ∀ c ∈ key, IsPlain c = true ∧ c ≠ '=') (rest : Text) :
    splitArrowFrom .none (key ++ '=' :: '>' :: rest) = some (key, rest) := by
  induction key with
  | nil =>
    rw [nil_append, splitArrowFrom, if_pos ⟨rfl, rfl, rfl⟩]
  | cons c key ih =>
    obtain ⟨⟨hplain, hne⟩, hkey⟩ := forall_mem_cons.mp h
    have hquotes : Quotes.none.next c = .none := by
      rw [Quotes.next, if_neg fun hc => (isPlain_ne hplain).1 hc.1, if_neg fun hc => (isPlain_ne hplain).2 hc.1]
    obtain ⟨d, text, heq⟩ := exists_cons_of_ne_nil
      (append_ne_nil_of_right_ne_nil key (cons_ne_nil '=' ('>' :: rest)))
    rw [cons_append, heq, splitArrowFrom, if_neg fun hc => hne hc.1, hquotes, ← heq, ih hkey]
    rfl

theorem stripQuotes_of_trim {a b : Text} (h : trim a = trim b) : stripQuotes a = stripQuotes b := by
  rw [stripQuotes, stripQuotes, h]

theorem stripQuotes_plain {text : Text} (h : ¬IsQuoted (trim text)) : stripQuotes text = trim text := if_neg h

variable {s : Scan}

section

variable {entry : Text × Text} (h : IsEntry entry)
include h

theorem IsEntry.splitArrow : splitArrow (writeEntry entry) = some (entry.1 ++ [' '], ' ' :: entry.2) := by
  have htext : writeEntry entry = (entry.1 ++ [' ']) ++ '=' :: '>' :: ' ' :: entry.2 := by
    rw [writeEntry, append_assoc, append_assoc]
    rfl
  rw [Shell.splitArrow, htext, splitArrowFrom_key]
  intro c hc
  rcases mem_append.mp hc with hc | hc
  · exact h.plain c hc
  · rw [mem_singleton.mp hc]
    decide

theorem IsEntry.stripQuotes_key : (stripQuotes (entry.1 ++ [' '])).map Char.toUpper = entry.1 := by
  have htrim : trim (entry.1 ++ [' ']) = entry.1 := by
    have hspace : ∀ c ∈ [' '], isWhitespace c = true := fun c hc => by
      rw [mem_singleton.mp hc]
      rfl
    have happend : trim ([] ++ (entry.1 ++ [' '])) = trim entry.1 := trim_append nofun hspace
    rw [nil_append] at happend
    rw [happend, h.key.trim]
  rw [stripQuotes_plain, htrim, h.upper]
  rw [htrim]
  intro hquoted
  obtain ⟨first, rest, heq⟩ := exists_cons_of_ne_nil h.key.ne_nil
  have hfirst := isPlain_ne (h.plain first (heq ▸ mem_cons_self)).1
  rw [heq] at hquoted
  rcases hquoted.1 with ⟨hc, -⟩ | ⟨hc, -⟩
  · exact hfirst.1 (Option.some.inj hc)
  · exact hfirst.2 (Option.some.inj hc)

theorem IsEntry.stripQuotes_value : stripQuotes (' ' :: entry.2) = stripQuotes entry.2 := by
  refine stripQuotes_of_trim ?_
  have hlead : trim ([' '] ++ entry.2) = entry.2 := h.value.trim_lead fun c hc => by
    rw [mem_singleton.mp hc]
    rfl
  exact hlead.trans h.value.trim.symm

theorem IsEntry.scanAll_write (hs : s.Outside) : scanAll s (writeEntry entry) = some s := by
  have harrow : ∀ c ∈ " => ".toList, IsPlain c = true := all_eq_true.mp (by decide)
  rw [writeEntry, scanAll_append, scanAll_append, scanAll_plain hs fun c hc => (h.plain c hc).1, Option.bind_some,
    scanAll_plain hs harrow, Option.bind_some, h.scan s hs]

theorem IsEntry.trimmed_write : Trimmed (writeEntry entry) := by
  obtain ⟨first, rest, heq⟩ := exists_cons_of_ne_nil h.key.ne_nil
  refine ⟨append_ne_nil_of_right_ne_nil _ h.value.ne_nil, fun c hc => ?_, fun c hc => ?_⟩
  · refine h.key.head c ?_
    rw [writeEntry, heq] at hc
    rw [heq]
    exact hc
  · refine h.value.last c ?_
    rw [writeEntry, getLast?_append_of_ne_nil _ h.value.ne_nil] at hc
    exact hc

end

/-- A map of entries, in braces. -/
def writeMap (entries : List (Text × Text)) : Text :=
  '{' :: (", ".toList.intercalate (entries.map writeEntry) ++ ['}'])

theorem next_brace (h : s.Outside) : s.next ',' '{' = some { s with braceDepth := s.braceDepth + 1 } := by
  rw [Scan.next, if_neg (by rw [h.2]; exact Bool.false_ne_true), if_neg fun hc => absurd hc.1 (by decide),
    if_neg (by decide), if_neg (not_not_intro h.1), if_pos rfl]

theorem next_closeBrace (h : s.Outside) :
    s.next ',' '}' = some { s with braceDepth := s.braceDepth - 1 } := by
  rw [Scan.next, if_neg (by rw [h.2]; exact Bool.false_ne_true), if_neg fun hc => absurd hc.1 (by decide),
    if_neg (by decide), if_neg (not_not_intro h.1), if_neg (by decide), if_pos rfl]

theorem next_bracket (h : s.Outside) : s.next ',' '[' = some { s with bracketDepth := s.bracketDepth + 1 } := by
  rw [Scan.next, if_neg (by rw [h.2]; exact Bool.false_ne_true), if_neg fun hc => absurd hc.1 (by decide),
    if_neg (by decide), if_neg (not_not_intro h.1), if_neg (by decide), if_neg (by decide), if_pos rfl]

theorem next_closeBracket (h : s.Outside) :
    s.next ',' ']' = some { s with bracketDepth := s.bracketDepth - 1 } := by
  rw [Scan.next, if_neg (by rw [h.2]; exact Bool.false_ne_true), if_neg fun hc => absurd hc.1 (by decide),
    if_neg (by decide), if_neg (not_not_intro h.1), if_neg (by decide), if_neg (by decide), if_neg (by decide), if_pos rfl]

section

variable {entries : List (Text × Text)} (h : ∀ entry ∈ entries, IsEntry entry)
include h

theorem isArgument_writeMap : IsArgument (writeMap entries) := by
  have htop := Scan.outside_top
  have hinside : (⟨.none, 1, 0, false⟩ : Scan).Outside := ⟨rfl, rfl⟩
  refine ⟨⟨trimmed_between (by decide) (by decide) _, ?_⟩, ?_⟩
  · have hitems : scanAll ⟨.none, 1, 0, false⟩ (", ".toList.intercalate (entries.map writeEntry)) =
        some ⟨.none, 1, 0, false⟩ := by
      refine scanAll_intercalate hinside (.inl Nat.one_ne_zero) fun item hitem => ?_
      obtain ⟨entry, hentry, rfl⟩ := mem_map.mp hitem
      exact (h entry hentry).scanAll_write hinside
    rw [writeMap, scanAll_cons, next_brace htop, Option.bind_some, scanAll_append]
    change (scanAll ⟨.none, 1, 0, false⟩ _).bind _ = _
    rw [hitems, Option.bind_some, scanAll_cons, next_closeBrace hinside]
    rfl
  · rw [writeMap, getLast?_between]
    decide

/-- The entries of a map are found again. -/
theorem parseOptions_writeMap :
    parseOptions (writeMap entries) = .ok (entries.foldl (fun out entry => out.insert entry.1 (stripQuotes entry.2)) []) := by
  have htrimmed : Trimmed (writeMap entries) := (isArgument_writeMap h).toTrimmed
  have hbracketed : IsBracketed '{' '}' (writeMap entries) := ⟨rfl, getLast?_between _ _ _⟩
  have hinner : (writeMap entries).tail.dropLast = ", ".toList.intercalate (entries.map writeEntry) := dropLast_concat
  have hitems : ∀ item ∈ entries.map writeEntry, IsItem item := by
    intro item hitem
    obtain ⟨entry, hentry, rfl⟩ := mem_map.mp hitem
    exact ⟨(h entry hentry).trimmed_write, (h entry hentry).scanAll_write Scan.outside_top⟩
  rw [parseOptions, htrimmed.trim, if_pos hbracketed, hinner, splitTopLevel_items hitems, foldl_map]
  refine congrArg Except.ok (foldl_ext _ _ _ fun out entry hentry => ?_)
  rw [(h entry hentry).splitArrow]
  dsimp only
  rw [(h entry hentry).stripQuotes_key, (h entry hentry).stripQuotes_value]

end

end Taomni.Hbase.Shell
