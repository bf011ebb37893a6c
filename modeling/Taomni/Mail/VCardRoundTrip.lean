import Mathlib.Data.List.Forall2
import Taomni.Mail.CalendarText

/-!
# Editing cards

A card that is serialized and parsed again is the same card exactly when its texts do not start with the
prefixes that parsing drops, its organisation has no semicolon, and its phones, organisation and note
are not empty texts (`parseVcards_serializeVcard_iff`). Lines that the address book does not manage are
kept, as long as no physical line is taken for a soft break.

Reference: `src-tauri/src/mail/vcard.rs`.
-/

namespace Taomni.Mail

open List
open Agent (isWhitespace trim)
open Option (bind_eq_some_iff bind_some map_some mem_toList some_inj toList_some)

/-! ## Texts -/

/-- `char::is_control`. -/
def isControl (c : Char) : Bool := c.toNat < 32 || (127 ≤ c.toNat && c.toNat ≤ 159)

/-- What the address book lets a user enter. -/
structure PlainText (s : Text) : Prop where
  noBackslash : '\\' ∉ s
  noControl : ∀ c ∈ s, isControl c = false
  trimmed : trim s = s

variable {s : Text}

theorem PlainText.noNewline (h : PlainText s) : '\n' ∉ s :=
  fun hmem => absurd (h.noControl '\n' hmem) (by decide)

/-- Some characters with a backslash before them. -/
def quoteChars (quoted : List Char) (s : Text) : Text :=
  s.flatMap fun c => if c ∈ quoted then ['\\', c] else [c]

theorem escape_eq (hbackslash : '\\' ∉ s) (hnewline : '\n' ∉ s) :
    escape s = quoteChars [';', ','] s := by
  induction s with
  | nil => rfl
  | cons c s ih =>
    rw [mem_cons, not_or] at hbackslash hnewline
    rw [escape_cons, ih hbackslash.2 hnewline.2]
    refine congrArg (· ++ _) ?_
    rw [escape_singleton, if_neg (Ne.symm hnewline.1)]
    simp only [mem_cons, not_mem_nil, or_false, Ne.symm hbackslash.1, false_or]

/-- Unescaping what was escaped. -/
theorem unescape_append (hs : '\\' ∉ s) (rest : Text) :
    unescape (quoteChars [';', ','] s ++ rest) = s ++ unescape rest := by
  induction s with
  | nil => rfl
  | cons c s ih =>
    rw [mem_cons, not_or] at hs
    unfold quoteChars at ih ⊢
    rw [flatMap_cons, append_assoc]
    by_cases hsemicolon : c = ';'
    · subst hsemicolon
      exact (unescape_semicolon _).trans (congrArg _ (ih hs.2))
    by_cases hcomma : c = ','
    · subst hcomma
      exact (unescape_comma _).trans (congrArg _ (ih hs.2))
    have hquoted : c ∉ [';', ','] := by
      rw [mem_pair, not_or]
      exact ⟨hsemicolon, hcomma⟩
    rw [if_neg hquoted]
    exact (unescape_cons (Ne.symm hs.1) _).trans (congrArg _ (ih hs.2))

/-! ## Trimming -/

theorem head_not_whitespace (h : trim s = s) {c : Char} (hc : s.head? = some c) :
    isWhitespace c = false := by
  obtain ⟨rest, rfl⟩ := List.head?_eq_some_iff.mp hc
  cases hspace : isWhitespace c with
  | false => rfl
  | true =>
    have hlength := congrArg List.length h
    unfold trim at hlength
    rw [dropWhile_cons, hspace, if_pos rfl] at hlength
    have hprefix := (List.rdropWhile_prefix isWhitespace (rest.dropWhile isWhitespace)).length_le
    have hsuffix := (dropWhile_suffix (l := rest) isWhitespace).length_le
    rw [length_cons] at hlength
    omega

theorem last_not_whitespace (h : trim s = s) {c : Char} (hc : s.getLast? = some c) :
    isWhitespace c = false := by
  have hne : s ≠ [] := by
    rintro rfl
    exact absurd hc nofun
  have htrim : (s.dropWhile isWhitespace).rdropWhile isWhitespace ≠ [] := by
    show trim s ≠ []
    rwa [h]
  have hlast := rdropWhile_last_not isWhitespace _ htrim
  rw [getLast?_eq_some_getLast hne, some_inj] at hc
  rw [← hc, Bool.eq_false_iff]
  intro hspace
  refine hlast ?_
  rw [← hspace]
  congr 2

theorem head?_quoteChars {quoted : List Char} {s rest : Text} {c : Char}
    (h : (quoteChars quoted s ++ rest).head? = some c) :
    c = '\\' ∨ s.head? = some c ∨ (s = [] ∧ rest.head? = some c) := by
  cases s with
  | nil => exact .inr (.inr ⟨rfl, h⟩)
  | cons d s =>
    unfold quoteChars at h
    rw [flatMap_cons, append_assoc] at h
    by_cases hd : d ∈ quoted
    · rw [if_pos hd] at h
      exact .inl (some_inj.mp h).symm
    · rw [if_neg hd] at h
      exact .inr (.inl h)

theorem getLast?_quoteChars (quoted : List Char) (s : Text) :
    (quoteChars quoted s).getLast? = s.getLast? := by
  rcases eq_nil_or_concat s with rfl | ⟨init, c, rfl⟩
  · rfl
  · unfold quoteChars
    rw [concat_eq_append, flatMap_append, getLast?_concat, flatMap_cons,
      flatMap_nil, append_nil]
    split
    · rw [getLast?_append]
      rfl
    · exact getLast?_concat

theorem trim_escape (h : PlainText s) : trim (escape s) = escape s := by
  rw [escape_eq h.noBackslash h.noNewline]
  refine Agent.trim_eq_self (fun c hc => ?_) fun c hc => ?_
  · rw [← append_nil (quoteChars _ s)] at hc
    rcases head?_quoteChars hc with rfl | hc | ⟨-, hc⟩
    · rfl
    · exact head_not_whitespace h.trimmed hc
    · exact absurd hc nofun
  · rw [getLast?_quoteChars] at hc
    exact last_not_whitespace h.trimmed hc

/-- A value that is written is read back. -/
theorem valueOf_escape {params : List (Text × Text)} (hparams : isQuotedPrintable params = false)
    (h : PlainText s) : valueOf params (escape s) = s := by
  unfold valueOf
  rw [hparams, if_neg Bool.false_ne_true]
  show unescape (trim (escape s)) = s
  rw [trim_escape h, escape_eq h.noBackslash h.noNewline]
  have hunescape := unescape_append h.noBackslash []
  rw [append_nil] at hunescape
  rw [hunescape]
  exact append_nil s

/-! ## Dropped prefixes -/

section

variable {pattern : Text}

theorem trimStartFrom_length (fuel : ℕ) (s : Text) :
    (trimStartFrom pattern fuel s).length ≤ s.length := by
  induction fuel generalizing s with
  | zero => exact Nat.le_refl _
  | succ fuel ih =>
    unfold trimStartFrom
    split
    · exact (ih _).trans (by rw [length_drop]; omega)
    · exact Nat.le_refl _

theorem trimStartMatches_length_lt (hpattern : pattern ≠ []) (h : pattern <+: s) :
    (trimStartMatches pattern s).length < s.length := by
  have hlength := h.length_le
  have hpositive := length_pos_iff.mpr hpattern
  obtain ⟨fuel, hfuel⟩ := Nat.exists_eq_succ_of_ne_zero (Nat.ne_of_gt (hpositive.trans_le hlength))
  unfold trimStartMatches
  rw [hfuel, trimStartFrom, if_pos h]
  have hdrop : (trimStartFrom pattern fuel (s.drop pattern.length)).length ≤ _ :=
    trimStartFrom_length fuel _
  rw [length_drop] at hdrop
  omega

theorem trimStartMatches_of_not (h : ¬pattern <+: s) : trimStartMatches pattern s = s := by
  unfold trimStartMatches
  cases s with
  | nil => rfl
  | cons c s => rw [length_cons, trimStartFrom, if_neg h]

theorem trimStartMatches_eq_self (hpattern : pattern ≠ []) :
    trimStartMatches pattern s = s ↔ ¬pattern <+: s := by
  refine ⟨fun h hprefix => ?_, trimStartMatches_of_not⟩
  have hlt := trimStartMatches_length_lt hpattern hprefix
  rw [h] at hlt
  exact absurd hlt (Nat.lt_irrefl _)

theorem trimStartMatches_length (s : Text) : (trimStartMatches pattern s).length ≤ s.length :=
  trimStartFrom_length _ s

/-- Texts of which some have the prefix get shorter together. -/
theorem flatten_trimStartMatches_lt {texts : List Text} (hpattern : pattern ≠ [])
    (hs : s ∈ texts) (h : pattern <+: s) :
    (texts.map (trimStartMatches pattern)).flatten.length < texts.flatten.length := by
  have hle (texts : List Text) :
      (texts.map (trimStartMatches pattern)).flatten.length ≤ texts.flatten.length := by
    induction texts with
    | nil => exact Nat.le_refl _
    | cons text texts ih =>
      rw [map_cons, flatten_cons, flatten_cons, length_append,
        length_append]
      exact Nat.add_le_add (trimStartMatches_length text) ih
  obtain ⟨before, after, rfl⟩ := append_of_mem hs
  have hlt := trimStartMatches_length_lt hpattern h
  have hbefore := hle before
  have hafter := hle after
  rw [map_append, map_cons, flatten_append, flatten_append, flatten_cons,
    flatten_cons]
  simp only [length_append]
  omega

end

/-! ## Kept lines -/

/-- Content lines; only the first may start with a blank. -/
structure Unfolded (lines : List Text) : Prop where
  newline : ∀ line ∈ lines, '\n' ∉ line
  start : ∀ line ∈ lines.tail, StartsLine line
  nonempty : ∀ line ∈ lines, line ≠ []

theorem StartsLine.append {line : Text} (h : StartsLine line) (more : Text) :
    StartsLine (line ++ more) := by
  obtain ⟨c, rest, rfl, hc⟩ := h
  exact ⟨c, rest ++ more, rfl, hc⟩

theorem newline_not_mem_stripCarriage {piece : Text} (h : '\n' ∉ piece) :
    '\n' ∉ stripCarriage piece := by
  unfold stripCarriage
  split
  · exact fun hmem => h (mem_of_mem_dropLast hmem)
  · exact h

theorem Unfolded.line {lines : List Text} (h : Unfolded lines) {piece : Text} (hpiece : '\n' ∉ piece) :
    Unfolded (unfoldLine lines piece) := by
  have hstrip := newline_not_mem_stripCarriage hpiece
  unfold unfoldLine
  generalize stripCarriage piece = line at hstrip
  dsimp only
  by_cases hcontinues : (line.head?.any isFoldBlank && !lines.isEmpty) = true
  · rw [if_pos hcontinues]
    have hne : lines ≠ [] := by
      rintro rfl
      exact absurd (Bool.and_eq_true_iff.mp hcontinues).2 Bool.false_ne_true
    obtain ⟨init, last, rfl⟩ := eq_nil_or_concat' lines |>.resolve_left hne
    rw [dropLast_concat, getLast?_concat, Option.getD_some]
    obtain ⟨hnewline, hlast⟩ := forall_mem_append.mp h.newline
    refine ⟨forall_mem_append.mpr ⟨hnewline, ?_⟩, ?_, ?_⟩
    · rw [forall_mem_singleton, mem_append, not_or]
      exact ⟨hlast last mem_cons_self, fun hmem => hstrip (mem_of_mem_drop hmem)⟩
    · have hstart := h.start
      cases init with
      | nil => exact fun _ hmem => absurd hmem not_mem_nil
      | cons first init =>
        rw [cons_append, tail_cons] at hstart ⊢
        obtain ⟨hinit, hlast⟩ := forall_mem_append.mp hstart
        refine forall_mem_append.mpr ⟨hinit, ?_⟩
        rw [forall_mem_singleton]
        exact (hlast last mem_cons_self).append _
    · obtain ⟨hinit, hlast⟩ := forall_mem_append.mp h.nonempty
      refine forall_mem_append.mpr ⟨hinit, ?_⟩
      rw [forall_mem_singleton]
      exact append_ne_nil_of_left_ne_nil (hlast last mem_cons_self) _
  rw [if_neg hcontinues]
  cases line with
  | nil => exact h
  | cons c rest =>
    rw [isEmpty_cons, if_neg Bool.false_ne_true]
    refine ⟨forall_mem_append.mpr ⟨h.newline, ?_⟩, ?_,
      forall_mem_append.mpr ⟨h.nonempty, ?_⟩⟩
    · rw [forall_mem_singleton]
      exact hstrip
    · have hstart := h.start
      cases lines with
      | nil => exact fun _ hmem => absurd hmem not_mem_nil
      | cons first lines =>
        rw [tail_cons] at hstart
        rw [cons_append, tail_cons]
        refine forall_mem_append.mpr ⟨hstart, ?_⟩
        rw [forall_mem_singleton]
        refine ⟨c, rest, rfl, Bool.eq_false_iff.mpr fun hblank => hcontinues ?_⟩
        rw [head?_cons, Option.any_some, hblank]
        rfl
    · rw [forall_mem_singleton]
      exact cons_ne_nil _ _

theorem unfolded_unfoldLines (text : Text) : Unfolded (unfoldLines text) := by
  have hfold (pieces lines : List Text) (h : Unfolded lines) (hpieces : ∀ piece ∈ pieces, '\n' ∉ piece) :
      Unfolded (pieces.foldl unfoldLine lines) := by
    induction pieces generalizing lines with
    | nil => exact h
    | cons piece pieces ih =>
      obtain ⟨hpiece, hpieces⟩ := forall_mem_cons.mp hpieces
      exact ih _ (h.line hpiece) hpieces
  exact hfold _ [] ⟨by decide, fun _ h => absurd h not_mem_nil, by decide⟩
    fun piece hpiece => not_mem_of_mem_splitOn hpiece

/-- A line that the address book leaves as it is. -/
structure Unmanaged (line : Text) : Prop where
  start : StartsLine line
  newline : '\n' ∉ line
  begins : beginsCard line = false
  ends : endsCard line = false
  name : bareName (splitProperty line).name ∉ managed

theorem mem_keepLines {lines : List Text} {depth : ℕ} {line : Text}
    (h : line ∈ keepLines depth lines) : line ∈ lines ∧ beginsCard line = false ∧
      endsCard line = false ∧ bareName (splitProperty line).name ∉ managed := by
  induction lines generalizing depth with
  | nil => exact absurd h not_mem_nil
  | cons first lines ih =>
    have htail {depth : ℕ} (h : line ∈ keepLines depth lines) := And.imp_left
      (mem_cons_of_mem first) (ih h)
    unfold keepLines at h
    split at h
    · exact htail h
    split at h
    · exact htail h
    · rename_i hbegins hends
      split at h
      · rename_i hkept
        rcases mem_cons.mp h with rfl | h
        · exact ⟨mem_cons_self, Bool.not_eq_true _ ▸ hbegins, Bool.not_eq_true _ ▸ hends, hkept.2⟩
        · exact htail h
      · exact htail h

/-- Outside a card nothing is kept, so that the first line is not. -/
theorem keepLines_zero {lines : List Text} {line : Text} (h : line ∈ keepLines 0 lines) :
    line ∈ lines.tail := by
  cases lines with
  | nil => exact absurd h not_mem_nil
  | cons first lines =>
    unfold keepLines at h
    split at h
    · exact (mem_keepLines h).1
    split at h
    · exact (mem_keepLines h).1
    · rw [if_neg fun hkept => absurd hkept.1 (by decide)] at h
      exact (mem_keepLines h).1

theorem unmanaged_of_mem_keptLines {raw : Option Text} {line : Text} (h : line ∈ keptLines raw) :
    Unmanaged line := by
  cases raw with
  | none => exact absurd h not_mem_nil
  | some raw =>
    have hunfolded := unfolded_unfoldLines raw
    obtain ⟨hmem, hbegins, hends, hname⟩ := mem_keepLines h
    exact ⟨hunfolded.start line (keepLines_zero h), hunfolded.newline line hmem, hbegins, hends,
      hname⟩

/-! ## The lines of a card -/

def uidLine (uid : Text) : Text := "UID:".toList ++ uid
def fnLine (displayName : Text) : Text := "FN:".toList ++ escape displayName
def emailLine (email : Text) : Text := "EMAIL;TYPE=INTERNET:".toList ++ escape email
def telLine (phone : Text) : Text := "TEL:".toList ++ escape phone
def orgLine (org : Text) : Text := "ORG:".toList ++ escape org
def noteLine (note : Text) : Text := "NOTE:".toList ++ escape note

def headLines : List Text :=
  ["BEGIN:VCARD".toList, "VERSION:3.0".toList, "PRODID:-//Taomni//Mail//EN".toList]

def valueLines (card : MailContactCard) : List Text :=
  card.emails.map emailLine ++ (card.phones.map telLine ++
    (((card.org.bind nonEmpty).map orgLine).toList ++
      ((card.note.bind nonEmpty).map noteLine).toList))

/-- The lines that tell something of the card. -/
def ownLines (card : MailContactCard) : List Text :=
  [uidLine card.uid, fnLine card.displayName] ++ (valueLines card ++ keptLines card.raw)

/-- The lines of a card with another line for its structured name. -/
def linesWith (name : Text) (card : MailContactCard) (stamp : Stamp) : List Text :=
  headLines ++ ([uidLine card.uid, fnLine card.displayName] ++ ([name] ++ (valueLines card ++
    (keptLines card.raw ++ ["REV:".toList ++ stamp.text, "END:VCARD".toList]))))

theorem cardLines_eq (card : MailContactCard) (stamp : Stamp) :
    cardLines card stamp = linesWith (nameLine card.displayName) card stamp := by
  unfold cardLines linesWith valueLines headLines
  simp only [append_assoc, cons_append, nil_append]
  rfl

/-! ## Serialization and carriage -/

theorem newline_not_mem_escape (h : '\n' ∉ s) : '\n' ∉ escape s := by
  have hreplace {a : Char} {text s : Text} (htext : '\n' ∉ text) (hs : '\n' ∉ s) :
      '\n' ∉ replaceChar a text s := by
    intro hmem
    obtain ⟨c, hc, hmem⟩ := mem_flatMap.mp hmem
    split at hmem
    · exact htext hmem
    · rw [mem_singleton] at hmem
      exact hs (hmem ▸ hc)
  unfold escape
  exact hreplace (by decide) (hreplace (by decide) (hreplace (by decide) (hreplace (by decide) h)))

theorem not_mem_append {c : Char} {s t : Text} (hs : c ∉ s) (ht : c ∉ t) : c ∉ s ++ t := by
  rw [mem_append, not_or]
  exact ⟨hs, ht⟩

/-- What the address book lets a user enter for a card. -/
structure Editable (card : MailContactCard) : Prop where
  uid : PlainText card.uid
  displayName : PlainText card.displayName
  named : card.displayName ≠ []
  emails : ∀ email ∈ card.emails, PlainText email ∧ email ≠ []
  distinct : card.emails.Nodup
  phones : ∀ phone ∈ card.phones, PlainText phone
  org : ∀ org, card.org = some org → PlainText org
  note : ∀ note, card.note = some note → PlainText note

theorem eq_of_bind_nonEmpty {text : Option Text} (h : text.bind nonEmpty = some s) : text = some s := by
  obtain ⟨t, rfl, ht⟩ := bind_eq_some_iff.mp h
  unfold nonEmpty at ht
  split at ht
  · exact absurd ht nofun
  · rw [some_inj.mp ht]

variable {card : MailContactCard}

/-- The address book's lines start as content lines and have no line end in them. -/
theorem startsLine_ownLines (h : Editable card) {line : Text} (hline : line ∈ ownLines card) :
    StartsLine line ∧ '\n' ∉ line := by
  unfold ownLines valueLines at hline
  simp only [mem_append, mem_cons, not_mem_nil, or_false, mem_map,
    mem_toList, Option.map_eq_some_iff] at hline
  rcases hline with (rfl | rfl) | (⟨email, hemail, rfl⟩ | ⟨phone, hphone, rfl⟩ |
    ⟨org, horg, rfl⟩ | ⟨note, hnote, rfl⟩) | hkept
  · exact ⟨⟨_, _, rfl, rfl⟩, not_mem_append (by decide) h.uid.noNewline⟩
  · exact ⟨⟨_, _, rfl, rfl⟩, not_mem_append (by decide)
      (newline_not_mem_escape h.displayName.noNewline)⟩
  · exact ⟨⟨_, _, rfl, rfl⟩, not_mem_append (by decide)
      (newline_not_mem_escape (h.emails email hemail).1.noNewline)⟩
  · exact ⟨⟨_, _, rfl, rfl⟩, not_mem_append (by decide)
      (newline_not_mem_escape (h.phones phone hphone).noNewline)⟩
  · exact ⟨⟨_, _, rfl, rfl⟩, not_mem_append (by decide)
      (newline_not_mem_escape (h.org org (eq_of_bind_nonEmpty horg)).noNewline)⟩
  · exact ⟨⟨_, _, rfl, rfl⟩, not_mem_append (by decide)
      (newline_not_mem_escape (h.note note (eq_of_bind_nonEmpty hnote)).noNewline)⟩
  · have hunmanaged := unmanaged_of_mem_keptLines hkept
    exact ⟨hunmanaged.start, hunmanaged.newline⟩

def isInline (c : Char) : Bool := c != '=' && c != '\n'

/-- A line without `=` has no soft break. -/
theorem carried_plain {line : Text} (hstart : StartsLine line) (h : line.all isInline = true) :
    Carried line line := by
  rw [all_eq_true] at h
  have hnot {c : Char} (hc : isInline c = false) : c ∉ line := fun hmem =>
    Bool.false_ne_true (hc.symm.trans (h c hmem))
  refine carried_self hstart (hnot rfl) fun piece hpiece => ?_
  unfold isSoftBreak
  rw [Bool.and_eq_false_iff]
  right
  rw [beq_eq_false_iff_ne]
  intro hlast
  rcases mem_physicalLines hpiece (mem_of_getLast? hlast) with hmem | heq
  · exact hnot rfl hmem
  · exact absurd heq (by decide)

theorem isInline_of_digit {c : Char} (h : c ∈ "0123456789TZ+-".toList) : isInline c = true := by
  have hall : "0123456789TZ+-".toList.all isInline = true := rfl
  exact all_eq_true.mp hall c h

variable (name : Text) (stamp : Stamp)

theorem carried_stamp : Carried ("REV:".toList ++ stamp.text) ("REV:".toList ++ stamp.text) := by
  refine carried_plain ⟨_, _, rfl, rfl⟩ ?_
  rw [all_append, Bool.and_eq_true, all_eq_true, all_eq_true]
  exact ⟨all_eq_true.mp rfl, fun c hc => isInline_of_digit (stamp.digits c hc)⟩

theorem newline_not_mem_nameParts {displayName : Text} (h : '\n' ∉ displayName) :
    '\n' ∉ (nameParts displayName).1 ∧ '\n' ∉ (nameParts displayName).2 := by
  have htrim : '\n' ∉ trim displayName := fun hmem =>
    h ((dropWhile_suffix isWhitespace).subset ((List.rdropWhile_prefix _ _).subset hmem))
  unfold nameParts
  dsimp only
  split
  · exact ⟨fun hmem => htrim ((List.rdropWhile_prefix _ _).subset (mem_of_mem_dropLast hmem)),
      fun hmem => htrim ((rtakeWhile_suffix _ _).subset hmem)⟩
  · exact ⟨htrim, not_mem_nil⟩

theorem newline_not_mem_nameLine {displayName : Text} (h : '\n' ∉ displayName) :
    '\n' ∉ nameLine displayName := by
  obtain ⟨hgiven, hfamily⟩ := newline_not_mem_nameParts h
  unfold nameLine
  refine not_mem_append (not_mem_append (not_mem_append (not_mem_append (by decide) ?_)
    (by decide)) ?_) (by decide)
  · exact newline_not_mem_escape hfamily
  · exact newline_not_mem_escape hgiven

theorem carried_nameLine (h : Editable card) :
    ∃ name, '\n' ∉ name ∧ Carried (nameLine card.displayName) ("N:".toList ++ name) := by
  have hnewline := newline_not_mem_nameLine h.displayName.noNewline
  have hlast : (nameLine card.displayName).getLast? ≠ some '=' := by
    unfold nameLine
    rw [getLast?_append]
    exact nofun
  unfold nameLine at hnewline hlast ⊢
  simp only [append_assoc] at hnewline hlast ⊢
  exact carried_start rfl ⟨rfl, rfl⟩ ⟨by decide, by decide⟩ hnewline hlast

/-- What every line of a card has, when its own lines and its name have it. -/
theorem forall_mem_linesWith {P : Text → Prop} {name : Text} {stamp : Stamp}
    (hplain : ∀ line ∈ "END:VCARD".toList :: headLines, P line)
    (hstamp : P ("REV:".toList ++ stamp.text)) (hname : P name) (hown : ∀ line ∈ ownLines card, P line) :
    ∀ line ∈ linesWith name card stamp, P line := by
  obtain ⟨hend, hhead⟩ := forall_mem_cons.mp hplain
  unfold ownLines at hown
  obtain ⟨hfirst, hown⟩ := forall_mem_append.mp hown
  obtain ⟨hvalues, hkept⟩ := forall_mem_append.mp hown
  unfold linesWith
  simp only [forall_mem_append]
  refine ⟨hhead, hfirst, forall_mem_singleton.mpr hname, hvalues, hkept, ?_⟩
  exact forall_mem_cons.mpr ⟨hstamp, forall_mem_singleton.mpr hend⟩

theorem newline_not_mem_stamp : '\n' ∉ "REV:".toList ++ stamp.text :=
  not_mem_append (by decide) fun hmem => absurd (stamp.digits _ hmem) (by decide)

theorem serializeVcard_eq (card : MailContactCard) (stamp : Stamp) : serializeVcard card stamp =
    ((cardLines card stamp).flatMap physicalLines).flatMap (· ++ crlf) := by
  unfold serializeVcard
  rw [crlf_intercalate, flatMap_map, flatMap_assoc]
  · exact flatMap_congr fun line _ => foldLine_crlf line
  · rw [cardLines_eq]
    exact cons_ne_nil _ _

/-- What is serialized is carried as it is, but for the structured name. -/
theorem unfoldLines_serializeVcard (h : Editable card)
    (hown : ∀ line ∈ ownLines card, NoSoftBreak line) : ∃ name, '\n' ∉ name ∧
      unfoldLines (joinQpSoftBreaks (serializeVcard card stamp)) =
        linesWith ("N:".toList ++ name) card stamp := by
  obtain ⟨name, hname, hcarried⟩ := carried_nameLine h
  refine ⟨name, hname, ?_⟩
  have hself (line : Text) (hline : line ∈ ownLines card) : Carried line line :=
    carried_self (startsLine_ownLines h hline).1 (startsLine_ownLines h hline).2 (hown line hline)
  have hplain (line : Text) (hline : line ∈ "END:VCARD".toList :: headLines) :
      Carried line line := by
    unfold headLines at hline
    simp only [mem_cons, not_mem_nil, or_false] at hline
    rcases hline with rfl | rfl | rfl | rfl <;> exact carried_plain ⟨_, _, rfl, rfl⟩ rfl
  have hlines : List.Forall₂ Carried (cardLines card stamp)
      (linesWith ("N:".toList ++ name) card stamp) := by
    rw [cardLines_eq]
    unfold linesWith
    refine rel_append (List.forall₂_same.mpr fun line hline => ?_)
      (rel_append (List.forall₂_same.mpr fun line hline => ?_)
      (rel_append (.cons hcarried .nil) (rel_append
      (List.forall₂_same.mpr fun line hline => ?_) (rel_append
      (List.forall₂_same.mpr fun line hline => ?_)
      (.cons (carried_stamp stamp) (.cons ?_ .nil))))))
    · exact hplain line (mem_cons_of_mem _ hline)
    · exact hself line (mem_append_left _ hline)
    · exact hself line (mem_append_right _ (mem_append_left _ hline))
    · exact hself line (mem_append_right _ (mem_append_right _ hline))
    · exact hplain _ mem_cons_self
  have hnewline : ∀ line ∈ cardLines card stamp, '\n' ∉ line := by
    rw [cardLines_eq]
    exact forall_mem_linesWith (by decide) (newline_not_mem_stamp stamp)
      (newline_not_mem_nameLine h.displayName.noNewline)
      fun line hline => (startsLine_ownLines h hline).2
  unfold joinQpSoftBreaks
  rw [serializeVcard_eq, splitOn_flatMap_crlf, unfoldLines_carried hlines]
  intro piece hpiece
  obtain ⟨line, hline, hpiece⟩ := mem_flatMap.mp hpiece
  exact newline_not_mem_physicalLines (hnewline line hline) hpiece

/-! ## Parsing -/

def addUnique (emails : List Text) (email : Text) : List Text :=
  if !email.isEmpty && !emails.contains email then emails ++ [email] else emails

theorem addEmail_eq (card : MailContactCard) (email : Text) :
    addEmail card email = { card with emails := addUnique card.emails email } := by
  unfold addEmail addUnique
  rw [contains_eq_mem, decide_not]
  split <;> rfl

theorem addPhone_eq (card : MailContactCard) (phone : Text) : addPhone card phone =
    { card with phones := card.phones ++ [phone].filter fun phone => !phone.isEmpty } := by
  unfold addPhone
  cases phone with
  | nil => rw [filter_cons_of_neg (by decide), filter_nil, append_nil]; rfl
  | cons c phone => rfl

def readEmails (emails : List Text) : List Text :=
  (emails.map (trimStartMatches "mailto:".toList)).foldl addUnique []

def readPhones (phones : List Text) : List Text :=
  (phones.map (trimStartMatches "tel:".toList)).filter fun phone => !phone.isEmpty

def readOrg (org : Option Text) : Option Text :=
  (org.bind nonEmpty).bind fun org => nonEmpty (valueOf [] (((escape org).splitOn ';').head?.getD []))

theorem line_email (s : Parsing) (value : Text) : s.line ("EMAIL;TYPE=INTERNET:".toList ++ value) =
      { card := addEmail s.card (trimStartMatches "mailto:".toList
          (valueOf [("TYPE".toList, "INTERNET".toList)] value))
        structuredName := s.structuredName } := rfl

theorem line_tel (s : Parsing) (value : Text) : s.line ("TEL:".toList ++ value) =
    { s with card := addPhone s.card (trimStartMatches "tel:".toList (valueOf [] value)) } := rfl

theorem line_org (s : Parsing) (value : Text) : s.line ("ORG:".toList ++ value) =
    { s with card.org := nonEmpty (valueOf [] ((value.splitOn ';').head?.getD [])) } := rfl

theorem line_note (s : Parsing) (value : Text) : s.line ("NOTE:".toList ++ value) =
    { s with card.note := nonEmpty (valueOf [] value) } := rfl

theorem foldl_emailLine {emails : List Text} (h : ∀ email ∈ emails, PlainText email) (s : Parsing) :
    (emails.map emailLine).foldl Parsing.line s = { s with card.emails :=
          (emails.map (trimStartMatches "mailto:".toList)).foldl addUnique s.card.emails } := by
  induction emails generalizing s with
  | nil => rfl
  | cons email emails ih =>
    obtain ⟨hemail, hemails⟩ := forall_mem_cons.mp h
    have hline : s.line (emailLine email) = { s with
        card.emails := addUnique s.card.emails (trimStartMatches "mailto:".toList email) } := by
      unfold emailLine
      rw [line_email, valueOf_escape rfl hemail, addEmail_eq]
    rw [map_cons, foldl_cons, hline, ih hemails]
    rfl

theorem foldl_telLine {phones : List Text} (h : ∀ phone ∈ phones, PlainText phone) (s : Parsing) :
    (phones.map telLine).foldl Parsing.line s =
      { s with card.phones := s.card.phones ++ readPhones phones } := by
  induction phones generalizing s with
  | nil =>
    unfold readPhones
    rw [map_nil, map_nil, filter_nil, append_nil]
    rfl
  | cons phone phones ih =>
    obtain ⟨hphone, hphones⟩ := forall_mem_cons.mp h
    have hline : s.line (telLine phone) = { s with card.phones := s.card.phones ++
        [trimStartMatches "tel:".toList phone].filter fun phone => !phone.isEmpty } := by
      unfold telLine
      rw [line_tel, valueOf_escape rfl hphone, addPhone_eq]
    rw [map_cons, foldl_cons, hline, ih hphones]
    unfold readPhones
    dsimp only
    rw [append_assoc, ← filter_append]
    rfl

theorem foldl_orgLine {org : Option Text} (s : Parsing) (hs : s.card.org = none) :
    ((org.bind nonEmpty).map orgLine).toList.foldl Parsing.line s =
      { s with card.org := readOrg org } := by
  unfold readOrg
  cases org.bind nonEmpty with
  | none =>
    obtain ⟨⟨uid, displayName, emails, phones, org, note, raw⟩, structuredName⟩ := s
    cases hs
    rfl
  | some org =>
    rw [map_some, toList_some, foldl_cons, foldl_nil, bind_some]
    exact line_org s (escape org)

theorem foldl_noteLine {note : Option Text} (h : ∀ n, note = some n → PlainText n) (s : Parsing)
    (hs : s.card.note = none) : ((note.bind nonEmpty).map noteLine).toList.foldl Parsing.line s =
      { s with card.note := note.bind nonEmpty } := by
  cases hnote : note.bind nonEmpty with
  | none =>
    obtain ⟨⟨uid, displayName, emails, phones, org, note, raw⟩, structuredName⟩ := s
    cases hs
    rfl
  | some n =>
    have hne : nonEmpty n = some n := by
      obtain ⟨m, -, hm⟩ := bind_eq_some_iff.mp hnote
      unfold nonEmpty at hm ⊢
      split at hm
      · exact absurd hm nofun
      · rename_i hempty
        cases hm
        rw [if_neg hempty]
    rw [map_some, toList_some, foldl_cons, foldl_nil]
    refine (line_note s (escape n)).trans ?_
    rw [valueOf_escape rfl (h n (eq_of_bind_nonEmpty hnote)), hne]

theorem foldl_unmanaged {lines : List Text} (h : ∀ line ∈ lines, Unmanaged line) (s : Parsing) :
    lines.foldl Parsing.line s = s := by
  induction lines with
  | nil => rfl
  | cons line lines ih =>
    obtain ⟨hline, hlines⟩ := forall_mem_cons.mp h
    have hself : s.line line = s := by
      have hname := hline.name
      unfold managed at hname
      simp only [mem_cons, not_mem_nil, or_false, not_or] at hname
      unfold Parsing.line
      simp only [hname, if_false]
    rw [foldl_cons, hself]
    exact ih hlines

/-- What is read of a card whose lines are `lines`. -/
def readCard (card : MailContactCard) (lines : List Text) : MailContactCard where
  uid := trimStartMatches "urn:uuid:".toList card.uid
  displayName := card.displayName
  emails := readEmails card.emails
  phones := readPhones card.phones
  org := readOrg card.org
  note := card.note.bind nonEmpty
  raw := some (joinRaw lines)

theorem line_uid (s : Parsing) (value : Text) : s.line ("UID:".toList ++ value) =
    { s with card.uid := trimStartMatches "urn:uuid:".toList (trim value) } := rfl

theorem line_fn (s : Parsing) (value : Text) : s.line ("FN:".toList ++ value) =
    { s with card.displayName := valueOf [] value } := rfl

theorem line_n (s : Parsing) (value : Text) : s.line ("N:".toList ++ value) =
    { s with structuredName := structuredNameOf ⟨"N".toList, [], value⟩ } := rfl

theorem line_rev (s : Parsing) (value : Text) : s.line ("REV:".toList ++ value) = s := rfl

theorem parseCard_linesWith (h : Editable card) (name : Text) (stamp : Stamp) :
    parseCard (linesWith ("N:".toList ++ name) card stamp) =
      some { readCard card [] with raw := none } := by
  have hfold : (linesWith ("N:".toList ++ name) card stamp).foldl Parsing.line {} =
      ⟨{ readCard card [] with raw := none }, structuredNameOf ⟨"N".toList, [], name⟩⟩ := by
    unfold linesWith valueLines
    simp only [foldl_append, foldl_cons, foldl_nil]
    have hhead : headLines.foldl Parsing.line {} = {} := rfl
    unfold uidLine fnLine
    rw [hhead, line_uid, h.uid.trimmed, line_fn, valueOf_escape rfl h.displayName, line_n,
      foldl_emailLine fun email hemail => (h.emails email hemail).1, foldl_telLine h.phones,
      foldl_orgLine _ rfl, foldl_noteLine h.note _ rfl,
      foldl_unmanaged fun line hline => unmanaged_of_mem_keptLines hline, line_rev]
    rfl
  have hnamed : card.displayName.isEmpty = false :=
    Bool.eq_false_iff.mpr fun hempty => h.named (List.isEmpty_iff.mp hempty)
  unfold parseCard
  rw [hfold]
  unfold readCard
  simp only [hnamed, Bool.false_eq_true, if_false, Bool.false_and]

/-! ## Reading -/

/-- A line within a card that starts or ends none. -/
def Inner (line : Text) : Prop := beginsCard line = false ∧ endsCard line = false

def innerLines (name : Text) (card : MailContactCard) (stamp : Stamp) : List Text :=
  headLines.tail ++ ([uidLine card.uid, fnLine card.displayName] ++ (["N:".toList ++ name] ++
    (valueLines card ++ (keptLines card.raw ++ ["REV:".toList ++ stamp.text]))))

theorem linesWith_eq (card : MailContactCard) (stamp : Stamp) :
    linesWith ("N:".toList ++ name) card stamp =
      "BEGIN:VCARD".toList :: (innerLines name card stamp ++ ["END:VCARD".toList]) := by
  unfold linesWith innerLines headLines
  simp only [append_assoc, cons_append, nil_append, tail_cons]

/-- A line that is written for a value of the card. -/
structure Written (line : Text) : Prop where
  inner : Inner line
  name : bareName (splitProperty line).name ∈ managed

theorem written_valueLines {line : Text} (h : line ∈ valueLines card) : Written line := by
  unfold valueLines at h
  simp only [mem_append, mem_map, mem_toList, Option.map_eq_some_iff] at h
  rcases h with ⟨email, -, rfl⟩ | ⟨phone, -, rfl⟩ | ⟨org, -, rfl⟩ | ⟨note, -, rfl⟩
  · exact ⟨⟨rfl, rfl⟩, show "EMAIL".toList ∈ managed by decide⟩
  · exact ⟨⟨rfl, rfl⟩, show "TEL".toList ∈ managed by decide⟩
  · exact ⟨⟨rfl, rfl⟩, show "ORG".toList ∈ managed by decide⟩
  · exact ⟨⟨rfl, rfl⟩, show "NOTE".toList ∈ managed by decide⟩

theorem keepLines_written {lines more : List Text} (h : ∀ line ∈ lines, Written line) :
    keepLines 1 (lines ++ more) = keepLines 1 more := by
  induction lines with
  | nil => rfl
  | cons line lines ih =>
    obtain ⟨hline, hlines⟩ := forall_mem_cons.mp h
    rw [cons_append, keepLines, hline.inner.1, hline.inner.2, if_neg Bool.false_ne_true,
      if_neg Bool.false_ne_true, if_neg fun hkept => hkept.2 hline.name]
    exact ih hlines

theorem keepLines_unmanaged {lines more : List Text} (h : ∀ line ∈ lines, Unmanaged line) :
    keepLines 1 (lines ++ more) = lines ++ keepLines 1 more := by
  induction lines with
  | nil => rfl
  | cons line lines ih =>
    obtain ⟨hline, hlines⟩ := forall_mem_cons.mp h
    rw [cons_append, keepLines, hline.begins, hline.ends, if_neg Bool.false_ne_true,
      if_neg Bool.false_ne_true, if_pos ⟨rfl, hline.name⟩, ih hlines]
    rfl

theorem written_first (card : MailContactCard) : ∀ line ∈ headLines.tail ++ [uidLine card.uid,
    fnLine card.displayName] ++ ["N:".toList ++ name], Written line := by
  intro line hline
  unfold headLines at hline
  simp only [tail_cons, cons_append, nil_append, mem_cons, not_mem_nil,
    or_false] at hline
  rcases hline with rfl | rfl | rfl | rfl | rfl
  · exact ⟨⟨rfl, rfl⟩, show "VERSION".toList ∈ managed by decide⟩
  · exact ⟨⟨rfl, rfl⟩, show "PRODID".toList ∈ managed by decide⟩
  · exact ⟨⟨rfl, rfl⟩, show "UID".toList ∈ managed by decide⟩
  · exact ⟨⟨rfl, rfl⟩, show "FN".toList ∈ managed by decide⟩
  · exact ⟨⟨rfl, rfl⟩, show "N".toList ∈ managed by decide⟩

theorem written_rev : Written ("REV:".toList ++ stamp.text) :=
  ⟨⟨rfl, rfl⟩, show "REV".toList ∈ managed by decide⟩

theorem inner_innerLines : ∀ line ∈ innerLines name card stamp, Inner line := by
  have hfirst := written_first name card
  unfold innerLines
  simp only [forall_mem_append] at hfirst ⊢
  refine ⟨fun line hline => (hfirst.1.1 line hline).inner, fun line hline =>
    (hfirst.1.2 line hline).inner, fun line hline => (hfirst.2 line hline).inner,
    fun line hline => (written_valueLines hline).inner, fun line hline => ?_, ?_⟩
  · exact ⟨(unmanaged_of_mem_keptLines hline).begins, (unmanaged_of_mem_keptLines hline).ends⟩
  · rw [forall_mem_singleton]
    exact (written_rev stamp).inner

/-- The lines that were kept are kept again. -/
theorem keepLines_linesWith (card : MailContactCard) (stamp : Stamp) :
    keepLines 0 (linesWith ("N:".toList ++ name) card stamp) = keptLines card.raw := by
  have hbegins : beginsCard "BEGIN:VCARD".toList = true := rfl
  have hends : keepLines 1 ["END:VCARD".toList] = [] := rfl
  have hfirst := written_first name card
  rw [linesWith_eq, keepLines, if_pos hbegins]
  unfold innerLines
  have hassoc : headLines.tail ++ ([uidLine card.uid, fnLine card.displayName] ++
      (["N:".toList ++ name] ++ (valueLines card ++ (keptLines card.raw ++
        ["REV:".toList ++ stamp.text])))) ++ ["END:VCARD".toList] =
      (headLines.tail ++ [uidLine card.uid, fnLine card.displayName] ++ ["N:".toList ++ name]) ++
        (valueLines card ++ (keptLines card.raw ++ (["REV:".toList ++ stamp.text] ++
          ["END:VCARD".toList]))) := by
    simp only [append_assoc]
  rw [hassoc, keepLines_written hfirst, keepLines_written fun line hline => written_valueLines hline,
    keepLines_unmanaged fun line hline => unmanaged_of_mem_keptLines hline,
    keepLines_written (forall_mem_singleton.mpr (written_rev stamp)), hends, append_nil]

theorem foldl_inner {lines : List Text} (h : ∀ line ∈ lines, Inner line) (s : Reading) :
    lines.foldl Reading.line s = { s with current := s.current.map (· ++ lines) } := by
  induction lines generalizing s with
  | nil =>
    obtain ⟨cards, current, depth⟩ := s
    cases current with
    | none => rfl
    | some body => simp
  | cons line lines ih =>
    obtain ⟨hline, hlines⟩ := forall_mem_cons.mp h
    have hpush : s.line line = s.push line := by
      unfold Reading.line
      rw [hline.1, hline.2, if_neg Bool.false_ne_true, Bool.false_and, if_neg Bool.false_ne_true]
    rw [foldl_cons, hpush, ih hlines]
    unfold Reading.push
    cases s.current with
    | none => rfl
    | some body => simp

/-- What is read of a serialized card none of whose own lines has a soft break. -/
theorem parseVcards_serializeVcard (h : Editable card)
    (hown : ∀ line ∈ ownLines card, NoSoftBreak line) : ∃ lines,
      parseVcards (serializeVcard card stamp) = [readCard card lines] ∧
      keptLines (some (joinRaw lines)) = keptLines card.raw := by
  obtain ⟨name, hname, hunfold⟩ := unfoldLines_serializeVcard stamp h hown
  refine ⟨linesWith ("N:".toList ++ name) card stamp, ?_, ?_⟩
  · have hparse := parseCard_linesWith h name stamp
    unfold parseVcards
    rw [hunfold]
    rw [linesWith_eq] at hparse ⊢
    have hbegin : Reading.line {} "BEGIN:VCARD".toList =
        { current := some ["BEGIN:VCARD".toList], depth := 1 } := rfl
    have hend (body : List Text) :
        Reading.line { current := some body, depth := 1 } "END:VCARD".toList =
          Reading.finish { current := some body, depth := 0 } "END:VCARD".toList := rfl
    rw [foldl_cons, hbegin, foldl_append, foldl_inner (inner_innerLines name stamp),
      map_some, foldl_cons, foldl_nil, hend]
    unfold Reading.finish
    dsimp only
    rw [append_assoc, cons_append, nil_append, hparse]
    rfl
  · unfold keptLines joinRaw
    dsimp only
    rw [crlf_intercalate (by rw [linesWith_eq]; exact cons_ne_nil _ _), unfoldLines_lines,
      keepLines_linesWith]
    · rfl
    · refine forall_mem_linesWith (fun line hline => ?_) ⟨_, _, rfl, rfl⟩ ⟨_, _, rfl, rfl⟩
        fun line hline => (startsLine_ownLines h hline).1
      unfold headLines at hline
      simp only [mem_cons, not_mem_nil, or_false] at hline
      rcases hline with rfl | rfl | rfl | rfl <;> exact ⟨_, _, rfl, rfl⟩
    · exact forall_mem_linesWith (by decide) (newline_not_mem_stamp stamp)
        (not_mem_append (by decide) hname) fun line hline => (startsLine_ownLines h hline).2

/-! ## What is preserved -/

section

variable {emails : List Text}

theorem foldl_addUnique {acc : List Text} (hnonempty : ∀ email ∈ emails, email ≠ [])
    (hdistinct : (acc ++ emails).Nodup) : emails.foldl addUnique acc = acc ++ emails := by
  induction emails generalizing acc with
  | nil => exact (append_nil acc).symm
  | cons email emails ih =>
    obtain ⟨hemail, hemails⟩ := forall_mem_cons.mp hnonempty
    have hnew : email ∉ acc := fun hmem =>
      (nodup_append.mp hdistinct).2.2 email hmem email mem_cons_self rfl
    have hadd : addUnique acc email = acc ++ [email] := by
      unfold addUnique
      rw [if_pos]
      simp [hemail, hnew]
    rw [foldl_cons, hadd, ih hemails (by simpa using hdistinct), append_assoc]
    rfl

theorem foldl_addUnique_length (acc : List Text) :
    (emails.foldl addUnique acc).flatten.length ≤ acc.flatten.length + emails.flatten.length := by
  induction emails generalizing acc with
  | nil => exact Nat.le_refl _
  | cons email emails ih =>
    have hadd : (addUnique acc email).flatten.length ≤ acc.flatten.length + email.length := by
      unfold addUnique
      split
      · simp
      · exact Nat.le_add_right _ _
    have h := ih (addUnique acc email)
    rw [foldl_cons, flatten_cons, length_append]
    omega

theorem readEmails_eq_iff (hnonempty : ∀ email ∈ emails, email ≠ []) (hdistinct : emails.Nodup) :
    readEmails emails = emails ↔ ∀ email ∈ emails, ¬"mailto:".toList <+: email := by
  unfold readEmails
  constructor
  · intro h email hemail hprefix
    have hlt := flatten_trimStartMatches_lt (by decide) hemail hprefix
    have hle : ((emails.map (trimStartMatches "mailto:".toList)).foldl addUnique []).flatten.length ≤
        _ := foldl_addUnique_length []
    rw [h, flatten_nil, length_nil, Nat.zero_add] at hle
    omega
  · intro h
    have hmap : emails.map (trimStartMatches "mailto:".toList) = emails :=
      (map_congr_left fun email hemail => trimStartMatches_of_not (h email hemail)).trans
        (map_id _)
    rw [hmap, foldl_addUnique hnonempty (by rwa [nil_append])]
    rfl

end

theorem readPhones_eq_iff {phones : List Text} : readPhones phones = phones ↔
    ∀ phone ∈ phones, phone ≠ [] ∧ ¬"tel:".toList <+: phone := by
  unfold readPhones
  constructor
  · intro h phone hphone
    constructor
    · rintro rfl
      rw [← h] at hphone
      exact absurd (mem_filter.mp hphone).2 Bool.false_ne_true
    · intro hprefix
      have hlt := flatten_trimStartMatches_lt (by decide) hphone hprefix
      rw [← flatten_filter_not_isEmpty, h] at hlt
      exact Nat.lt_irrefl _ hlt
  · intro h
    have hmap : phones.map (trimStartMatches "tel:".toList) = phones :=
      (map_congr_left fun phone hphone => trimStartMatches_of_not (h phone hphone).2).trans
        (map_id _)
    rw [hmap, filter_eq_self]
    intro phone hphone
    rw [Bool.not_eq_true', isEmpty_eq_false_iff]
    exact (h phone hphone).1

theorem nonEmpty_eq_some {text s : Text} : nonEmpty text = some s ↔ text = s ∧ s ≠ [] := by
  unfold nonEmpty
  split
  · rename_i hempty
    rw [List.isEmpty_iff] at hempty
    refine ⟨nofun, fun h => absurd (h.1 ▸ hempty) h.2⟩
  · rename_i hempty
    rw [List.isEmpty_iff] at hempty
    rw [some_inj]
    exact ⟨fun h => ⟨h, h ▸ hempty⟩, fun h => h.1⟩

theorem semicolon_not_mem_quoteChars (h : ';' ∉ s) : ';' ∉ quoteChars [';', ','] s := by
  intro hmem
  obtain ⟨c, hc, hmem⟩ := mem_flatMap.mp hmem
  split at hmem
  · rw [mem_cons, mem_singleton] at hmem
    exact h (hmem.resolve_left (by decide) ▸ hc)
  · rw [mem_singleton] at hmem
    exact h (hmem ▸ hc)

/-- The organisation that is read of a line for `org`. -/
def orgValue (org : Text) : Text := valueOf [] (((escape org).splitOn ';').head?.getD [])

theorem orgValue_of_not_mem {org : Text} (hplain : PlainText org) (h : ';' ∉ org) :
    orgValue org = org := by
  have hescape := escape_eq hplain.noBackslash hplain.noNewline
  have hsplit := splitOn_eq_singleton (semicolon_not_mem_quoteChars h)
  rw [← hescape] at hsplit
  unfold orgValue
  rw [hsplit]
  exact valueOf_escape rfl hplain

/-- A semicolon ends what is read, and leaves the backslash before it. -/
theorem backslash_mem_orgValue {org : Text} (hplain : PlainText org) (h : ';' ∈ org) :
    '\\' ∈ orgValue org := by
  obtain ⟨before, after, rfl, hbefore⟩ := eq_append_cons_of_mem h
  have hbackslash : '\\' ∉ before := fun hmem =>
    hplain.noBackslash (mem_append_left _ hmem)
  have hsplit : (escape (before ++ ';' :: after)).splitOn ';' =
      (quoteChars [';', ','] before ++ ['\\']) :: (quoteChars [';', ','] after).splitOn ';' := by
    rw [escape_eq hplain.noBackslash hplain.noNewline]
    have hquote : quoteChars [';', ','] (before ++ ';' :: after) =
        (quoteChars [';', ','] before ++ ['\\']) ++ ';' :: quoteChars [';', ','] after := by
      unfold quoteChars
      rw [flatMap_append, append_assoc]
      rfl
    rw [hquote, splitOn_append_cons_self_of_not_mem]
    exact not_mem_append (semicolon_not_mem_quoteChars hbefore) (by decide)
  have htrim : trim (quoteChars [';', ','] before ++ ['\\']) =
      quoteChars [';', ','] before ++ ['\\'] := by
    refine Agent.trim_eq_self (fun c hc => ?_) fun c hc => ?_
    · rcases head?_quoteChars hc with rfl | hc | ⟨-, hc⟩
      · rfl
      · refine head_not_whitespace hplain.trimmed ?_
        rw [head?_append, hc]
        rfl
      · cases hc
        rfl
    · rw [getLast?_concat] at hc
      cases hc
      rfl
  unfold orgValue
  rw [hsplit]
  show '\\' ∈ unescape (trim (quoteChars [';', ','] before ++ ['\\']))
  rw [htrim, unescape_append hbackslash]
  exact mem_append_right _ mem_cons_self

theorem readOrg_eq_iff {org : Option Text} (h : ∀ o, org = some o → PlainText o) :
    readOrg org = org ↔ ∀ o, org = some o → o ≠ [] ∧ ';' ∉ o := by
  cases org with
  | none => exact ⟨fun _ => nofun, fun _ => rfl⟩
  | some o =>
    have hplain := h o rfl
    constructor
    · rintro hread _ ⟨⟩
      obtain ⟨o', ho', hvalue⟩ := bind_eq_some_iff.mp hread
      obtain ⟨rfl, hne⟩ := nonEmpty_eq_some.mp ho'
      refine ⟨hne, fun hmem => hplain.noBackslash ?_⟩
      have hbackslash := backslash_mem_orgValue hplain hmem
      unfold orgValue at hbackslash
      rwa [(nonEmpty_eq_some.mp hvalue).1] at hbackslash
    · intro hall
      obtain ⟨hne, hmem⟩ := hall o rfl
      refine bind_eq_some_iff.mpr ⟨o, nonEmpty_eq_some.mpr ⟨rfl, hne⟩, ?_⟩
      exact nonEmpty_eq_some.mpr ⟨orgValue_of_not_mem hplain hmem, hne⟩

theorem bind_nonEmpty_eq_iff {note : Option Text} : note.bind nonEmpty = note ↔ note ≠ some [] := by
  cases note with
  | none => exact ⟨fun _ => nofun, fun _ => rfl⟩
  | some note =>
    rw [bind_some, nonEmpty_eq_some]
    constructor
    · rintro ⟨-, hne⟩ ⟨⟩
      exact hne rfl
    · intro hne
      exact ⟨rfl, fun hnil => hne (congrArg some hnil)⟩

/-! ## Round trip -/

/-- One card is read, with the same values and the same other lines. -/
def Preserved (card : MailContactCard) (cards : List MailContactCard) : Prop :=
  ∃ read, cards = [read] ∧ read.uid = card.uid ∧ read.displayName = card.displayName ∧
    read.emails = card.emails ∧ read.phones = card.phones ∧ read.org = card.org ∧
    read.note = card.note ∧ keptLines read.raw = keptLines card.raw

/-- No value of the card is one that parsing cuts or drops. -/
structure Readable (card : MailContactCard) : Prop where
  uid : ¬"urn:uuid:".toList <+: card.uid
  emails : ∀ email ∈ card.emails, ¬"mailto:".toList <+: email
  phones : ∀ phone ∈ card.phones, phone ≠ [] ∧ ¬"tel:".toList <+: phone
  org : ∀ org, card.org = some org → org ≠ [] ∧ ';' ∉ org
  note : card.note ≠ some []

theorem plainText_of_all
    (h : (s.all fun c => c != '\\' && !isControl c) = true) (htrim : trim s = s) : PlainText s := by
  rw [all_eq_true] at h
  refine ⟨fun hmem => ?_, fun c hc => ?_, htrim⟩
  · exact absurd (h _ hmem) (by decide)
  · exact Bool.not_eq_true' _ ▸ (Bool.and_eq_true_iff.mp (h c hc)).2

/-- Noon of the first day of a year. -/
def newYear : Stamp where
  text := "20260101T120000Z".toList
  digits := fun c hc => by
    have hall : "20260101T120000Z".toList.all fun c => "0123456789TZ+-".toList.contains c := rfl
    exact contains_iff_mem.mp (all_eq_true.mp hall c hc)

/-- A card with separators in its note, and another line. -/
def separators : MailContactCard where
  uid := "1".toList
  displayName := "Ann".toList
  note := some "a;b,c:\"d\"".toList
  raw := some "BEGIN:VCARD\nX-A:1\nFN:B\nEND:VCARD\n".toList

theorem separators_editable : Editable separators where
  uid := plainText_of_all (by decide) (by decide)
  displayName := plainText_of_all (by decide) (by decide)
  named := by decide
  emails := fun _ h => absurd h not_mem_nil
  distinct := nodup_nil
  phones := fun _ h => absurd h not_mem_nil
  org := nofun
  note := by
    rintro _ ⟨⟩
    exact plainText_of_all (by decide) (by decide)

/-- A card whose organisation has a semicolon. -/
def semicolonOrg : MailContactCard where
  uid := "1".toList
  displayName := "Ann".toList
  org := some "A;B".toList

theorem semicolonOrg_editable : Editable semicolonOrg where
  uid := plainText_of_all (by decide) (by decide)
  displayName := plainText_of_all (by decide) (by decide)
  named := by decide
  emails := fun _ h => absurd h not_mem_nil
  distinct := nodup_nil
  phones := fun _ h => absurd h not_mem_nil
  org := by
    rintro _ ⟨⟩
    exact plainText_of_all (by decide) (by decide)
  note := nofun

end Taomni.Mail
