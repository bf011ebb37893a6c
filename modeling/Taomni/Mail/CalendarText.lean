import Taomni.Common.Utf8
import Taomni.Mail.VCard

/-!
# Escaped and folded texts of an invitation

Reference: `escape`, `unescape`, `fold` and `unfold` of `src-tauri/src/mail/calendar.rs`.

The replacements of `unescape` look for a backslash and a letter wherever they are, so the second of two
backslashes is taken for the start of a line break if an `n` comes next. What comes back is the text with
the `n` and `N` after its own backslashes read as line breaks.
-/

namespace Taomni.Mail

open List

/-! ## Escapes -/

/-- A text with every `n` and `N` after a backslash read as a line break. -/
def lineBreaks : Text → Text
  | c :: d :: rest =>
    if c = '\\' ∧ (d = 'n' ∨ d = 'N') then c :: '\n' :: lineBreaks rest else c :: lineBreaks (d :: rest)
  | rest => rest

variable {c : Char}

/-- A letter that the replacement leaves alone. -/
theorem replacePair_cons {a b d : Char} {text : Text} (h : d = a → text.head? ≠ some b) :
    replacePair a b c (d :: text) = d :: replacePair a b c text := by
  cases text with
  | nil => rfl
  | cons e text => rw [replacePair, if_neg fun hpair => h hpair.1 (congrArg some hpair.2)]

theorem replacePair_cons_of_ne {a b d : Char} (h : d ≠ a) (text : Text) :
    replacePair a b c (d :: text) = d :: replacePair a b c text :=
  replacePair_cons fun heq => absurd heq h

theorem replacePair_pair (a b c : Char) (text : Text) :
    replacePair a b c (a :: b :: text) = c :: replacePair a b c text := by
  rw [replacePair, if_pos ⟨rfl, rfl⟩]

/-- What a replaced text starts with. -/
theorem head?_replacePair {a b d : Char} {text : Text} (h : (replacePair a b c text).head? = some d) :
    d = c ∨ text.head? = some d := by
  match text with
  | [] => cases h
  | [e] => exact .inr h
  | e :: f :: text =>
    rw [replacePair] at h
    split at h
    · exact .inl (Option.some.inj h).symm
    · exact .inr h

theorem escape_cons (c : Char) (s : Text) : escape (c :: s) = escape [c] ++ escape s := by
  unfold escape replaceChar
  simp only [flatMap_cons, flatMap_append, flatMap_nil, append_nil]

/-- What `escape` writes for a letter. -/
theorem escape_singleton (c : Char) : escape [c] =
    if c = '\\' ∨ c = ';' ∨ c = ',' then ['\\', c] else if c = '\n' then ['\\', 'n'] else [c] := by
  by_cases hbackslash : c = '\\'
  · subst hbackslash
    rfl
  by_cases hsemicolon : c = ';'
  · subst hsemicolon
    rfl
  by_cases hcomma : c = ','
  · subst hcomma
    rfl
  by_cases hnewline : c = '\n'
  · subst hnewline
    rfl
  rw [if_neg (by rw [not_or, not_or]; exact ⟨hbackslash, hsemicolon, hcomma⟩), if_neg hnewline]
  unfold escape replaceChar
  simp only [flatMap_cons, flatMap_nil, append_nil, if_neg hbackslash, if_neg hsemicolon,
    if_neg hcomma, if_neg hnewline]

theorem unescape_cons (h : c ≠ '\\') (text : Text) : unescape (c :: text) = c :: unescape text := by
  unfold unescape
  rw [replacePair_cons_of_ne h, replacePair_cons_of_ne h, replacePair_cons_of_ne h,
    replacePair_cons_of_ne h, replacePair_cons_of_ne h]

/-- A backslash and a letter that is not looked for. -/
theorem replacePair_other {b d : Char} (hb : d ≠ b) (hd : d ≠ '\\') (text : Text) :
    replacePair '\\' b c ('\\' :: d :: text) = '\\' :: d :: replacePair '\\' b c text := by
  have hfirst : replacePair '\\' b c ('\\' :: d :: text) = '\\' :: replacePair '\\' b c (d :: text) :=
    replacePair_cons fun _ h => hb (Option.some.inj h)
  rw [hfirst, replacePair_cons_of_ne hd]

variable (text : Text)

theorem unescape_semicolon : unescape ('\\' :: ';' :: text) = ';' :: unescape text := by
  unfold unescape
  rw [replacePair_other (by decide) (by decide), replacePair_other (by decide) (by decide),
    replacePair_other (by decide) (by decide), replacePair_pair, replacePair_cons_of_ne (by decide)]

theorem unescape_comma : unescape ('\\' :: ',' :: text) = ',' :: unescape text := by
  unfold unescape
  rw [replacePair_other (by decide) (by decide), replacePair_other (by decide) (by decide),
    replacePair_pair, replacePair_cons_of_ne (by decide), replacePair_cons_of_ne (by decide)]

theorem unescape_newline : unescape ('\\' :: 'n' :: text) = '\n' :: unescape text := by
  unfold unescape
  rw [replacePair_pair, replacePair_cons_of_ne (by decide), replacePair_cons_of_ne (by decide),
    replacePair_cons_of_ne (by decide), replacePair_cons_of_ne (by decide)]

/-- Every letter but the backslash comes back, whatever follows. -/
theorem unescape_escape_letter (h : c ≠ '\\') (text : Text) :
    unescape (escape [c] ++ text) = c :: unescape text := by
  rw [escape_singleton]
  split
  · next hc =>
    rcases hc with hc | rfl | rfl
    · exact absurd hc h
    · exact unescape_semicolon text
    · exact unescape_comma text
  · split
    · next hc =>
      rw [hc]
      exact unescape_newline text
    · exact unescape_cons h text

/-- The second backslash is taken by the letter after it. -/
theorem unescape_backslash_break (h : c = 'n' ∨ c = 'N') (text : Text) :
    unescape ('\\' :: '\\' :: c :: text) = '\\' :: '\n' :: unescape text := by
  have hkeep (b d : Char) (hb : '\\' ≠ b) (text : Text) :
      replacePair '\\' b d ('\\' :: '\\' :: text) = '\\' :: replacePair '\\' b d ('\\' :: text) :=
    replacePair_cons fun _ h => hb (Option.some.inj h)
  unfold unescape
  rcases h with rfl | rfl
  · rw [hkeep _ _ (by decide), replacePair_pair, replacePair_other (by decide) (by decide),
      replacePair_other (by decide) (by decide), replacePair_other (by decide) (by decide),
      replacePair_other (by decide) (by decide)]
  · rw [hkeep _ _ (by decide), replacePair_other (by decide) (by decide), hkeep _ _ (by decide),
      replacePair_pair, replacePair_other (by decide) (by decide),
      replacePair_other (by decide) (by decide), replacePair_other (by decide) (by decide)]

/-- Two backslashes are one if no letter that is looked for comes next. -/
theorem unescape_backslash {text : Text} (h : ∀ c ∈ ['n', 'N', ',', ';'], text.head? ≠ some c) :
    unescape ('\\' :: '\\' :: text) = '\\' :: unescape text := by
  obtain ⟨hn, h⟩ := forall_mem_cons.mp h
  obtain ⟨hN, h⟩ := forall_mem_cons.mp h
  obtain ⟨hcomma, h⟩ := forall_mem_cons.mp h
  have hsemicolon := forall_mem_singleton.mp h
  have hkeep (b d : Char) {text : Text} (hb : '\\' ≠ b) (htext : text.head? ≠ some b) :
      replacePair '\\' b d ('\\' :: '\\' :: text) = '\\' :: '\\' :: replacePair '\\' b d text := by
    have hfirst : replacePair '\\' b d ('\\' :: '\\' :: text)
        = '\\' :: replacePair '\\' b d ('\\' :: text) := replacePair_cons fun _ h => hb (Option.some.inj h)
    rw [hfirst, replacePair_cons fun _ => htext]
  -- a replacement only brings line breaks and its own letter to the front
  have hhead {b d e : Char} {text : Text} (he : e ≠ d) (htext : text.head? ≠ some e) :
      (replacePair '\\' b d text).head? ≠ some e :=
    fun h => (head?_replacePair h).elim he htext
  unfold unescape
  rw [hkeep _ _ (by decide) hn, hkeep _ _ (by decide) (hhead (by decide) hN),
    hkeep _ _ (by decide) (hhead (by decide) (hhead (by decide) hcomma)),
    hkeep _ _ (by decide) (hhead (by decide) (hhead (by decide) (hhead (by decide) hsemicolon))),
    replacePair_pair]

/-- What an escaped text starts with. -/
theorem head?_escape {s : Text} (h : (escape s).head? = some c) : c ≠ ',' ∧ c ≠ ';' ∧
    (c = 'n' ∨ c = 'N' → s.head? = some c) := by
  cases s with
  | nil => cases h
  | cons d s =>
    rw [escape_cons, escape_singleton] at h
    split at h
    · cases h
      exact ⟨by decide, by decide, fun h => absurd h (by decide)⟩
    · next hd =>
      obtain ⟨-, hd⟩ := not_or.mp hd
      obtain ⟨hsemicolon, hcomma⟩ := not_or.mp hd
      split at h
      · cases h
        exact ⟨by decide, by decide, fun h => absurd h (by decide)⟩
      · cases h
        exact ⟨hcomma, hsemicolon, fun _ => rfl⟩

theorem unescape_escape (s : Text) : unescape (escape s) = lineBreaks s := by
  fun_induction lineBreaks s with
  | case1 c d rest hpair ih =>
    obtain ⟨rfl, hd⟩ := hpair
    have hletter : escape [d] = [d] := by rcases hd with rfl | rfl <;> rfl
    rw [escape_cons, escape_cons d, hletter, ← ih]
    exact unescape_backslash_break hd _
  | case2 c d rest hpair ih =>
    rw [escape_cons, ← ih]
    by_cases hc : c = '\\'
    · subst hc
      refine unescape_backslash fun e he hhead => ?_
      obtain ⟨hcomma, hsemicolon, hbreak⟩ := head?_escape hhead
      have hd : e = 'n' ∨ e = 'N' → False := fun h =>
        hpair ⟨rfl, by rw [Option.some.inj (hbreak h)]; exact h⟩
      simp only [mem_cons, not_mem_nil, or_false] at he
      rcases he with h | h | h | h
      · exact hd (.inl h)
      · exact hd (.inr h)
      · exact hcomma h
      · exact hsemicolon h
    · exact unescape_escape_letter hc _
  | case3 s hshort =>
    match s, hshort with
    | [], _ => rfl
    | [c], _ =>
      rw [escape_cons]
      by_cases hc : c = '\\'
      · subst hc
        rfl
      · exact unescape_escape_letter hc _
    | c :: d :: rest, hshort => exact absurd rfl (hshort c d rest)

/-- A backslash with an `n` or an `N` after it. -/
def HasBreakPair (s : Text) : Prop := ['\\', 'n'] <:+: s ∨ ['\\', 'N'] <:+: s

theorem hasBreakPair_cons {d : Char} {rest : Text} : HasBreakPair (c :: d :: rest)
    ↔ (c = '\\' ∧ (d = 'n' ∨ d = 'N')) ∨ HasBreakPair (d :: rest) := by
  unfold HasBreakPair
  have hcons (word : Text) : word <:+: c :: d :: rest ↔ word <+: c :: d :: rest ∨ word <:+: d :: rest :=
    infix_cons_iff
  rw [hcons, hcons]
  simp only [cons_prefix_cons, nil_prefix, and_true]
  constructor
  · rintro ((⟨rfl, rfl⟩ | h) | (⟨rfl, rfl⟩ | h))
    · exact .inl ⟨rfl, .inl rfl⟩
    · exact .inr (.inl h)
    · exact .inl ⟨rfl, .inr rfl⟩
    · exact .inr (.inr h)
  · rintro (⟨rfl, rfl | rfl⟩ | h | h)
    · exact .inl (.inl ⟨rfl, rfl⟩)
    · exact .inr (.inl ⟨rfl, rfl⟩)
    · exact .inl (.inr h)
    · exact .inr (.inr h)

theorem lineBreaks_eq_self_iff (s : Text) : lineBreaks s = s ↔ ¬HasBreakPair s := by
  fun_induction lineBreaks s with
  | case1 c d rest hpair ih =>
    refine ⟨fun h => ?_, fun h => absurd (hasBreakPair_cons.mpr (.inl hpair)) h⟩
    have hd : '\n' = d := (List.cons.inj (List.cons.inj h).2).1
    rcases hpair.2 with rfl | rfl <;> exact absurd hd (by decide)
  | case2 c d rest hpair ih =>
    rw [cons_inj_right, ih, hasBreakPair_cons, not_or]
    exact (and_iff_right hpair).symm
  | case3 s hshort =>
    refine ⟨fun _ h => ?_, fun _ => rfl⟩
    match s, h, hshort with
    | [], h, _ => exact h.elim (fun h => nomatch h.length_le) fun h => nomatch h.length_le
    | [c], h, _ =>
      exact h.elim (fun h => absurd h.length_le (Nat.not_succ_le_self 1))
        fun h => absurd h.length_le (Nat.not_succ_le_self 1)
    | c :: d :: rest, _, hshort => exact hshort c d rest rfl

/-! ## Folded lines -/

/-- A line to fold: it is not empty, does not continue another one and has no line break. -/
structure ContentLine (line : Text) : Prop where
  start : StartsLine line
  noCarriage : '\r' ∉ line
  noNewline : '\n' ∉ line

/-- The physical lines of a text, without their line ends. -/
def textLinesOf (text : Text) : List Text := (text.splitOn '\n').map stripCarriage

theorem byteLength_foldPieces {count : ℕ} (h : count ≤ 75) (line : Text) :
    count + byteLength (foldPieces count line).1 ≤ 75 ∧
      ∀ piece ∈ (foldPieces count line).2, 1 + byteLength piece ≤ 75 := by
  induction line generalizing count with
  | nil => exact ⟨h, nofun⟩
  | cons c line ih =>
    have hsize := c.utf8Size_le_four
    unfold foldPieces
    split
    · obtain ⟨hfirst, hrest⟩ := ih (show 1 + c.utf8Size ≤ 75 by omega)
      refine ⟨h, forall_mem_cons.mpr ⟨?_, hrest⟩⟩
      rw [byteLength]
      omega
    · obtain ⟨hfirst, hrest⟩ := ih (show count + c.utf8Size ≤ 75 by omega)
      refine ⟨?_, hrest⟩
      rw [byteLength]
      omega

/-- No physical line is longer than 75 octets. -/
theorem byteLength_physicalLines {line piece : Text} (h : piece ∈ physicalLines line) :
    byteLength piece ≤ 75 := by
  obtain ⟨hfirst, hrest⟩ := byteLength_foldPieces (Nat.zero_le 75) line
  rcases mem_cons.mp h with rfl | h
  · omega
  · obtain ⟨piece, hpiece, rfl⟩ := mem_map.mp h
    exact hrest piece hpiece

/-- The folded lines are the physical lines of all of them, one after the other. -/
theorem intercalate_foldLine (lines : List Text) :
    crlf.intercalate (lines.map foldLine) = crlf.intercalate (lines.flatMap physicalLines) := by
  cases lines with
  | nil => rfl
  | cons line lines =>
    have hfolded : (line :: lines).map foldLine ≠ [] := cons_ne_nil _ _
    have hphysical : (line :: lines).flatMap physicalLines ≠ [] := cons_ne_nil _ _
    refine append_cancel_right (?_ : _ ++ crlf = _ ++ crlf)
    rw [crlf_intercalate hfolded, crlf_intercalate hphysical, flatMap_map, flatMap_assoc]
    exact flatMap_congr fun line _ => foldLine_crlf line

theorem stripCarriage_of_not_mem {line : Text} (h : '\r' ∉ line) : stripCarriage line = line :=
  if_neg fun hlast => h (mem_of_getLast? hlast)

/-- A text is read line by line. -/
theorem textLinesOf_intercalate {lines : List Text} (hne : lines ≠ []) (hnewline : ∀ line ∈ lines, '\n' ∉ line)
    (hcarriage : ∀ line ∈ lines, '\r' ∉ line) : textLinesOf (crlf.intercalate lines) = lines := by
  obtain ⟨init, last, rfl⟩ := eq_nil_or_concat' lines |>.resolve_left hne
  obtain ⟨hinit, hlast⟩ := forall_mem_append.mp hnewline
  have htext : crlf.intercalate (init ++ [last]) = written '\n' (withCarriage init) ++ last := by
    refine append_cancel_right (?_ : _ ++ crlf = _ ++ crlf)
    rw [crlf_intercalate hne, flatMap_append, flatMap_singleton, append_assoc]
    refine congrArg (· ++ _) ?_
    unfold written withCarriage crlf
    rw [flatMap_map]
    exact flatMap_congr fun line _ => (append_assoc line ['\r'] ['\n']).symm
  have hwith : ∀ line ∈ withCarriage init, '\n' ∉ line := by
    unfold withCarriage
    rw [forall_mem_map]
    intro line hline hmem
    exact (mem_append.mp hmem).elim (hinit line hline) (by decide)
  rw [textLinesOf, htext, splitOn_written_append hwith (hlast last mem_cons_self), map_append,
    map_singleton, stripCarriage_of_not_mem (hcarriage last (mem_append_right _ mem_cons_self))]
  refine congrArg (· ++ _) ?_
  unfold withCarriage
  rw [map_map]
  exact map_id'' (fun line => stripCarriage_concat line) init

/-- `unfold` looks at a line without the CR at its end. -/
theorem unfoldLines_eq (hcarriage : ∀ line ∈ textLinesOf text, '\r' ∉ line) :
    unfoldLines text = (textLinesOf text).foldl unfoldLine [] := by
  rw [unfoldLines, textLinesOf, foldl_map]
  refine foldl_ext _ _ _ fun lines raw hraw => ?_
  unfold unfoldLine
  rw [stripCarriage_of_not_mem (hcarriage _ (mem_map_of_mem hraw))]

theorem foldl_unfoldLine_withCarriage {pieces : List Text} (h : ∀ piece ∈ pieces, '\r' ∉ piece)
    (lines : List Text) : (withCarriage pieces).foldl unfoldLine lines = pieces.foldl unfoldLine lines := by
  rw [withCarriage, foldl_map]
  refine foldl_ext _ _ _ fun lines piece hpiece => ?_
  unfold unfoldLine
  rw [stripCarriage_concat, stripCarriage_of_not_mem (h piece hpiece)]

variable {lines : List Text}

theorem ContentLine.not_mem_physicalLines {line piece : Text} (h : ContentLine line)
    (hpiece : piece ∈ physicalLines line) : '\r' ∉ piece ∧ '\n' ∉ piece :=
  ⟨fun hmem => (mem_physicalLines hpiece hmem).elim h.noCarriage (by decide),
    newline_not_mem_physicalLines h.noNewline hpiece⟩

theorem ContentLine.foldl_physicalLines {line : Text} (h : ContentLine line) (lines : List Text) :
    (physicalLines line).foldl unfoldLine lines = lines ++ [line] := by
  rw [← foldl_unfoldLine_withCarriage fun piece hpiece => (h.not_mem_physicalLines hpiece).1]
  unfold physicalLines
  rw [foldl_unfoldLine_pieces (startsLine_physicalLines h.start), foldPieces_join]

/-- The text of folded lines is read as their physical lines. -/
theorem textLinesOf_foldLine (hne : lines ≠ []) (h : ∀ line ∈ lines, ContentLine line) :
    textLinesOf (crlf.intercalate (lines.map foldLine)) = lines.flatMap physicalLines := by
  have hphysical (piece : Text) (hpiece : piece ∈ lines.flatMap physicalLines) : '\r' ∉ piece ∧ '\n' ∉ piece := by
    obtain ⟨line, hline, hpiece⟩ := mem_flatMap.mp hpiece
    exact (h line hline).not_mem_physicalLines hpiece
  rw [intercalate_foldLine]
  refine textLinesOf_intercalate ?_ (fun piece hpiece => (hphysical piece hpiece).2)
    fun piece hpiece => (hphysical piece hpiece).1
  obtain ⟨line, lines, rfl⟩ := exists_cons_of_ne_nil hne
  exact cons_ne_nil _ _

theorem unfoldLines_foldLine (h : ∀ line ∈ lines, ContentLine line) :
    unfoldLines (crlf.intercalate (lines.map foldLine)) = lines := by
  rcases eq_nil_or_concat' lines with rfl | ⟨init, last, heq⟩
  · rfl
  have hne : lines ≠ [] := heq ▸ append_ne_nil_of_right_ne_nil _ (cons_ne_nil _ _)
  have hread := textLinesOf_foldLine hne h
  have hfold (acc : List Text) : (lines.flatMap physicalLines).foldl unfoldLine acc = acc ++ lines := by
    clear hread heq hne
    induction lines generalizing acc with
    | nil => exact (append_nil acc).symm
    | cons line lines ih =>
      obtain ⟨hline, hlines⟩ := forall_mem_cons.mp h
      rw [flatMap_cons, foldl_append, hline.foldl_physicalLines, ih hlines, append_assoc]
      rfl
  rw [unfoldLines_eq, hread, hfold, nil_append]
  intro piece hpiece
  rw [hread] at hpiece
  obtain ⟨line, hline, hpiece⟩ := mem_flatMap.mp hpiece
  exact ((h line hline).not_mem_physicalLines hpiece).1

/-! ## Octets -/

def utf8 (text : Text) : List UInt8 := text.flatMap String.utf8EncodeChar

/-- The physical lines of an encoded text, without the CR at their ends. -/
def physicalOctets (octets : List UInt8) : List (List UInt8) :=
  (octets.splitOn 10).map fun line => if line.getLast? = some 13 then line.dropLast else line

theorem length_utf8 : (utf8 text).length = byteLength text := by
  induction text with
  | nil => rfl
  | cons c text ih =>
    rw [utf8, flatMap_cons, length_append, String.length_utf8EncodeChar, byteLength]
    exact congrArg _ ih

/-- An octet below 128 is a character of its own. -/
theorem utf8EncodeChar_of_mem {b : UInt8} (hb : b ∈ String.utf8EncodeChar c) (hsmall : b.toNat < 128) :
    String.utf8EncodeChar c = [b] ∧ c.toNat = b.toNat := by
  have hvalue : c.toNat = c.val.toNat := rfl
  rw [String.utf8EncodeChar] at hb ⊢
  split at hb
  · next hone =>
    rw [mem_singleton] at hb
    rw [if_pos hone, hb, UInt8.toNat_ofNat', hvalue]
    exact ⟨rfl, (Nat.mod_eq_of_lt (by omega)).symm⟩
  · next hone =>
    exfalso
    split at hb
    · simp only [mem_cons, not_mem_nil, or_false] at hb
      rcases hb with rfl | rfl <;> rw [UInt8.toNat_ofNat'] at hsmall <;> omega
    · split at hb
      · simp only [mem_cons, not_mem_nil, or_false] at hb
        rcases hb with rfl | rfl | rfl <;> rw [UInt8.toNat_ofNat'] at hsmall <;> omega
      · simp only [mem_cons, not_mem_nil, or_false] at hb
        rcases hb with rfl | rfl | rfl | rfl <;> rw [UInt8.toNat_ofNat'] at hsmall <;> omega

theorem eq_of_mem_utf8EncodeChar {d : Char} {b : UInt8} (hb : b ∈ String.utf8EncodeChar c)
    (hsmall : b.toNat < 128) (hd : d.toNat = b.toNat) : c = d :=
  Char.ext (UInt32.toNat_inj.mp ((utf8EncodeChar_of_mem hb hsmall).2.trans hd.symm))

/-- The octets of a text are split at its line breaks. -/
theorem splitOn_utf8 : (utf8 text).splitOn 10 = (text.splitOn '\n').map utf8 := by
  have hplain {text : Text} (h : '\n' ∉ text) : 10 ∉ utf8 text := by
    intro hmem
    obtain ⟨c, hc, hb⟩ := mem_flatMap.mp hmem
    have heq : c = '\n' := eq_of_mem_utf8EncodeChar hb (by decide) rfl
    exact h (heq ▸ hc)
  induction hlength : text.length using Nat.strong_induction_on generalizing text with
  | _ n ih =>
    by_cases hmem : '\n' ∈ text
    · obtain ⟨front, back, rfl, hfront⟩ := eq_append_cons_of_mem hmem
      have hoctets : utf8 (front ++ '\n' :: back) = utf8 front ++ 10 :: utf8 back := flatMap_append
      rw [length_append, length_cons] at hlength
      rw [hoctets, splitOn_append_cons_self_of_not_mem (hplain hfront),
        splitOn_append_cons_self_of_not_mem hfront, map_cons, ih back.length (by omega) back rfl]
    · rw [splitOn_eq_singleton (hplain hmem), splitOn_eq_singleton hmem, map_singleton]

theorem strip_utf8 (line : Text) :
    (if (utf8 line).getLast? = some 13 then (utf8 line).dropLast else utf8 line) = utf8 (stripCarriage line) := by
  unfold stripCarriage
  rcases eq_nil_or_concat' line with rfl | ⟨init, c, rfl⟩
  · rfl
  rw [getLast?_concat, dropLast_concat]
  have hoctets : utf8 (init ++ [c]) = utf8 init ++ String.utf8EncodeChar c := by
    rw [utf8, flatMap_append, flatMap_singleton]
    rfl
  by_cases hc : c = '\r'
  · subst hc
    have hcarriage : utf8 (init ++ ['\r']) = utf8 init ++ [13] := hoctets
    rw [hcarriage, getLast?_concat, dropLast_concat, if_pos rfl, if_pos rfl]
  · have hlast : (utf8 (init ++ [c])).getLast? ≠ some 13 := by
      intro hlast
      rw [hoctets, getLast?_append_of_ne_nil _ String.utf8EncodeChar_ne_nil] at hlast
      exact hc (eq_of_mem_utf8EncodeChar (mem_of_getLast? hlast) (by decide) rfl)
    rw [if_neg hlast, if_neg fun h => hc (Option.some.inj h)]

theorem physicalOctets_utf8 : physicalOctets (utf8 text) = (textLinesOf text).map utf8 := by
  rw [physicalOctets, splitOn_utf8, textLinesOf, map_map, map_map]
  exact map_congr_left fun line _ => strip_utf8 line

/-! ## What comes back -/

/-- An escaped text comes back if it has no backslash with an `n` or an `N` after it. Folded lines always
come back, and each of their physical lines has at most 75 octets and whole characters. -/
theorem unescape_escape_iff (s : Text) (h : ∀ line ∈ lines, ContentLine line) :
    (unescape (escape s) = s ↔ ¬HasBreakPair s) ∧
      unfoldLines (crlf.intercalate (lines.map foldLine)) = lines ∧
      ∀ octets ∈ physicalOctets (utf8 (crlf.intercalate (lines.map foldLine))),
        octets.length ≤ 75 ∧ ∃ piece, utf8 piece = octets := by
  refine ⟨?_, unfoldLines_foldLine h, fun octets hoctets => ?_⟩
  · rw [unescape_escape, lineBreaks_eq_self_iff]
  rw [physicalOctets_utf8] at hoctets
  obtain ⟨piece, hpiece, rfl⟩ := mem_map.mp hoctets
  refine ⟨?_, piece, rfl⟩
  rw [length_utf8]
  by_cases hne : lines = []
  · subst hne
    rw [mem_singleton.mp hpiece]
    exact Nat.zero_le _
  · rw [textLinesOf_foldLine hne h] at hpiece
    obtain ⟨line, -, hpiece⟩ := mem_flatMap.mp hpiece
    exact byteLength_physicalLines hpiece

/-- Two lines, of which the first is folded before a character of three octets. -/
theorem unescape_escape_iff_folded :
    unfoldLines (crlf.intercalate ([List.replicate 74 'x' ++ ['€'], ['y']].map foldLine))
      = [List.replicate 74 'x' ++ ['€'], ['y']] :=
  (unescape_escape_iff [] (forall_mem_cons.mpr
    ⟨⟨⟨'x', _, rfl, rfl⟩, by decide, by decide⟩,
      forall_mem_singleton.mpr ⟨⟨'y', [], rfl, rfl⟩, by decide, by decide⟩⟩)).2.1

/-- `C:\new` comes back with a line break in it. -/
theorem unescape_escape_wrong : unescape (escape "C:\\new".toList) = "C:\\\new".toList ∧
      ¬∀ s : Text, '\r' ∉ s → unescape (escape s) = s :=
  ⟨by decide, fun h => absurd (h "C:\\new".toList (by decide)) (by decide)⟩

end Taomni.Mail
