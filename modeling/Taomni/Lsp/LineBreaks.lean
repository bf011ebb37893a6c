import Taomni.Lsp.TextEdits

/-!
# Line breaks of a text

A line starts behind as many line breaks as lines stand before it. Among them are the CR that no LF follows.

Reference: `components/editor/workspace/lspTextEdits.ts`.
-/

namespace Taomni.Lsp

open List
open JsString (cr lf)

/-! ## Tokens -/

def breaks : List Token → ℕ
  | [] => 0
  | .lineBreak _ :: ts => breaks ts + 1
  | .unit _ :: ts => breaks ts

def unitsLength : List Token → ℕ
  | [] => 0
  | t :: ts => t.length + unitsLength ts

/-- The last token is a line break. -/
def EndsLine (ts : List Token) : Prop := ∀ c, ts.getLast? ≠ some (.unit c)

theorem breaks_append (ts us : List Token) : breaks (ts ++ us) = breaks ts + breaks us := by
  induction ts with
  | nil => exact (Nat.zero_add _).symm
  | cons t ts ih =>
    cases t with
    | unit c => exact ih
    | lineBreak crlf =>
      rw [cons_append, breaks, breaks, ih]
      omega

theorem unitsLength_tokens (text : JsString) : unitsLength (tokens text) = text.length := by
  fun_induction tokens text with
  | case1 => rfl
  | case2 c =>
    rw [unitsLength, length_unitToken]
    rfl
  | case3 c d rest hcrlf ih =>
    rw [unitsLength, ih]
    show true.toNat + 1 + rest.length = rest.length + 1 + 1
    rw [Bool.toNat_true]
    omega
  | case4 c d rest hcrlf ih =>
    rw [unitsLength, length_unitToken, ih, length_cons (a := c)]
    omega

variable {ts : List Token}

/-- A line that starts within the first tokens starts before their end. -/
theorem lineStart_lt {line : ℕ} (h : line < breaks ts) (rest : List Token) :
    lineStart (ts ++ rest) line < unitsLength ts := by
  induction ts generalizing line with
  | nil => exact absurd h (Nat.not_lt_zero line)
  | cons t ts ih =>
    cases line with
    | zero =>
      rw [lineStart_zero, unitsLength]
      cases t with
      | unit c => exact Nat.add_pos_left Nat.one_pos _
      | lineBreak crlf => exact Nat.add_pos_left (Nat.succ_pos _) _
    | succ line =>
      cases t with
      | unit c =>
        have hlt := ih h
        rw [cons_append, lineStart, unitsLength]
        exact Nat.add_lt_add_left hlt 1
      | lineBreak crlf =>
        have hlt := ih (Nat.lt_of_succ_lt_succ h)
        rw [cons_append, lineStart, unitsLength]
        exact Nat.add_lt_add_left hlt _

theorem breaks_pos (h : EndsLine ts) (hne : ts ≠ []) : 0 < breaks ts := by
  rcases eq_nil_or_concat ts with rfl | ⟨front, last, rfl⟩
  · exact absurd rfl hne
  · rw [concat_eq_append] at h ⊢
    rw [breaks_append]
    cases last with
    | unit c => exact absurd getLast?_concat (h c)
    | lineBreak crlf => exact Nat.succ_pos _

/-- The line after the last one of the first tokens. -/
theorem lineStart_eq (h : EndsLine ts) (rest : List Token) :
    lineStart (ts ++ rest) (breaks ts) = unitsLength ts := by
  induction ts with
  | nil => exact lineStart_zero rest
  | cons t ts ih =>
    have htail : EndsLine ts := by
      intro c hlast
      cases ts with
      | nil => cases hlast
      | cons u us => exact h c hlast
    cases t with
    | unit c =>
      cases ts with
      | nil => exact absurd rfl (h c)
      | cons u us =>
        have hrest := ih htail
        obtain ⟨n, hn⟩ := Nat.exists_eq_succ_of_ne_zero
          (breaks_pos htail (cons_ne_nil u us)).ne'
        rw [breaks, hn, cons_append, lineStart, ← Nat.succ_eq_add_one, ← hn, hrest]
        rfl
    | lineBreak crlf =>
      rw [breaks, cons_append, lineStart, ih htail]
      rfl

/-! ## Texts that end with an LF -/

theorem tokens_cons {c : UInt16} (hc : c ≠ cr) (text : JsString) :
    tokens (c :: text) = unitToken c :: tokens text := by
  cases text with
  | nil => rfl
  | cons d rest => rw [tokens, if_neg fun hcrlf => hc hcrlf.1]

theorem tokens_lf (text : JsString) : tokens (lf :: text) = .lineBreak false :: tokens text :=
  tokens_cons (by decide) text

theorem tokens_ne_nil {text : JsString} (h : text ≠ []) : tokens text ≠ [] := by
  intro hnil
  have hlength := unitsLength_tokens text
  rw [hnil] at hlength
  exact h (length_eq_zero_iff.mp hlength.symm)

theorem EndsLine.cons {t : Token} {ts : List Token} (h : EndsLine ts)
    (hfirst : ts = [] → ∃ crlf, t = .lineBreak crlf) : EndsLine (t :: ts) := by
  intro c hlast
  cases ts with
  | nil =>
    obtain ⟨crlf, rfl⟩ := hfirst rfl
    cases hlast
  | cons u us => exact h c hlast

theorem endsLine_singleton (crlf : Bool) : EndsLine [.lineBreak crlf] := by
  intro c hlast
  cases hlast

/-- A text is read in two parts where the first one ends with an LF. -/
theorem tokens_append_lf (front rest : JsString) :
    tokens (front ++ lf :: rest) = tokens (front ++ [lf]) ++ tokens rest ∧
      EndsLine (tokens (front ++ [lf])) := by
  fun_induction tokens front with
  | case1 => exact ⟨tokens_lf rest, endsLine_singleton false⟩
  | case2 c =>
    by_cases hc : c = cr
    · rw [hc]
      exact ⟨rfl, endsLine_singleton true⟩
    · rw [singleton_append, singleton_append, tokens_cons hc, tokens_cons hc, tokens_lf]
      exact ⟨rfl, (endsLine_singleton false).cons fun hnil => absurd hnil (cons_ne_nil _ _)⟩
  | case3 c d front hcrlf ih =>
    obtain ⟨rfl, rfl⟩ := hcrlf
    have htokens (text : JsString) : tokens (cr :: lf :: text) = .lineBreak true :: tokens text := rfl
    rw [cons_append, cons_append, cons_append, cons_append, htokens, htokens, ih.1]
    exact ⟨rfl, ih.2.cons fun _ => ⟨true, rfl⟩⟩
  | case4 c d front hcrlf ih =>
    have htokens (text : JsString) : tokens (c :: d :: text) = unitToken c :: tokens (d :: text) := by
      rw [tokens, if_neg hcrlf]
    rw [cons_append, cons_append, cons_append, cons_append, htokens, htokens,
      ← cons_append, ih.1]
    exact ⟨rfl, ih.2.cons fun hnil => absurd hnil (tokens_ne_nil (cons_ne_nil _ _))⟩

/-! ## Characters -/

/-- How many CR of a text no LF follows. -/
def loneReturns : List Char → ℕ
  | [] => 0
  | [c] => if c = '\r' then 1 else 0
  | c :: d :: rest =>
    if c = '\r' ∧ d = '\n' then loneReturns rest
    else (if c = '\r' then 1 else 0) + loneReturns (d :: rest)

theorem utf16Char_lf : utf16Char '\n' = [lf] := by decide

theorem utf16Char_cr : utf16Char '\r' = [cr] := by decide

/-- The code units of other characters are no line breaks. -/
theorem not_break_utf16Char {c : Char} (hcr : c ≠ '\r') (hlf : c ≠ '\n') :
    ∀ u ∈ utf16Char c, u ≠ cr ∧ u ≠ lf := by
  have hne {d : Char} (h : c ≠ d) : c.toNat ≠ d.toNat := fun heq => h (Char.toNat_inj.mp heq)
  have hcrNat : c.toNat ≠ 13 := hne hcr
  have hlfNat : c.toNat ≠ 10 := hne hlf
  have hunit {n : ℕ} (hn : n < 65536) (hn13 : n ≠ 13) (hn10 : n ≠ 10) :
      UInt16.ofNat n ≠ cr ∧ UInt16.ofNat n ≠ lf := by
    have hval : (UInt16.ofNat n).toNat = n := UInt16.toNat_ofNat_of_lt' hn
    refine ⟨fun heq => hn13 ?_, fun heq => hn10 ?_⟩
    · rw [← hval, heq]
      rfl
    · rw [← hval, heq]
      rfl
  have hvalid := toNat_char c
  unfold utf16Char
  split
  · rename_i hplane
    exact forall_mem_singleton.mpr (hunit hplane hcrNat hlfNat)
  · refine forall_mem_cons.mpr ⟨hunit (by omega) (by omega) (by omega), ?_⟩
    exact forall_mem_singleton.mpr (hunit (by omega) (by omega) (by omega))

/-- Other code units add no line break. -/
theorem breaks_append_units {front : JsString} (h : ∀ u ∈ front, u ≠ cr ∧ u ≠ lf) (rest : JsString) :
    breaks (tokens (front ++ rest)) = breaks (tokens rest) := by
  induction front with
  | nil => rfl
  | cons c front ih =>
    obtain ⟨⟨hcr, hlf⟩, hfront⟩ := forall_mem_cons.mp h
    rw [cons_append, tokens_cons hcr, unitToken, if_neg (not_or.mpr ⟨hcr, hlf⟩), breaks, ih hfront]

theorem head?_encodeUtf16 {c : Char} (hlf : c ≠ '\n') (text : List Char) :
    (encodeUtf16 (c :: text)).head? ≠ some lf := by
  intro hhead
  rw [encodeUtf16, flatMap_cons] at hhead
  by_cases hcr : c = '\r'
  · rw [hcr, utf16Char_cr] at hhead
    exact absurd (Option.some.inj hhead) (by decide)
  · have hbreak := not_break_utf16Char hcr hlf
    cases hunits : utf16Char c with
    | nil =>
      unfold utf16Char at hunits
      split at hunits
      · cases hunits
      · cases hunits
    | cons u units =>
      rw [hunits] at hhead hbreak
      exact (hbreak u mem_cons_self).2 (Option.some.inj hhead)

theorem breaks_cr {rest : JsString} (h : rest.head? ≠ some lf) :
    breaks (tokens (cr :: rest)) = breaks (tokens rest) + 1 := by
  cases rest with
  | nil => rfl
  | cons d rest =>
    rw [tokens, if_neg fun hcrlf => h (congrArg some hcrlf.2)]
    rfl

/-- A character that is no CR before an LF. -/
theorem breaks_encodeUtf16_cons {c : Char} {text : List Char}
    (h : c = '\r' → (encodeUtf16 text).head? ≠ some lf) : breaks (tokens (encodeUtf16 (c :: text))) =
      (if c = '\n' then 1 else 0) + (if c = '\r' then 1 else 0) + breaks (tokens (encodeUtf16 text)) := by
  rw [encodeUtf16, flatMap_cons]
  by_cases hcr : c = '\r'
  · rw [hcr, utf16Char_cr, if_neg (by decide), if_pos rfl, Nat.zero_add, Nat.add_comm]
    exact breaks_cr (h hcr)
  · rw [if_neg hcr]
    by_cases hlf : c = '\n'
    · rw [hlf, utf16Char_lf, if_pos rfl, singleton_append, tokens_lf, breaks, Nat.add_comm]
      rfl
    · rw [if_neg hlf, breaks_append_units (not_break_utf16Char hcr hlf), Nat.zero_add]
      rfl

/-- The line breaks of a text are its LF, and its CR that no LF follows. -/
theorem breaks_encodeUtf16 (text : List Char) :
    breaks (tokens (encodeUtf16 text)) = text.count '\n' + loneReturns text := by
  fun_induction loneReturns text with
  | case1 => rfl
  | case2 => rfl
  | case3 c hcr =>
    rw [breaks_encodeUtf16_cons fun heq => absurd heq hcr, if_neg hcr, count_cons, count_nil]
    simp only [beq_iff_eq]
    rw [show breaks (tokens (encodeUtf16 [])) = 0 from rfl]
    omega
  | case4 c d rest hcrlf ih =>
    obtain ⟨rfl, rfl⟩ := hcrlf
    have hunits : encodeUtf16 ('\r' :: '\n' :: rest) = cr :: lf :: encodeUtf16 rest := by
      rw [encodeUtf16, flatMap_cons, flatMap_cons, utf16Char_cr, utf16Char_lf]
      rfl
    have htokens (text : JsString) : tokens (cr :: lf :: text) = .lineBreak true :: tokens text := rfl
    rw [hunits, htokens, breaks, ih, count_cons_of_ne (by decide), count_cons_self]
    omega
  | case5 c d rest hcrlf ih =>
    have hhead : c = '\r' → (encodeUtf16 (d :: rest)).head? ≠ some lf := fun hcr =>
      head?_encodeUtf16 (fun hlf => hcrlf ⟨hcr, hlf⟩) rest
    rw [breaks_encodeUtf16_cons hhead, ih, @count_cons _ _ '\n' c (d :: rest)]
    simp only [beq_iff_eq]
    omega

theorem encodeUtf16_append (a b : List Char) : encodeUtf16 (a ++ b) = encodeUtf16 a ++ encodeUtf16 b :=
  flatMap_append

/-- The line behind some text starts there exactly when that text has no CR alone. -/
theorem lineStart_encodeUtf16_iff {before : List Char}
    (h : before = [] ∨ ∃ front, before = front ++ ['\n']) (rest : List Char) :
    lineStart (tokens (encodeUtf16 (before ++ rest))) (before.count '\n') = (encodeUtf16 before).length ↔
      loneReturns before = 0 := by
  rcases h with rfl | ⟨front, rfl⟩
  · exact iff_of_true (lineStart_zero _) rfl
  have hlf : encodeUtf16 (front ++ ['\n']) = encodeUtf16 front ++ [lf] := by
    rw [encodeUtf16_append]
    rfl
  obtain ⟨hsplit, hends⟩ := tokens_append_lf (encodeUtf16 front) (encodeUtf16 rest)
  have htokens : tokens (encodeUtf16 (front ++ ['\n'] ++ rest)) =
      tokens (encodeUtf16 (front ++ ['\n'])) ++ tokens (encodeUtf16 rest) := by
    rw [encodeUtf16_append, hlf, append_assoc]
    exact hsplit
  have hbreaks := breaks_encodeUtf16 (front ++ ['\n'])
  rw [← hlf] at hends
  rw [htokens, ← unitsLength_tokens (encodeUtf16 (front ++ ['\n']))]
  constructor
  · intro heq
    by_contra hne
    have hlt : (front ++ ['\n']).count '\n' < breaks (tokens (encodeUtf16 (front ++ ['\n']))) := by
      omega
    exact absurd heq (lineStart_lt hlt _).ne
  · intro hzero
    rw [hzero, Nat.add_zero] at hbreaks
    rw [← hbreaks]
    exact lineStart_eq hends _

end Taomni.Lsp
