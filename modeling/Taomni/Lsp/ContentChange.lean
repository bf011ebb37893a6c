import Taomni.Lsp.Position

/-!
# Incremental content changes

Reference: `buildIncrementalContentChange` of `components/editor/workspace/lspTextEdits.ts`.

The change replaces what stands between the common prefix and the common suffix of the two texts,
both moved off surrogate pairs. `buildIncrementalContentChange_exact_iff` says for which texts the
server that applies it arrives at the new text.
-/

namespace Taomni.Lsp

open JsString (cr lf)

def isHighSurrogate (c : UInt16) : Bool := 0xd800 ≤ c && c ≤ 0xdbff

def isLowSurrogate (c : UInt16) : Bool := 0xdc00 ≤ c && c ≤ 0xdfff

def offsetSplitsSurrogatePair (text : JsString) (offset : ℕ) : Bool :=
  0 < offset && offset < text.length && text[offset - 1]?.any isHighSurrogate
    && text[offset]?.any isLowSurrogate

/-- `LspDocumentContentChange`. -/
structure LspDocumentContentChange where
  range : LspRange
  rangeLength : ℕ
  text : JsString
deriving DecidableEq, Repr

/-- `start`: the end of the common prefix, moved off a surrogate pair. -/
def changeStart (previousText nextText : JsString) : ℕ :=
  let start := commonPrefixLength previousText nextText
  if offsetSplitsSurrogatePair previousText start || offsetSplitsSurrogatePair nextText start then
    start - 1
  else start

/-- `previousEnd` and `nextEnd`: the starts of the common suffix, moved off a surrogate pair. -/
def changeEnds (previousText nextText : JsString) (start : ℕ) : ℕ × ℕ :=
  let suffix := commonSuffixLength previousText nextText start
  let previousEnd := previousText.length - suffix
  let nextEnd := nextText.length - suffix
  if offsetSplitsSurrogatePair previousText previousEnd
      || offsetSplitsSurrogatePair nextText nextEnd then
    (previousEnd + 1, nextEnd + 1)
  else (previousEnd, nextEnd)

def buildIncrementalContentChange (previousText nextText : JsString) :
    Option LspDocumentContentChange :=
  if previousText = nextText then none
  else
    let start := changeStart previousText nextText
    let (previousEnd, nextEnd) := changeEnds previousText nextText start
    let startPosition := positionFromStringOffset previousText start
    some {
      range :=
        { start := startPosition
          stop := advanceStringPosition previousText startPosition start previousEnd }
      rangeLength := previousEnd - start
      text := slice nextText start nextEnd }

/-! ## The boundaries of the change -/

variable {previousText nextText : JsString}

theorem offsetSplitsSurrogatePair_iff {text : JsString} {offset : ℕ} :
    offsetSplitsSurrogatePair text offset = true ↔ 0 < offset ∧ offset < text.length ∧
      (∃ c, text[offset - 1]? = some c ∧ isHighSurrogate c = true) ∧
      ∃ c, text[offset]? = some c ∧ isLowSurrogate c = true := by
  simp [offsetSplitsSurrogatePair, Option.any_eq_true, and_assoc]

/-- A surrogate is no part of a line break. -/
theorem not_splitsCrlf_of_surrogate {text : JsString} {offset : ℕ} {c : UInt16}
    (hc : text[offset]? = some c) (hsurrogate : isHighSurrogate c = true ∨ isLowSurrogate c = true) :
    ¬ SplitsCrlf text offset ∧ ¬ SplitsCrlf text (offset + 1) := by
  constructor
  · rintro ⟨-, -, hlf⟩
    obtain rfl := Option.some.inj (hc.symm.trans hlf)
    exact absurd hsurrogate (by decide)
  · rintro ⟨-, hcr, -⟩
    rw [Nat.add_sub_cancel] at hcr
    obtain rfl := Option.some.inj (hc.symm.trans hcr)
    exact absurd hsurrogate (by decide)

/-- The texts agree on the common prefix. -/
theorem getElem?_eq_of_lt_commonPrefixLength {i : ℕ}
    (h : i < commonPrefixLength previousText nextText) : nextText[i]? = previousText[i]? := by
  have htake := take_commonPrefixLength previousText nextText
  rw [← List.getElem?_take_of_lt h, ← htake, List.getElem?_take_of_lt h]

/-- Where the start is moved, the texts share a high surrogate in front of it. -/
theorem changeStart_cases (previousText nextText : JsString) :
    changeStart previousText nextText = commonPrefixLength previousText nextText ∨
      changeStart previousText nextText + 1 = commonPrefixLength previousText nextText ∧
        ∃ c, previousText[changeStart previousText nextText]? = some c ∧
          nextText[changeStart previousText nextText]? = some c ∧ isHighSurrogate c = true := by
  rw [changeStart]
  split
  · next h =>
    right
    rw [Bool.or_eq_true, offsetSplitsSurrogatePair_iff, offsetSplitsSurrogatePair_iff] at h
    rcases h with ⟨hpos, -, ⟨c, hc, hhigh⟩, -⟩ | ⟨hpos, -, ⟨c, hc, hhigh⟩, -⟩
    · have hsame := getElem?_eq_of_lt_commonPrefixLength (Nat.sub_lt hpos Nat.one_pos)
      exact ⟨Nat.sub_add_cancel hpos, c, hc, hsame.trans hc, hhigh⟩
    · have hsame := getElem?_eq_of_lt_commonPrefixLength (Nat.sub_lt hpos Nat.one_pos)
      exact ⟨Nat.sub_add_cancel hpos, c, hsame.symm.trans hc, hc, hhigh⟩
  · exact .inl rfl

/-- Where the ends are moved, `previousText` has a low surrogate at the start of the common
suffix. -/
theorem changeEnds_cases (previousText nextText : JsString) (start : ℕ) :
    let suffix := commonSuffixLength previousText nextText start
    let ends := changeEnds previousText nextText start
    (ends = (previousText.length - suffix, nextText.length - suffix)) ∨
      ends = (previousText.length - suffix + 1, nextText.length - suffix + 1) ∧ 0 < suffix ∧
        ∃ c, previousText[previousText.length - suffix]? = some c ∧ isLowSurrogate c = true := by
  intro suffix ends
  obtain ⟨hprevious, hnext⟩ := commonSuffixLength_le previousText nextText start
  by_cases hsplit : (offsetSplitsSurrogatePair previousText (previousText.length - suffix)
      || offsetSplitsSurrogatePair nextText (nextText.length - suffix)) = true
  · refine .inr ⟨if_pos hsplit, ?_⟩
    rw [Bool.or_eq_true, offsetSplitsSurrogatePair_iff, offsetSplitsSurrogatePair_iff] at hsplit
    rcases hsplit with ⟨-, hlt, -, hlow⟩ | ⟨-, hlt, -, c, hc, hlow⟩
    · exact ⟨by omega, hlow⟩
    · have hpos : 0 < suffix := by omega
      have hdrop := drop_eq_of_le_commonSuffixLength (by omega) (by omega) (le_refl suffix)
      have hget := congrArg (·[0]?) hdrop
      simp only [List.getElem?_drop, Nat.add_zero] at hget
      exact ⟨hpos, c, hget.trans hc, hlow⟩
  · exact .inl (if_neg hsplit)

/-- What the boundaries of the change satisfy. -/
structure Boundaries (previousText nextText : JsString) (start previousEnd nextEnd : ℕ) : Prop where
  start_le : start ≤ previousEnd
  start_le' : start ≤ nextEnd
  previousEnd_le : previousEnd ≤ previousText.length
  nextEnd_le : nextEnd ≤ nextText.length
  take_eq : previousText.take start = nextText.take start
  drop_eq : previousText.drop previousEnd = nextText.drop nextEnd

theorem boundaries (previousText nextText : JsString) : let start := changeStart previousText nextText
    let ends := changeEnds previousText nextText start
    Boundaries previousText nextText start ends.1 ends.2 := by
  intro start ends
  have hstart : start ≤ commonPrefixLength previousText nextText := by
    rcases changeStart_cases previousText nextText with h | ⟨h, -⟩
    · exact h.le
    · exact (Nat.le_succ _).trans h.le
  obtain ⟨hpreviousLe, hnextLe⟩ := commonPrefixLength_le previousText nextText
  obtain ⟨hpreviousSuffix, hnextSuffix⟩ := commonSuffixLength_le previousText nextText start
  have htake := take_eq_of_le_commonPrefixLength hstart
  rcases changeEnds_cases previousText nextText start with hends | ⟨hends, hpos, -⟩
  · have hdrop := drop_eq_of_le_commonSuffixLength (hstart.trans hpreviousLe)
      (hstart.trans hnextLe) (le_refl (commonSuffixLength previousText nextText start))
    have h1 : ends.1 = _ := congrArg Prod.fst hends
    have h2 : ends.2 = _ := congrArg Prod.snd hends
    rw [h1, h2]
    exact ⟨by omega, by omega, Nat.sub_le _ _, Nat.sub_le _ _, htake, hdrop⟩
  · have hdrop := drop_eq_of_le_commonSuffixLength (hstart.trans hpreviousLe)
      (hstart.trans hnextLe) (Nat.sub_le (commonSuffixLength previousText nextText start) 1)
    have h1 : ends.1 = previousText.length
        - (commonSuffixLength previousText nextText start - 1) := by
      rw [congrArg Prod.fst hends]
      show _ - _ + 1 = _
      omega
    have h2 : ends.2 = nextText.length
        - (commonSuffixLength previousText nextText start - 1) := by
      rw [congrArg Prod.snd hends]
      show _ - _ + 1 = _
      omega
    rw [h1, h2]
    exact ⟨by omega, by omega, Nat.sub_le _ _, Nat.sub_le _ _, htake, hdrop⟩

/-! ## CRLF at the boundaries -/

/-- Moving the start off a surrogate pair does not move it into or out of a CRLF. -/
theorem splitsCrlf_changeStart_iff : SplitsCrlf previousText (changeStart previousText nextText) ↔
      SplitsCrlf previousText (commonPrefixLength previousText nextText) := by
  rcases changeStart_cases previousText nextText with h | ⟨h, c, hc, -, hhigh⟩
  · rw [h]
  · obtain ⟨hstart, hprefix⟩ := not_splitsCrlf_of_surrogate hc (.inl hhigh)
    rw [h] at hprefix
    exact iff_of_false hstart hprefix

/-- Nor does moving the end, and the common suffix may as well be measured from the common
prefix. -/
theorem splitsCrlf_changeEnds_iff : SplitsCrlf previousText (changeEnds previousText nextText
        (changeStart previousText nextText)).1 ↔
      SplitsCrlf previousText (previousText.length - commonSuffixLength previousText nextText
        (commonPrefixLength previousText nextText)) := by
  have hmoved : SplitsCrlf previousText (changeEnds previousText nextText
        (changeStart previousText nextText)).1 ↔
      SplitsCrlf previousText (previousText.length - commonSuffixLength previousText nextText
        (changeStart previousText nextText)) := by
    rcases changeEnds_cases previousText nextText (changeStart previousText nextText)
      with h | ⟨h, -, c, hc, hlow⟩
    · rw [h]
    · obtain ⟨hend, hnext⟩ := not_splitsCrlf_of_surrogate hc (.inr hlow)
      rw [h]
      exact iff_of_false hnext hend
  rw [hmoved]
  rcases changeStart_cases previousText nextText with h | ⟨h, c, hc, hc', hhigh⟩
  · rw [h]
  · rw [← h]
    rcases commonSuffixLength_pred hc hc' with hsuffix | ⟨hsuffix, hget⟩
    · rw [hsuffix]
    · obtain ⟨hend, hnext⟩ := not_splitsCrlf_of_surrogate hget (.inl hhigh)
      have hle := (commonSuffixLength_le previousText nextText
        (changeStart previousText nextText)).1
      have heq : previousText.length - commonSuffixLength previousText nextText
          (changeStart previousText nextText) + 1
          = previousText.length - commonSuffixLength previousText nextText
            (changeStart previousText nextText + 1) := by omega
      exact iff_of_false hend (heq ▸ hnext)

/-! ## Exactness -/

/-- What the server relies on: both ends of the range are positions of the old text, `rangeLength`
is their distance, and the replacement gives the new text; no change is sent only for equal texts. -/
def IsExact (previousText nextText : JsString) : Option LspDocumentContentChange → Prop
  | none => previousText = nextText
  | some change => ∃ start stop,
      offsetFromLspPositionInStringStrict previousText change.range.start = some start ∧
      offsetFromLspPositionInStringStrict previousText change.range.stop = some stop ∧
      stop = start + change.rangeLength ∧
      previousText.take start ++ change.text ++ previousText.drop stop = nextText

/-- The change is exact unless one of its ends splits a CRLF of the old text. -/
theorem buildIncrementalContentChange_exact_iff (previousText nextText : JsString) :
    IsExact previousText nextText (buildIncrementalContentChange previousText nextText) ↔
      previousText = nextText ∨ (¬ SplitsCrlf previousText (commonPrefixLength previousText nextText) ∧
          ¬ SplitsCrlf previousText (previousText.length - commonSuffixLength previousText nextText
            (commonPrefixLength previousText nextText))) := by
  rw [buildIncrementalContentChange]
  split
  · next heq => exact iff_of_true heq (.inl heq)
  next hne =>
  rw [or_iff_right hne, ← splitsCrlf_changeStart_iff, ← splitsCrlf_changeEnds_iff]
  have hboundaries := boundaries previousText nextText
  simp only at hboundaries ⊢
  set start := changeStart previousText nextText
  set ends := changeEnds previousText nextText start
  by_cases hstart : SplitsCrlf previousText start
  · refine iff_of_false ?_ fun h => h.1 hstart
    rintro ⟨from', stop, hfrom, -⟩
    rw [hstart.strict_positionFromStringOffset] at hfrom
    cases hfrom
  obtain ⟨line, character, hreads⟩ :=
    exists_reads (hboundaries.start_le.trans hboundaries.previousEnd_le) hstart
  rw [hreads.positionFromStringOffset]
  by_cases hend : SplitsCrlf previousText ends.1
  · refine iff_of_false ?_ fun h => h.2 hend
    rintro ⟨from', stop, hfrom, hstop, hlength, -⟩
    have hfrom' : start = from' := Option.some.inj (hreads.strict.symm.trans hfrom)
    have hstop' : ends.1 + 1 = stop := Option.some.inj
      ((hreads.strict_advanceStringPosition_splits hboundaries.start_le hend).symm.trans hstop)
    have hle := hboundaries.start_le
    have hlength' : stop = from' + (ends.1 - start) := hlength
    omega
  · refine iff_of_true ⟨start, ends.1, hreads.strict, hreads.strict_advanceStringPosition
      hboundaries.start_le hboundaries.previousEnd_le hend, ?_, ?_⟩ ⟨hstart, hend⟩
    · exact (Nat.add_sub_cancel' hboundaries.start_le).symm
    · rw [hboundaries.take_eq, hboundaries.drop_eq]
      exact take_slice_drop nextText hboundaries.start_le'

/-- Removing the CR of a CRLF: the change should end between CR and LF, and takes the LF along. -/
theorem crlf_to_lf_is_not_exact : buildIncrementalContentChange (.ascii "a\r\nb") (.ascii "a\nb")
        = some { range := ⟨⟨0, 1⟩, ⟨1, 0⟩⟩, rangeLength := 1, text := [] } ∧
      ¬ IsExact (.ascii "a\r\nb") (.ascii "a\nb")
        (buildIncrementalContentChange (.ascii "a\r\nb") (.ascii "a\nb")) := by
  have hchange : buildIncrementalContentChange (.ascii "a\r\nb") (.ascii "a\nb")
      = some { range := ⟨⟨0, 1⟩, ⟨1, 0⟩⟩, rangeLength := 1, text := [] } := by
    decide
  have hfrom : offsetFromLspPositionInStringStrict (.ascii "a\r\nb") ⟨0, 1⟩ = some 1 := by
    decide
  have hto : offsetFromLspPositionInStringStrict (.ascii "a\r\nb") ⟨1, 0⟩ = some 3 := by
    decide
  refine ⟨hchange, ?_⟩
  rw [hchange]
  rintro ⟨start, stop, hstart, hstop, hlength, -⟩
  obtain rfl := Option.some.inj (hfrom.symm.trans hstart)
  obtain rfl := Option.some.inj (hto.symm.trans hstop)
  cases hlength

end Taomni.Lsp
