import Taomni.Save.Normalization
import Taomni.Save.WritersAgree

/-!
# Normalizing a normalized text

Reference: `components/editor/workspace/saveNormalizationPipeline.ts`.

Each text stage is a function that keeps its own results and those of the stages before it: a trimmed
text stays trimmed, and a text with its final newline keeps it when the line endings are rewritten. A
leading byte order mark is an ordinary character to all of them, so taking it or adding it changes
nothing for them either.
-/

namespace Taomni.SaveNormalization

open List
open JsString (lf cr)
open LineEndings
open Save (SaveEol Sha256 eolUnits eolUnits_isEol lfText_eq withoutBom withoutBom_cons withoutBom_of_ne)

/-! ## Line endings -/

theorem normalizeLineEndings_eq (text : JsString) (eol : SaveEol) :
    normalizeLineEndings text eol = writeLines lf (eolUnits eol) (unifyLines cr lf text) := by
  rw [← lfText_eq]
  cases eol with
  | crlf => rfl
  | cr => exact (writeLines_singleton cr _).symm
  | lf => exact (writeLines_self _).symm

theorem normalizeLineEndings_idem (text : JsString) (eol : SaveEol) :
    normalizeLineEndings (normalizeLineEndings text eol) eol = normalizeLineEndings text eol := by
  rw [normalizeLineEndings_eq, normalizeLineEndings_eq, unifyLines_writeLines (by decide)
    (eolUnits_isEol eol) (notMem_unifyLines (by decide) text)]

variable {u : UInt16}

theorem isBreak_iff : isBreak u = true ↔ u = cr ∨ u = lf := by
  simp [isBreak]

theorem isBreak_of_mem_eolUnits {eol : SaveEol} (hu : u ∈ eolUnits eol) : isBreak u = true := by
  cases eol <;> simp only [eolUnits, mem_cons, not_mem_nil, or_false] at hu <;>
    exact isBreak_iff.mpr (by tauto)

/-- A character that is no line break cuts the text in two. -/
theorem normalizeLineEndings_append_cons (hu : isBreak u = false) (a b : JsString)
    (eol : SaveEol) : normalizeLineEndings (a ++ u :: b) eol
      = normalizeLineEndings a eol ++ u :: normalizeLineEndings b eol := by
  have hbreak : ¬ (u = cr ∨ u = lf) := fun h => by rw [isBreak_iff.mpr h] at hu; cases hu
  rw [not_or] at hbreak
  rw [normalizeLineEndings_eq, unifyLines_append (by simpa using hbreak.2),
    unifyLines_cons_of_ne hbreak.1, writeLines_append, writeLines_cons_of_ne hbreak.2,
    normalizeLineEndings_eq, normalizeLineEndings_eq]

/-- The text begins with a line break, or ends, where it did before. -/
theorem all_isBreak_head?_normalizeLineEndings (text : JsString) (eol : SaveEol) :
    (normalizeLineEndings text eol).head?.all isBreak = text.head?.all isBreak := by
  have hwrite : ∀ unified : JsString, (writeLines lf (eolUnits eol) unified).head?.all isBreak
      = unified.head?.all isBreak := by
    rintro (_ | ⟨u, rest⟩)
    · rfl
    by_cases hu : u = lf
    · subst hu
      cases eol <;> rfl
    · rw [writeLines_cons_of_ne hu]
      rfl
  rw [normalizeLineEndings_eq, hwrite]
  fun_cases unifyLines cr lf text with
  | case1 => rfl
  | case2 => rfl
  | case3 u hu => rfl
  | case4 rest => rfl
  | case5 v rest hv => rfl
  | case6 u v rest hu => rfl

/-! ## Trimmed lines -/

theorem trimLineEnds_cons (u : UInt16) (rest : JsString) : trimLineEnds (u :: rest) =
      if isSpaceOrTab u && (trimLineEnds rest).head?.all isBreak then trimLineEnds rest
      else u :: trimLineEnds rest := rfl

theorem length_trimLineEnds_le (text : JsString) : (trimLineEnds text).length ≤ text.length := by
  induction text with
  | nil => exact le_rfl
  | cons u rest ih =>
    rw [trimLineEnds_cons, length_cons]
    split
    · omega
    · rw [length_cons]
      omega

/-- No line of the text ends in a space or tab. -/
def Trimmed (text : JsString) : Prop := trimLineEnds text = text

theorem trimmed_cons_iff {rest : JsString} : Trimmed (u :: rest) ↔
      Trimmed rest ∧ (isSpaceOrTab u && rest.head?.all isBreak) = false := by
  rw [Trimmed, Trimmed, trimLineEnds_cons]
  constructor
  · intro h
    split at h
    · have hlen := length_trimLineEnds_le rest
      rw [h, length_cons] at hlen
      omega
    · next hkeep =>
      obtain ⟨-, hrest⟩ := List.cons.inj h
      rw [hrest] at hkeep
      exact ⟨hrest, Bool.eq_false_iff.mpr hkeep⟩
  · rintro ⟨hrest, hkeep⟩
    rw [hrest, hkeep, if_neg Bool.false_ne_true]

theorem trimmed_trimLineEnds (text : JsString) : Trimmed (trimLineEnds text) := by
  induction text with
  | nil => rfl
  | cons u rest ih =>
    rw [trimLineEnds_cons]
    split
    · exact ih
    · next hkeep => exact trimmed_cons_iff.mpr ⟨ih, Bool.eq_false_iff.mpr hkeep⟩

/-- Line breaks at the end change nothing. -/
theorem trimmed_append_iff {a b : JsString} (hb : ∀ u ∈ b, isBreak u = true) :
    Trimmed (a ++ b) ↔ Trimmed a := by
  induction a with
  | nil =>
    refine iff_of_true ?_ rfl
    induction b with
    | nil => rfl
    | cons u rest ih =>
      refine trimmed_cons_iff.mpr ⟨ih fun v hv => hb v (mem_cons_of_mem u hv), ?_⟩
      rcases isBreak_iff.mp (hb u mem_cons_self) with rfl | rfl <;> rfl
  | cons u a ih =>
    have hhead : (a ++ b).head?.all isBreak = a.head?.all isBreak := by
      cases a with
      | cons v a => rfl
      | nil =>
        cases b with
        | nil => rfl
        | cons v b => exact hb v mem_cons_self
    rw [cons_append, trimmed_cons_iff, trimmed_cons_iff, ih, hhead]

variable {text : JsString}

/-- Rewriting the line endings keeps the lines trimmed. -/
theorem trimmed_normalizeLineEndings (h : Trimmed text) (eol : SaveEol) :
    Trimmed (normalizeLineEndings text eol) := by
  have hunify : ∀ text : JsString, (unifyLines cr lf text).head?.all isBreak
      = text.head?.all isBreak := fun text => by
    have := all_isBreak_head?_normalizeLineEndings text .lf
    rwa [normalizeLineEndings_eq, eolUnits, writeLines_self] at this
  have hwrite : ∀ text : JsString, cr ∉ text → (writeLines lf (eolUnits eol) text).head?.all isBreak
      = text.head?.all isBreak := fun text htext => by
    have := all_isBreak_head?_normalizeLineEndings text eol
    rwa [normalizeLineEndings_eq, unifyLines_of_notMem htext] at this
  have htrimmed : Trimmed (unifyLines cr lf text) := by
    fun_induction unifyLines cr lf text with
    | case1 => rfl
    | case2 => rfl
    | case3 u hu => exact h
    | case4 rest ih =>
      exact trimmed_cons_iff.mpr ⟨ih (trimmed_cons_iff.mp (trimmed_cons_iff.mp h).1).1, rfl⟩
    | case5 v rest hv ih => exact trimmed_cons_iff.mpr ⟨ih (trimmed_cons_iff.mp h).1, rfl⟩
    | case6 u v rest hu ih =>
      obtain ⟨hrest, hkeep⟩ := trimmed_cons_iff.mp h
      exact trimmed_cons_iff.mpr ⟨ih hrest, by rw [hunify]; exact hkeep⟩
  rw [normalizeLineEndings_eq]
  have hunified := notMem_unifyLines (show lf ≠ cr by decide) text
  generalize unifyLines cr lf text = unified at htrimmed hunified ⊢
  induction unified with
  | nil => rfl
  | cons u rest ih =>
    rw [mem_cons, not_or] at hunified
    obtain ⟨hrest, hkeep⟩ := trimmed_cons_iff.mp htrimmed
    have ih := ih hrest hunified.2
    by_cases hu : u = lf
    · rw [writeLines_cons, if_pos hu]
      cases eol with
      | lf => exact trimmed_cons_iff.mpr ⟨ih, rfl⟩
      | cr => exact trimmed_cons_iff.mpr ⟨ih, rfl⟩
      | crlf => exact trimmed_cons_iff.mpr ⟨trimmed_cons_iff.mpr ⟨ih, rfl⟩, rfl⟩
    · rw [writeLines_cons_of_ne hu]
      exact trimmed_cons_iff.mpr ⟨ih, by rw [hwrite rest hunified.2]; exact hkeep⟩

/-! ## The final newline -/

/-- The text is the stripped text and line breaks. -/
theorem exists_finalBreaks (text : JsString) :
    ∃ breaks, (∀ u ∈ breaks, isBreak u = true) ∧ text = stripFinalBreaks text ++ breaks :=
  ⟨text.rtakeWhile isBreak, fun _ hu => mem_rtakeWhile_imp hu,
    (rdropWhile_append_rtakeWhile ..).symm⟩

theorem stripFinalBreaks_append (a : JsString) {b : JsString} (hb : ∀ u ∈ b, isBreak u = true) :
    stripFinalBreaks (a ++ b) = stripFinalBreaks a := by
  induction b using List.reverseRecOn with
  | nil => rw [append_nil]
  | append_singleton b u ih =>
    rw [← append_assoc, stripFinalBreaks, rdropWhile_concat_pos _ _ _ (hb u (by simp))]
    exact ih fun v hv => hb v (mem_append_left _ hv)

theorem stripFinalBreaks_idem (text : JsString) :
    stripFinalBreaks (stripFinalBreaks text) = stripFinalBreaks text :=
  rdropWhile_idempotent isBreak text

/-- A stripped text is empty or ends in a character that is no line break. -/
theorem stripped_cases (h : stripFinalBreaks text = text) :
    text = [] ∨ ∃ a u, text = a ++ [u] ∧ isBreak u = false := by
  rcases eq_nil_or_concat' text with rfl | ⟨a, u, rfl⟩
  · exact .inl rfl
  · refine .inr ⟨a, u, rfl, Bool.eq_false_iff.mpr fun hu => ?_⟩
    rw [stripFinalBreaks, rdropWhile_concat_pos _ _ _ hu] at h
    have hlen := (List.rdropWhile_prefix isBreak a).length_le
    rw [h, length_append, length_singleton] at hlen
    omega

theorem stripFinalBreaks_concat (a : JsString) (hu : isBreak u = false) :
    stripFinalBreaks (a ++ [u]) = a ++ [u] :=
  rdropWhile_concat_neg _ _ _ (by rw [hu]; exact Bool.false_ne_true)

/-- The line endings of a stripped text and of what follows it are rewritten apart. -/
theorem normalizeLineEndings_stripped_append (h : stripFinalBreaks text = text)
    (b : JsString) (eol : SaveEol) : normalizeLineEndings (text ++ b) eol
      = normalizeLineEndings text eol ++ normalizeLineEndings b eol := by
  rcases stripped_cases h with rfl | ⟨a, u, rfl, hu⟩
  · cases eol <;> rfl
  · rw [append_assoc, singleton_append, normalizeLineEndings_append_cons hu,
      normalizeLineEndings_append_cons hu, append_assoc]
    cases eol <;> rfl

theorem stripFinalBreaks_normalizeLineEndings (h : stripFinalBreaks text = text) (eol : SaveEol) :
    stripFinalBreaks (normalizeLineEndings text eol) = normalizeLineEndings text eol := by
  rcases stripped_cases h with rfl | ⟨a, u, rfl, hu⟩
  · cases eol <;> rfl
  · have hend : normalizeLineEndings [] eol = [] := by cases eol <;> rfl
    rw [normalizeLineEndings_append_cons hu, hend, stripFinalBreaks_concat _ hu]

/-- The detected ending is one of the three. -/
theorem detectedEol_eq (text : JsString) : ∃ eol, detectedEol text = eolUnits eol := by
  rw [detectedEol]
  split
  · exact ⟨.crlf, rfl⟩
  · split
    · exact ⟨.cr, rfl⟩
    · exact ⟨.lf, rfl⟩

theorem isBreak_of_mem_detectedEol (hu : u ∈ detectedEol text) : isBreak u = true := by
  obtain ⟨eol, heol⟩ := detectedEol_eq text
  exact isBreak_of_mem_eolUnits (heol ▸ hu)

/-- `\r\n` at the end of a text behind a stripped one is inside it. -/
private theorem crlf_infix_concat_lf (h : stripFinalBreaks text = text) :
    [cr, lf] <:+: text ++ [lf] → [cr, lf] <:+: text := by
  intro hinside
  rcases infix_concat_iff.mp hinside with hend | hinside
  · obtain ⟨front, hfront⟩ := hend
    have hconcat : (front ++ [cr]) ++ [lf] = text ++ [lf] := by rw [← hfront]; simp
    have htext := append_cancel_right hconcat
    rw [← htext, stripFinalBreaks, rdropWhile_concat_pos _ _ _ (by decide)] at h
    have hlen := (List.rdropWhile_prefix isBreak front).length_le
    rw [h, length_append, length_singleton] at hlen
    omega
  · exact hinside

/-- Detection finds the ending it found before behind the stripped text. -/
theorem detectedEol_stripped_append (text : JsString) :
    detectedEol (stripFinalBreaks text ++ detectedEol text) = detectedEol text := by
  obtain ⟨breaks, -, hbreaks⟩ := exists_finalBreaks text
  have hinside : [cr, lf] <:+: stripFinalBreaks text → [cr, lf] <:+: text := fun h => by
    rw [hbreaks]
    exact h.trans (prefix_append ..).isInfix
  have hmem : ∀ u, u ∈ stripFinalBreaks text → u ∈ text := fun u hu => by
    rw [hbreaks]
    exact mem_append_left _ hu
  have hstripped := stripFinalBreaks_idem text
  generalize stripFinalBreaks text = stripped at hinside hmem hstripped
  rw [detectedEol.eq_def text]
  split
  · exact if_pos infix_append_right
  next hcrlf =>
  split
  · next honly =>
    have hlf : lf ∉ stripped ++ [cr] := fun h => by
      rcases mem_append.mp h with h | h
      · exact honly.2 (hmem lf h)
      · exact absurd (mem_singleton.mp h) (by decide)
    rw [detectedEol, if_neg fun h => hlf (h.subset (by simp)), if_pos ⟨by simp, hlf⟩]
  · rw [detectedEol, if_neg fun h => hcrlf (hinside (crlf_infix_concat_lf hstripped h)),
      if_neg fun h => h.2 (by simp)]

/-- Adjusting the final newline, as the pipeline does it. -/
theorem adjustFinalNewline_eq (htext : text ≠ []) (insert : Bool) : adjustFinalNewline text insert none =
      stripFinalBreaks text ++ if insert then detectedEol text else [] := by
  rw [adjustFinalNewline, if_neg (mt length_eq_zero_iff.mp htext)]
  cases insert with
  | true => rfl
  | false => simp

theorem adjustFinalNewline_nil (insert : Bool) : adjustFinalNewline [] insert none = [] := rfl

theorem adjustFinalNewline_idem (text : JsString) (insert : Bool) :
    adjustFinalNewline (adjustFinalNewline text insert none) insert none
      = adjustFinalNewline text insert none := by
  by_cases htext : text = []
  · rw [htext, adjustFinalNewline_nil, adjustFinalNewline_nil]
  rw [adjustFinalNewline_eq htext]
  by_cases hadjusted : stripFinalBreaks text ++ (if insert then detectedEol text else []) = []
  · rw [hadjusted, adjustFinalNewline_nil]
  rw [adjustFinalNewline_eq hadjusted]
  cases insert with
  | false => simp only [Bool.false_eq_true, if_false, append_nil, stripFinalBreaks_idem]
  | true =>
    simp only [if_true]
    rw [stripFinalBreaks_append _ fun u => isBreak_of_mem_detectedEol, stripFinalBreaks_idem,
      detectedEol_stripped_append]

/-- The final newline keeps the lines trimmed. -/
theorem trimmed_adjustFinalNewline (h : Trimmed text) (insert : Bool) :
    Trimmed (adjustFinalNewline text insert none) := by
  by_cases htext : text = []
  · rw [htext]
    rfl
  rw [adjustFinalNewline_eq htext, trimmed_append_iff]
  · obtain ⟨breaks, hbreaks, hsplit⟩ := exists_finalBreaks text
    exact (trimmed_append_iff hbreaks).mp (hsplit ▸ h)
  · intro u hu
    split at hu
    · exact isBreak_of_mem_detectedEol hu
    · cases hu

/-- The ending of a text whose endings were rewritten is the one they were rewritten to. -/
theorem detectedEol_normalizeLineEndings (text : JsString) {stripped : JsString} {eol : SaveEol}
    (h : normalizeLineEndings text eol = stripped ++ eolUnits eol) :
    detectedEol (normalizeLineEndings text eol) = eolUnits eol := by
  have hunified := notMem_unifyLines (show lf ≠ cr by decide) text
  cases eol with
  | lf =>
    have hcr : cr ∉ normalizeLineEndings text .lf := by
      rwa [normalizeLineEndings_eq, eolUnits, writeLines_self]
    rw [detectedEol, if_neg fun hinside => hcr (hinside.subset (by simp)),
      if_neg fun hboth => hcr hboth.1]
    rfl
  | crlf =>
    rw [h, detectedEol, eolUnits, if_pos infix_append_right]
  | cr =>
    have hlf : lf ∉ normalizeLineEndings text .cr := by
      rw [normalizeLineEndings_eq, eolUnits, writeLines_singleton, mem_map]
      rintro ⟨u, -, hu⟩
      split at hu
      · exact absurd hu (by decide)
      · contradiction
    have hcr : cr ∈ normalizeLineEndings text .cr := by
      rw [h]
      exact mem_append_right _ (by decide)
    rw [detectedEol, if_neg fun hinside => hlf (hinside.subset (by simp)), if_pos ⟨hcr, hlf⟩]
    rfl

/-- Rewriting the line endings keeps the final newline adjusted. -/
theorem adjustFinalNewline_normalizeLineEndings {insert : Bool}
    (h : adjustFinalNewline text insert none = text) (eol : SaveEol) :
    adjustFinalNewline (normalizeLineEndings text eol) insert none = normalizeLineEndings text eol := by
  by_cases hnil : normalizeLineEndings text eol = []
  · rw [hnil, adjustFinalNewline_nil]
  have htext : text ≠ [] := fun heq => hnil (by rw [heq]; cases eol <;> rfl)
  rw [adjustFinalNewline_eq htext] at h
  rw [adjustFinalNewline_eq hnil]
  have hstripped := stripFinalBreaks_idem text
  cases insert with
  | false =>
    simp only [Bool.false_eq_true, if_false, append_nil] at h ⊢
    exact stripFinalBreaks_normalizeLineEndings h eol
  | true =>
    simp only [if_true] at h ⊢
    have hending : normalizeLineEndings (detectedEol text) eol = eolUnits eol := by
      obtain ⟨detected, hdetected⟩ := detectedEol_eq text
      rw [hdetected]
      cases detected <;> cases eol <;> rfl
    have hsplit : normalizeLineEndings text eol
        = normalizeLineEndings (stripFinalBreaks text) eol ++ eolUnits eol := by
      conv_lhs => rw [← h]
      rw [normalizeLineEndings_stripped_append hstripped, hending]
    rw [detectedEol_normalizeLineEndings text hsplit, hsplit,
      stripFinalBreaks_append _ fun u => isBreak_of_mem_eolUnits,
      stripFinalBreaks_normalizeLineEndings hstripped]

/-! ## The three text stages -/

/-- The text after the stages from trim to line endings. -/
def normalizedText (style : CodeStyle) (text : JsString) : JsString :=
  let trimmed := if style.trimTrailingWhitespace then trimLineEnds text else text
  let adjusted := match style.insertFinalNewline with
    | some insert => adjustFinalNewline trimmed insert none
    | none => trimmed
  match style.endOfLine with
  | some eol => normalizeLineEndings adjusted eol
  | none => adjusted

/-- Each text stage of the style leaves the text alone. -/
structure Settled (style : CodeStyle) (text : JsString) : Prop where
  trim : style.trimTrailingWhitespace = true → Trimmed text
  finalNewline : ∀ insert ∈ style.insertFinalNewline, adjustFinalNewline text insert none = text
  eol : ∀ eol ∈ style.endOfLine, normalizeLineEndings text eol = text

theorem settled_normalizedText (style : CodeStyle) (text : JsString) :
    Settled style (normalizedText style text) := by
  obtain ⟨trim, insert?, eol?, charset⟩ := style
  rw [normalizedText]
  dsimp only
  generalize htrimmed : (if trim = true then trimLineEnds text else text) = trimmed
  have htrim : trim = true → Trimmed trimmed := fun h => by
    rw [← htrimmed, if_pos h]
    exact trimmed_trimLineEnds text
  cases insert? with
  | none =>
    cases eol? with
    | none => exact ⟨htrim, by simp, by simp⟩
    | some eol =>
      refine ⟨fun h => trimmed_normalizeLineEndings (htrim h) eol, by simp, ?_⟩
      rintro eol ⟨⟩
      exact normalizeLineEndings_idem trimmed eol
  | some insert =>
    have hadjust : ∀ insert' ∈ some insert,
        adjustFinalNewline (adjustFinalNewline trimmed insert none) insert' none
          = adjustFinalNewline trimmed insert none := by
      rintro insert' ⟨⟩
      exact adjustFinalNewline_idem trimmed insert
    cases eol? with
    | none => exact ⟨fun h => trimmed_adjustFinalNewline (htrim h) insert, hadjust, by simp⟩
    | some eol =>
      refine ⟨fun h => trimmed_normalizeLineEndings (trimmed_adjustFinalNewline (htrim h) insert) eol,
        fun insert' h => adjustFinalNewline_normalizeLineEndings (hadjust insert' h) eol, ?_⟩
      rintro eol ⟨⟩
      exact normalizeLineEndings_idem _ eol

variable {style : CodeStyle}

theorem normalizedText_of_settled (h : Settled style text) : normalizedText style text = text := by
  obtain ⟨trim, insert?, eol?, charset⟩ := style
  obtain ⟨htrim, hadjust, heol⟩ := h
  have htrimmed : (if trim = true then trimLineEnds text else text) = text := by
    split
    · next h => exact htrim h
    · rfl
  rw [normalizedText]
  dsimp only
  rw [htrimmed]
  cases insert? with
  | none =>
    cases eol? with
    | none => rfl
    | some eol => exact heol eol rfl
  | some insert =>
    dsimp only
    rw [hadjust insert rfl]
    cases eol? with
    | none => rfl
    | some eol => exact heol eol rfl

/-! ## The byte order mark -/

theorem stripFinalBreaks_cons (hu : isBreak u = false) (text : JsString) :
    stripFinalBreaks (u :: text) = u :: stripFinalBreaks text := by
  obtain ⟨breaks, hbreaks, hsplit⟩ := exists_finalBreaks text
  have hstripped : stripFinalBreaks (u :: stripFinalBreaks text) = u :: stripFinalBreaks text := by
    rcases stripped_cases (stripFinalBreaks_idem text) with hnil | ⟨a, v, hconcat, hv⟩
    · rw [hnil]
      exact stripFinalBreaks_concat [] hu
    · rw [hconcat]
      exact stripFinalBreaks_concat (u :: a) hv
  calc stripFinalBreaks (u :: text)
      = stripFinalBreaks ((u :: stripFinalBreaks text) ++ breaks) := by
        rw [cons_append, ← hsplit]
    _ = u :: stripFinalBreaks text := by rw [stripFinalBreaks_append _ hbreaks, hstripped]

theorem detectedEol_cons (hu : isBreak u = false) (text : JsString) :
    detectedEol (u :: text) = detectedEol text := by
  have hbreak : ¬ (u = cr ∨ u = lf) := fun h => by rw [isBreak_iff.mpr h] at hu; cases hu
  rw [not_or] at hbreak
  have hinside : [cr, lf] <:+: u :: text ↔ [cr, lf] <:+: text := by
    rw [infix_cons_iff, or_iff_right]
    intro hfront
    exact hbreak.1 (cons_prefix_cons.mp hfront).1.symm
  simp only [detectedEol, hinside, mem_cons, Ne.symm hbreak.1, Ne.symm hbreak.2, false_or]

/-- A settled text stays settled when its byte order mark is taken. -/
theorem Settled.of_cons (h : Settled style (0xFEFF :: text)) : Settled style text where
  trim htrim := (trimmed_cons_iff.mp (h.trim htrim)).1
  finalNewline insert hinsert := by
    by_cases htext : text = []
    · rw [htext, adjustFinalNewline_nil]
    have hmarked := h.finalNewline insert hinsert
    rw [adjustFinalNewline_eq (cons_ne_nil _ _), stripFinalBreaks_cons (by decide),
      detectedEol_cons (by decide), cons_append] at hmarked
    rw [adjustFinalNewline_eq htext, (List.cons.inj hmarked).2]
  eol eol heol := by
    have hmarked := h.eol eol heol
    rw [← nil_append (0xFEFF :: text), normalizeLineEndings_append_cons (by decide)] at hmarked
    have hnil : normalizeLineEndings [] eol = [] := by cases eol <;> rfl
    rw [hnil, nil_append, nil_append] at hmarked
    exact (List.cons.inj hmarked).2

/-- A settled text that is not empty stays settled behind a byte order mark. -/
theorem Settled.cons {style : CodeStyle} {text : JsString} (h : Settled style text)
    (htext : text ≠ []) : Settled style (0xFEFF :: text) where
  trim htrim := trimmed_cons_iff.mpr ⟨h.trim htrim, rfl⟩
  finalNewline insert hinsert := by
    have hadjusted := h.finalNewline insert hinsert
    rw [adjustFinalNewline_eq htext] at hadjusted
    rw [adjustFinalNewline_eq (cons_ne_nil _ _), stripFinalBreaks_cons (by decide),
      detectedEol_cons (by decide), cons_append, hadjusted]
  eol eol heol := by
    have hnil : normalizeLineEndings [] eol = [] := by cases eol <;> rfl
    rw [← nil_append (0xFEFF :: text), normalizeLineEndings_append_cons (by decide), hnil,
      nil_append, h.eol eol heol]
    rfl

/-- A character that is no line break is in front of the trimmed text only if it was in front. -/
private theorem trimLineEnds_eq_cons (hu : isBreak u = false) {text rest : JsString}
    (h : trimLineEnds text = u :: rest) : ∃ tail, text = u :: tail ∧ trimLineEnds tail = rest := by
  cases text with
  | nil => cases h
  | cons v tail =>
    rw [trimLineEnds_cons] at h
    split at h
    · next hdrop =>
      rw [h, head?_cons, Option.all_some, hu, Bool.and_false] at hdrop
      cases hdrop
    · obtain ⟨rfl, hrest⟩ := List.cons.inj h
      exact ⟨tail, rfl, hrest⟩

private theorem normalizeLineEndings_eq_cons {text rest : JsString} {eol : SaveEol}
    (h : normalizeLineEndings text eol = 0xFEFF :: rest) :
    ∃ tail, text = 0xFEFF :: tail ∧ normalizeLineEndings tail eol = rest := by
  have hhead : text.head? = some 0xFEFF := by
    have := congrArg List.head? h
    rwa [normalizeLineEndings_eq, head?_cons, head?_writeLines (by decide)
      (by cases eol <;> decide) (by cases eol <;> decide),
      head?_unifyLines (by decide) (by decide)] at this
  obtain ⟨tail, rfl⟩ := List.head?_eq_some_iff.mp hhead
  have hcut := normalizeLineEndings_append_cons (show isBreak 0xFEFF = false by decide) [] tail eol
  have hnil : normalizeLineEndings [] eol = [] := by cases eol <;> rfl
  rw [nil_append, hnil, nil_append, h] at hcut
  exact ⟨tail, rfl, (List.cons.inj hcut).2.symm⟩

private theorem marks_of_append_breaks {text breaks : JsString}
    (hbreaks : ∀ u ∈ breaks, isBreak u = true) (h : [0xFEFF, 0xFEFF] <+: text ++ breaks) :
    [0xFEFF, 0xFEFF] <+: text := by
  have hmark : ¬ [0xFEFF] <+: breaks := fun hfront =>
    absurd (hbreaks 0xFEFF (hfront.subset mem_cons_self)) (by decide)
  rcases text with _ | ⟨u, _ | ⟨v, text⟩⟩
  · exact absurd ((prefix_append [0xFEFF] [0xFEFF]).trans h) hmark
  · obtain ⟨rfl, hrest⟩ := cons_prefix_cons.mp h
    exact absurd hrest hmark
  · obtain ⟨rfl, hrest⟩ := cons_prefix_cons.mp h
    obtain ⟨rfl, -⟩ := cons_prefix_cons.mp hrest
    exact ⟨text, rfl⟩

/-- The text stages put no two byte order marks in front. -/
theorem marks_of_normalizedText
    (h : [0xFEFF, 0xFEFF] <+: normalizedText style text) : [0xFEFF, 0xFEFF] <+: text := by
  have htrim : ∀ text : JsString, [0xFEFF, 0xFEFF] <+: trimLineEnds text →
      [0xFEFF, 0xFEFF] <+: text := by
    rintro text ⟨rest, hrest⟩
    obtain ⟨tail, rfl, htail⟩ := trimLineEnds_eq_cons (by decide) hrest.symm
    obtain ⟨tail, rfl, -⟩ := trimLineEnds_eq_cons (by decide) htail
    exact ⟨tail, rfl⟩
  have hadjust : ∀ (text : JsString) (insert : Bool),
      [0xFEFF, 0xFEFF] <+: adjustFinalNewline text insert none → [0xFEFF, 0xFEFF] <+: text := by
    intro text insert hfront
    by_cases htext : text = []
    · rw [htext] at hfront ⊢
      exact hfront
    rw [adjustFinalNewline_eq htext] at hfront
    obtain ⟨breaks, -, hsplit⟩ := exists_finalBreaks text
    rw [hsplit]
    refine (marks_of_append_breaks (fun u hu => ?_) hfront).trans (prefix_append ..)
    split at hu
    · exact isBreak_of_mem_detectedEol hu
    · cases hu
  have heol : ∀ (text : JsString) (eol : SaveEol),
      [0xFEFF, 0xFEFF] <+: normalizeLineEndings text eol → [0xFEFF, 0xFEFF] <+: text := by
    rintro text eol ⟨rest, hrest⟩
    obtain ⟨tail, rfl, htail⟩ := normalizeLineEndings_eq_cons hrest.symm
    obtain ⟨tail, rfl, -⟩ := normalizeLineEndings_eq_cons htail
    exact ⟨tail, rfl⟩
  obtain ⟨trim, insert?, eol?, charset⟩ := style
  rw [normalizedText] at h
  dsimp only at h
  have h : [0xFEFF, 0xFEFF] <+: if trim = true then trimLineEnds text else text := by
    cases eol? with
    | none =>
      cases insert? with
      | none => exact h
      | some insert => exact hadjust _ _ h
    | some eol =>
      cases insert? with
      | none => exact heol _ _ h
      | some insert => exact hadjust _ _ (heol _ _ h)
  split at h
  · exact htrim text h
  · exact h

/-! ## The charset -/

/-- The text after the charset stage; `none` is an encoding error. -/
def charsetText (charset : Option String) (text : JsString) : Option JsString :=
  match charset with
  | none => some text
  | some name =>
      let charset := name.toLower
      if name = "" then some text
      else if charset = "utf-8" then some (withoutBom 0xFEFF text)
      else if charset = "utf-8-bom" then
        some (if text.length > 0 ∧ text.head? ≠ some 0xFEFF then 0xFEFF :: text else text)
      else if charset = "latin1" ∨ charset = "iso-8859-1" then
        (if (text.findIdx? fun u => 255 < u.toNat).isSome then none else some text)
      else if charset = "us-ascii" ∨ charset = "ascii" then
        (if (text.findIdx? fun u => 127 < u.toNat).isSome then none else some text)
      else some text

/-- The charset stage keeps its own results, and those of the text stages. -/
theorem charsetText_settled {text next : JsString} (h : Settled style text)
    (hmarks : ¬ [0xFEFF, 0xFEFF] <+: text) (hnext : charsetText style.charset text = some next) :
    Settled style next ∧ charsetText style.charset next = some next := by
  have hsame : next = text → Settled style next ∧ charsetText style.charset next = some next := by
    rintro rfl
    exact ⟨h, hnext⟩
  obtain ⟨trim, insert?, eol?, charset⟩ := style
  cases charset with
  | none => exact hsame (Option.some.inj hnext).symm
  | some name =>
    simp only [charsetText] at hnext ⊢
    split at hnext
    · exact hsame (Option.some.inj hnext).symm
    split at hnext
    · obtain rfl := Option.some.inj hnext
      by_cases hhead : text.head? = some 0xFEFF
      · obtain ⟨tail, rfl⟩ := List.head?_eq_some_iff.mp hhead
        rw [withoutBom_cons]
        refine ⟨h.of_cons, ?_⟩
        rw [if_neg ‹_›, if_pos ‹_›, withoutBom_of_ne fun hagain => hmarks ?_]
        obtain ⟨rest, rfl⟩ := List.head?_eq_some_iff.mp hagain
        exact ⟨rest, rfl⟩
      · rw [withoutBom_of_ne hhead]
        exact ⟨h, by rw [if_neg ‹_›, if_pos ‹_›, withoutBom_of_ne hhead]⟩
    split at hnext
    · rw [if_neg ‹_›, if_neg ‹_›, if_pos ‹_›]
      split at hnext
      · next hadd =>
        obtain rfl := Option.some.inj hnext
        exact ⟨h.cons (ne_nil_of_length_pos hadd.1), by rw [if_neg fun hagain => hagain.2 rfl]⟩
      · next hkeep =>
        obtain rfl := Option.some.inj hnext
        exact ⟨h, by rw [if_neg hkeep]⟩
    -- the other charsets leave the text alone, or fail
    · have hchecked : ∀ failed : Bool, (if failed then none else some text) = some next →
          next = text := fun failed hif => by
        cases failed with
        | true => cases hif
        | false => exact (Option.some.inj hif).symm
      refine hsame ?_
      split at hnext
      · exact hchecked _ hnext
      split at hnext
      · exact hchecked _ hnext
      · exact (Option.some.inj hnext).symm

/-! ## The run -/

/-- No formatter and no import organizer. -/
def SaveNormalizationOptions.NoProviders (options : SaveNormalizationOptions) : Prop :=
  options.formatFn = none ∧ options.organizeImportsFn = none

variable (sha256 : Sha256)

variable {options : SaveNormalizationOptions}

/-- Without a formatter the first stage leaves the text alone. -/
theorem formatStage_noProviders (h : options.NoProviders)
    (draft : SaveDraft) : ∃ next, formatStage sha256 options draft = .ok next ∧
      next.currentText = draft.currentText := by
  rw [formatStage, h.1]
  dsimp only
  split
  · exact ⟨_, rfl, rfl⟩
  split
  · exact ⟨_, rfl, rfl⟩
  split <;> exact ⟨_, rfl, rfl⟩

theorem organizeImportsStage_noProviders (h : options.NoProviders) (draft : SaveDraft) :
    ∃ next, organizeImportsStage sha256 options draft = .ok next ∧
      next.currentText = draft.currentText := by
  rw [organizeImportsStage, h.2]
  dsimp only
  split
  · exact ⟨_, rfl, rfl⟩
  split <;> exact ⟨_, rfl, rfl⟩

/-- Without providers the stages before the charset compute the normalized text. -/
theorem prepareStages_noProviders (h : options.NoProviders) :
    ∃ draft, prepareStages sha256 options = .ok draft ∧
      draft.currentText = normalizedText options.codeStyle options.text := by
  obtain ⟨formatted, hformat, htext⟩ :=
    formatStage_noProviders sha256 h { currentText := options.text }
  obtain ⟨organized, horganize, htext'⟩ := organizeImportsStage_noProviders sha256 h formatted
  rw [prepareStages, hformat]
  dsimp only
  rw [horganize]
  have hsame : organized.currentText = options.text := htext'.trans htext
  refine ⟨_, rfl, ?_⟩
  rw [normalizedText, ← hsame]
  generalize options.codeStyle = style
  obtain ⟨trim, insert?, eol?, charset⟩ := style
  cases trim <;> cases insert? <;> cases eol? <;> rfl

variable {draft : SaveDraft}

/-- A check of single bytes keeps the text, or fails with the untouched text. -/
theorem singleByteCharset_ok {limit : ℕ} {name range : String} {next : SaveDraft}
    (h : singleByteCharset sha256 options limit name range draft = .ok next) :
    (draft.currentText.findIdx? fun u => limit < u.toNat).isSome = false ∧
      next.currentText = draft.currentText := by
  rw [singleByteCharset] at h
  split at h
  · cases h
  · next hnone =>
    obtain rfl := Except.ok.inj h
    exact ⟨by rw [hnone]; rfl, rfl⟩

variable {result : SaveNormalizationResult}

theorem singleByteCharset_error {limit : ℕ} {name range : String}
    (h : singleByteCharset sha256 options limit name range draft = .error result) :
    (draft.currentText.findIdx? fun u => limit < u.toNat).isSome = true ∧
      result.disposition = .failed ∧ result.encodingError = true ∧ result.text = options.text := by
  rw [singleByteCharset] at h
  split at h
  · next hsome =>
    obtain rfl := Except.error.inj h
    exact ⟨by rw [hsome]; rfl, rfl, rfl, rfl⟩
  · cases h

/-- The charset stage gives the text of `charsetText`. -/
theorem charsetStage_ok {next : SaveDraft} {resolvedCharset : Option String} {resolvedBom : Option Bool}
    (h : charsetStage sha256 options draft = .ok (next, resolvedCharset, resolvedBom)) :
    charsetText options.codeStyle.charset draft.currentText = some next.currentText := by
  rw [charsetStage] at h
  cases hcharset : options.codeStyle.charset with
  | none =>
    simp only [hcharset] at h
    obtain ⟨rfl, -⟩ := Prod.mk.inj (Except.ok.inj h)
    rfl
  | some name =>
    simp only [hcharset] at h
    simp only [charsetText]
    -- one split of the model and one of `charsetText` for each comparison
    split at h
    · obtain ⟨rfl, -⟩ := Prod.mk.inj (Except.ok.inj h)
      rw [if_pos ‹_›]
      rfl
    rw [if_neg ‹_›]
    split at h
    · obtain ⟨rfl, -⟩ := Prod.mk.inj (Except.ok.inj h)
      rw [if_pos ‹_›]
      rfl
    rw [if_neg ‹_›]
    split at h
    · obtain ⟨rfl, -⟩ := Prod.mk.inj (Except.ok.inj h)
      rw [if_pos ‹_›]
      rfl
    rw [if_neg ‹_›]
    split at h
    · cases hcheck : singleByteCharset sha256 options 255 "Latin-1" "Latin-1" draft with
      | error result => rw [hcheck] at h; cases h
      | ok checked =>
        rw [hcheck] at h
        obtain ⟨rfl, -⟩ := Prod.mk.inj (Except.ok.inj h)
        obtain ⟨hfits, htext⟩ := singleByteCharset_ok sha256 hcheck
        rw [if_pos ‹_›, hfits, htext, if_neg Bool.false_ne_true]
    rw [if_neg ‹_›]
    split at h
    · cases hcheck : singleByteCharset sha256 options 127 "US-ASCII" "ASCII" draft with
      | error result => rw [hcheck] at h; cases h
      | ok checked =>
        rw [hcheck] at h
        obtain ⟨rfl, -⟩ := Prod.mk.inj (Except.ok.inj h)
        obtain ⟨hfits, htext⟩ := singleByteCharset_ok sha256 hcheck
        rw [if_pos ‹_›, hfits, htext, if_neg Bool.false_ne_true]
    rw [if_neg ‹_›]
    split at h <;>
    · obtain ⟨rfl, -⟩ := Prod.mk.inj (Except.ok.inj h)
      rfl

/-- The charset stage fails where `charsetText` does, with the untouched text. -/
theorem charsetStage_error (h : charsetStage sha256 options draft = .error result) :
    charsetText options.codeStyle.charset draft.currentText = none ∧
      result.disposition = .failed ∧ result.encodingError = true ∧ result.text = options.text := by
  rw [charsetStage] at h
  cases hcharset : options.codeStyle.charset with
  | none => simp only [hcharset] at h; cases h
  | some name =>
    simp only [hcharset] at h
    simp only [charsetText]
    split at h
    · cases h
    split at h
    · cases h
    split at h
    · cases h
    split at h
    · cases hcheck : singleByteCharset sha256 options 255 "Latin-1" "Latin-1" draft with
      | ok checked => rw [hcheck] at h; cases h
      | error failed =>
        rw [hcheck] at h
        obtain rfl : failed = result := Except.error.inj h
        obtain ⟨hfails, hresult⟩ := singleByteCharset_error sha256 hcheck
        exact ⟨by rw [if_neg ‹_›, if_neg ‹_›, if_neg ‹_›, if_pos ‹_›, hfails, if_pos rfl], hresult⟩
    split at h
    · cases hcheck : singleByteCharset sha256 options 127 "US-ASCII" "ASCII" draft with
      | ok checked => rw [hcheck] at h; cases h
      | error failed =>
        rw [hcheck] at h
        obtain rfl : failed = result := Except.error.inj h
        obtain ⟨hfails, hresult⟩ := singleByteCharset_error sha256 hcheck
        exact ⟨by rw [if_neg ‹_›, if_neg ‹_›, if_neg ‹_›, if_neg ‹_›, if_pos ‹_›, hfails, if_pos rfl],
          hresult⟩
    split at h <;> cases h

/-- A run that ends ready has the normalized text in its charset. -/
theorem run_text_of_ready (h : options.NoProviders)
    (hready : (runSaveNormalizationPipeline sha256 options).disposition = .ready) :
    charsetText options.codeStyle.charset (normalizedText options.codeStyle options.text)
      = some (runSaveNormalizationPipeline sha256 options).text := by
  obtain ⟨draft, hprepare, htext⟩ := prepareStages_noProviders sha256 h
  rw [runSaveNormalizationPipeline, hprepare] at hready ⊢
  dsimp only at hready ⊢
  cases hcharset : charsetStage sha256 options draft with
  | error result =>
    obtain ⟨-, hfailed, -⟩ := charsetStage_error sha256 hcharset
    rw [hcharset] at hready
    rw [hfailed] at hready
    cases hready
  | ok staged =>
    obtain ⟨next, resolvedCharset, resolvedBom⟩ := staged
    rw [hcharset] at hready
    rw [← htext, charsetStage_ok sha256 hcharset]
    dsimp only at hready ⊢
    split at hready
    · rfl
    · cases hready

/-- A run whose buffer holds the old or the new text ends ready with the new one. -/
theorem run_ready (h : options.NoProviders) (htext : charsetText options.codeStyle.charset
      (normalizedText options.codeStyle options.text) = some text)
    (hlatest : ∀ latest ∈ options.getLatestBufferText, latest = options.text ∨ latest = text) :
    (runSaveNormalizationPipeline sha256 options).disposition = .ready ∧
      (runSaveNormalizationPipeline sha256 options).text = text := by
  obtain ⟨draft, hprepare, hdraft⟩ := prepareStages_noProviders sha256 h
  rw [← hdraft] at htext
  rw [runSaveNormalizationPipeline, hprepare]
  dsimp only
  cases hcharset : charsetStage sha256 options draft with
  | error result =>
    obtain ⟨hnone, -⟩ := charsetStage_error sha256 hcharset
    rw [hnone] at htext
    cases htext
  | ok staged =>
    obtain ⟨next, resolvedCharset, resolvedBom⟩ := staged
    have hnext := charsetStage_ok sha256 hcharset
    obtain rfl : next.currentText = text := Option.some.inj (hnext.symm.trans htext)
    dsimp only
    have hsame : (options.getLatestBufferText.filter fun latestText =>
        latestText ≠ options.text ∧ latestText ≠ next.currentText) = none := by
      rw [Option.filter_eq_none_iff]
      intro latest hmem hboth
      obtain ⟨hold, hnew⟩ := of_decide_eq_true hboth
      exact (hlatest latest hmem).elim hold hnew
    rw [hsame]
    exact ⟨rfl, rfl⟩

/-- A run whose normalized text has no place in the charset ends in an encoding error. -/
theorem run_failed (h : options.NoProviders) (htext : charsetText options.codeStyle.charset
      (normalizedText options.codeStyle options.text) = none) :
    (runSaveNormalizationPipeline sha256 options).disposition = .failed ∧
      (runSaveNormalizationPipeline sha256 options).encodingError = true := by
  obtain ⟨draft, hprepare, hdraft⟩ := prepareStages_noProviders sha256 h
  rw [← hdraft] at htext
  rw [runSaveNormalizationPipeline, hprepare]
  dsimp only
  cases hcharset : charsetStage sha256 options draft with
  | error result =>
    obtain ⟨-, hfailed, herror, -⟩ := charsetStage_error sha256 hcharset
    exact ⟨hfailed, herror⟩
  | ok staged =>
    obtain ⟨next, resolvedCharset, resolvedBom⟩ := staged
    rw [charsetStage_ok sha256 hcharset] at htext
    cases htext

/-- A run that a provider ends early has no encoding error. -/
theorem prepareStages_error
    (h : prepareStages sha256 options = .error result) : result.encodingError = false := by
  have hprovider : ∀ stage provider stale failed draft result,
      runProvider sha256 options stage provider stale failed draft = .error result →
        result.encodingError = false := by
    intro stage provider stale failed draft result h
    rw [runProvider] at h
    split at h
    · cases h
    · cases h
    · have hif : ∀ (edited : Bool) (stale result : SaveNormalizationResult) (next : SaveDraft),
          (if edited then Except.error stale else Except.ok next) = Except.error result →
            stale = result := by
        rintro (_ | _) stale result next h
        · cases h
        · exact Except.error.inj h
      rw [← hif _ _ _ _ h]
  have hmapped : ∀ {x : Except SaveNormalizationResult SaveDraft} {f : SaveDraft → SaveDraft}
      {result : SaveNormalizationResult}, x.map f = .error result → x = .error result := by
    rintro (failed | draft) f result h
    · exact congrArg Except.error (Except.error.inj h)
    · cases h
  rw [prepareStages] at h
  split at h
  · next failed hformat =>
    obtain rfl : failed = result := Except.error.inj h
    rw [formatStage] at hformat
    dsimp only at hformat
    split at hformat
    · cases hformat
    split at hformat
    · cases hformat
    split at hformat
    · cases hformat
    split at hformat
    · cases hformat
    · exact hprovider _ _ _ _ _ _ (hmapped hformat)
  · split at h
    · next failed horganize =>
      obtain rfl : failed = result := Except.error.inj h
      rw [organizeImportsStage] at horganize
      split at horganize
      · cases horganize
      split at horganize
      · cases horganize
      split at horganize
      · cases horganize
      · exact hprovider _ _ _ _ _ _ (hmapped horganize)
    · cases h

theorem run_text_of_encodingError
    (h : (runSaveNormalizationPipeline sha256 options).encodingError = true) :
    (runSaveNormalizationPipeline sha256 options).text = options.text := by
  rw [runSaveNormalizationPipeline] at h ⊢
  cases hprepare : prepareStages sha256 options with
  | error result =>
    rw [hprepare] at h
    rw [prepareStages_error sha256 hprepare] at h
    cases h
  | ok draft =>
    rw [hprepare] at h
    dsimp only at h ⊢
    cases hcharset : charsetStage sha256 options draft with
    | error result => exact (charsetStage_error sha256 hcharset).2.2.2
    | ok staged =>
      obtain ⟨next, resolvedCharset, resolvedBom⟩ := staged
      rw [hcharset] at h
      dsimp only at h
      split at h <;> cases h

/-- Without providers, a run that ends ready can be repeated on its text, which it keeps; and a run
that ends in an encoding error returns the text it was given. -/
theorem runSaveNormalizationPipeline_idempotent :
    (∀ options : SaveNormalizationOptions, options.NoProviders → ¬ [0xFEFF, 0xFEFF] <+: options.text →
      (runSaveNormalizationPipeline sha256 options).disposition = .ready → ∀ latest : Option JsString,
        (∀ text ∈ latest, text = (runSaveNormalizationPipeline sha256 options).text) →
        (runSaveNormalizationPipeline sha256 { options with
            text := (runSaveNormalizationPipeline sha256 options).text
            getLatestBufferText := latest }).disposition = .ready ∧
          (runSaveNormalizationPipeline sha256 { options with
            text := (runSaveNormalizationPipeline sha256 options).text
            getLatestBufferText := latest }).text = (runSaveNormalizationPipeline sha256 options).text) ∧
    ∀ options : SaveNormalizationOptions,
      (runSaveNormalizationPipeline sha256 options).encodingError = true →
        (runSaveNormalizationPipeline sha256 options).text = options.text := by
  refine ⟨fun options hproviders hmarks hready latest hlatest => ?_,
    fun options => run_text_of_encodingError sha256⟩
  have htext := run_text_of_ready sha256 hproviders hready
  obtain ⟨hsettled, hagain⟩ := charsetText_settled
    (settled_normalizedText options.codeStyle options.text) (mt marks_of_normalizedText hmarks) htext
  have hproviders' : SaveNormalizationOptions.NoProviders { options with
      text := (runSaveNormalizationPipeline sha256 options).text
      getLatestBufferText := latest } := hproviders
  refine run_ready sha256 hproviders' ?_ fun text hmem => .inl (hlatest text hmem)
  show charsetText options.codeStyle.charset (normalizedText options.codeStyle _) = _
  rw [normalizedText_of_settled hsettled, hagain]

/-- Options of a save with every text stage on, without providers. -/
def saveOptions (text : JsString) (charset : Option String) : SaveNormalizationOptions where
  text
  codeStyle := ⟨true, some true, some .crlf, charset⟩
  savePolicy := none
  pathIsExcluded := false
  formatOnSave := false
  formatFn := none
  organizeImportsOnSave := false
  organizeImportsFn := none
  getLatestBufferText := none
  expectedVersion := none
  getLatestBufferVersion := none

/-- The statement at `a \n\n` behind a byte order mark, and at `Ā` in Latin-1. -/
theorem runSaveNormalizationPipeline_idempotent_crlf :
    (runSaveNormalizationPipeline Save.lengthHash { saveOptions [0xFEFF, 97, 32, 10, 10] none with
      text := (runSaveNormalizationPipeline Save.lengthHash
        (saveOptions [0xFEFF, 97, 32, 10, 10] none)).text
      getLatestBufferText := none }).disposition = .ready ∧
    (runSaveNormalizationPipeline Save.lengthHash (saveOptions [0x100] (some "latin1"))).text
      = [0x100] := by
  refine ⟨((runSaveNormalizationPipeline_idempotent Save.lengthHash).1 _ ⟨rfl, rfl⟩ (by decide)
    (by decide) none (by simp)).1, ?_⟩
  refine (runSaveNormalizationPipeline_idempotent Save.lengthHash).2 (saveOptions [0x100]
    (some "latin1")) (run_failed Save.lengthHash ⟨rfl, rfl⟩ ?_).2
  have hlower : "latin1".toLower = "latin1" := by
    show "latin1".map Char.toLower = "latin1"
    rw [← String.toList_inj, String.toList_map]
    decide
  have hnormal : normalizedText (saveOptions [0x100] (some "latin1")).codeStyle [0x100]
      = [0x100, 13, 10] := by decide
  show charsetText (some "latin1") (normalizedText _ [0x100]) = none
  rw [hnormal, charsetText]
  simp only [hlower]
  decide

end Taomni.SaveNormalization
