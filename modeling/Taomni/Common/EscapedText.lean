import Mathlib.Data.List.Count
import Mathlib.Data.List.Infix

/-!
# Texts with escapes

Escapes that are replaced one kind after the other are read as in one pass, as long as no replacement gives the letter
of a later kind. Such a pass may know more escapes than the text was written with.
-/

namespace Taomni

open List

variable {α : Type} [DecidableEq α]

/-- The letter `a` after an escape, and the escape, replaced by `b`. -/
@[grind =] def replaceEscape (esc a b : α) : List α → List α
  | c :: d :: text =>
    if c = esc ∧ d = a then b :: replaceEscape esc a b text else c :: replaceEscape esc a b (d :: text)
  | text => text

/-- Escapes read in one pass. An escape without a meaning is kept. -/
@[grind =] def readEscapes (esc : α) (meaning : α → Option α) : List α → List α
  | c :: d :: text =>
    if c = esc then
      match meaning d with
      | some b => b :: readEscapes esc meaning text
      | none => c :: readEscapes esc meaning (d :: text)
    else c :: readEscapes esc meaning (d :: text)
  | text => text

/-- Another escape. -/
def addMeaning (meaning : α → Option α) (a b : α) : α → Option α := fun c => if c = a then some b else meaning c

section

variable {esc : α} {meaning : α → Option α}

theorem addMeaning_self (a b : α) : addMeaning meaning a b a = some b := if_pos rfl

theorem addMeaning_ne {a c : α} (h : c ≠ a) (b : α) : addMeaning meaning a b c = meaning c := if_neg h

theorem readEscapes_cons {c : α} (h : c ≠ esc) (text : List α) :
    readEscapes esc meaning (c :: text) = c :: readEscapes esc meaning text := by
  cases text with
  | nil => rfl
  | cons d text => rw [readEscapes, if_neg h]

theorem readEscapes_some {d b : α} (h : meaning d = some b) (text : List α) :
    readEscapes esc meaning (esc :: d :: text) = b :: readEscapes esc meaning text := by
  rw [readEscapes, if_pos rfl, h]

theorem readEscapes_none {d : α} (h : meaning d = none) (text : List α) :
    readEscapes esc meaning (esc :: d :: text) = esc :: readEscapes esc meaning (d :: text) := by
  rw [readEscapes, if_pos rfl, h]

theorem replaceEscape_cons {a b c : α} (h : c ≠ esc) (text : List α) :
    replaceEscape esc a b (c :: text) = c :: replaceEscape esc a b text := by
  cases text with
  | nil => rfl
  | cons d text => rw [replaceEscape, if_neg fun heq => h heq.1]

theorem replaceEscape_cons_of_head {a b c : α} {text : List α} (h : text.head? ≠ some a) :
    replaceEscape esc a b (c :: text) = c :: replaceEscape esc a b text := by
  cases text with
  | nil => rfl
  | cons d text => rw [replaceEscape, if_neg fun heq => h (congrArg some heq.2)]

theorem readEscapes_nothing (text : List α) : readEscapes esc (fun _ => none) text = text := by
  induction text with
  | nil => rfl
  | cons c text ih =>
    by_cases hc : c = esc
    · cases text with
      | nil => rfl
      | cons d text => rw [hc, readEscapes_none rfl, ih]
    · rw [readEscapes_cons hc, ih]

/-- A kind of escape that is replaced after others is read with them. -/
theorem replaceEscape_readEscapes {a b : α} (hesc : a ≠ esc) (hnew : meaning a = none)
    (hresult : ∀ c r, meaning c = some r → r ≠ a ∧ r ≠ esc) (text : List α) :
    replaceEscape esc a b (readEscapes esc meaning text) = readEscapes esc (addMeaning meaning a b) text := by
  induction text using readEscapes.induct esc meaning with
  | case1 d text r hr ih =>
    have hd : d ≠ a := fun heq => by
      rw [heq, hnew] at hr
      cases hr
    rw [readEscapes_some hr, readEscapes_some ((addMeaning_ne hd b).trans hr), replaceEscape_cons (hresult d r hr).2, ih]
  | case2 d text hnone ih =>
    rw [readEscapes_none hnone]
    by_cases hd : d = a
    · rw [hd, readEscapes_some (addMeaning_self a b), readEscapes_cons hesc, replaceEscape, if_pos ⟨rfl, rfl⟩]
      rw [hd, readEscapes_cons hesc, readEscapes_cons hesc, replaceEscape_cons hesc] at ih
      rw [(List.cons.inj ih).2]
    · rw [readEscapes_none ((addMeaning_ne hd b).trans hnone), ← ih]
      refine replaceEscape_cons_of_head ?_
      cases text with
      | nil => exact fun heq => hd (Option.some.inj heq)
      | cons e text =>
        rw [readEscapes]
        split
        · split
          · next r hr => exact fun heq => (hresult e r hr).1 (Option.some.inj heq)
          · exact fun heq => hd (Option.some.inj heq)
        · exact fun heq => hd (Option.some.inj heq)
  | case3 c d text hc ih => rw [readEscapes_cons hc, readEscapes_cons hc, replaceEscape_cons hc, ih]
  | case4 text h =>
    cases text with
    | nil => rfl
    | cons c text =>
      cases text with
      | nil => rfl
      | cons d text => exact absurd rfl (h c d text)

end

/-! ## Written texts -/

/-- A text with an escape before its quotes and its escapes. -/
def escaped (esc q : α) (text : List α) : List α := text.flatMap fun c => if c = esc ∨ c = q then [esc, c] else [c]

section

variable {esc q c : α} {text : List α}

theorem escaped_cons_of (h : c = esc ∨ c = q) : escaped esc q (c :: text) = esc :: c :: escaped esc q text := by
  rw [escaped, flatMap_cons, if_pos h]
  rfl

theorem escaped_cons_ne (h : ¬(c = esc ∨ c = q)) : escaped esc q (c :: text) = c :: escaped esc q text := by
  rw [escaped, flatMap_cons, if_neg h]
  rfl

/-- Every escape of a text has a letter after it that only escapes to itself. -/
def Harmless (esc q : α) (meaning : α → Option α) (text : List α) : Prop :=
  ∀ back, esc :: back <:+ text → ∃ c rest, back = c :: rest ∧ c ≠ q ∧ meaning c = some c

variable {meaning : α → Option α}

omit [DecidableEq α] in
theorem harmless_cons_iff (hc : c ≠ esc) : Harmless esc q meaning (c :: text) ↔ Harmless esc q meaning text := by
  refine ⟨fun h back hback => h back (hback.trans (suffix_cons c text)), fun h back hback => ?_⟩
  rcases List.suffix_cons_iff.mp hback with heq | hback
  · exact absurd (List.cons.inj heq).1.symm hc
  · exact h back hback

omit [DecidableEq α] in
theorem harmless_escape_iff : Harmless esc q meaning (esc :: text) ↔
    (∃ c rest, text = c :: rest ∧ c ≠ q ∧ meaning c = some c) ∧ Harmless esc q meaning text := by
  refine ⟨fun h => ⟨h text (suffix_refl _), fun back hback => h back (hback.trans (suffix_cons _ text))⟩, ?_⟩
  rintro ⟨hfirst, h⟩ back hback
  rcases List.suffix_cons_iff.mp hback with heq | hback
  · rw [(List.cons.inj heq).2]
    exact hfirst
  · exact h back hback

theorem readEscapes_escape (hesc : meaning esc = none) (text : List α) :
    readEscapes esc meaning (escaped esc q (esc :: text)) = esc :: readEscapes esc meaning (esc :: escaped esc q text) := by
  rw [escaped_cons_of (.inl rfl), readEscapes_none hesc]

theorem readEscapes_letter (hquote : meaning q = some q) (hc : c ≠ esc) :
    readEscapes esc meaning (escaped esc q (c :: text)) = c :: readEscapes esc meaning (escaped esc q text) := by
  by_cases hcq : c = q
  · rw [hcq, escaped_cons_of (.inr rfl), readEscapes_some hquote]
  · rw [escaped_cons_ne (not_or.mpr ⟨hc, hcq⟩), readEscapes_cons hc]

variable (hquote : meaning q = some q) (hesc : meaning esc = none)
include hquote hesc

/-- No escape of a text is lost, nor is one that was left over before it. -/
theorem count_le_readEscapes (text : List α) :
    text.count esc ≤ (readEscapes esc meaning (escaped esc q text)).count esc ∧
      text.count esc ≤ (readEscapes esc meaning (esc :: escaped esc q text)).count esc := by
  induction text with
  | nil => exact ⟨Nat.zero_le _, Nat.zero_le _⟩
  | cons c text ih =>
    obtain ⟨hplain, hleft⟩ := ih
    by_cases hc : c = esc
    · rw [hc, readEscapes_escape hesc, escaped_cons_of (.inl rfl), readEscapes_none hesc, readEscapes_none hesc]
      simp only [count_cons_self]
      omega
    · rw [readEscapes_letter hquote hc, count_cons_of_ne hc, count_cons_of_ne hc]
      refine ⟨hplain, ?_⟩
      by_cases hcq : c = q
      · rw [hcq, escaped_cons_of (.inr rfl), readEscapes_none hesc, readEscapes_some hquote]
        refine hplain.trans ?_
        rw [count_cons_self]
        exact (count_le_count_cons).trans (Nat.le_succ _)
      · rw [escaped_cons_ne (not_or.mpr ⟨hc, hcq⟩), readEscapes, if_pos rfl]
        split
        · exact hplain.trans count_le_count_cons
        · rw [readEscapes_cons hc, count_cons_self, count_cons_of_ne hc]
          exact hplain.trans (Nat.le_succ _)

/-- A text is read as it was written exactly when its escapes are harmless, even if more than the text is read. -/
theorem readEscapes_escaped_iff {more : List α} (hmore : esc ∉ more) (hq : q ≠ esc) (text : List α) :
    readEscapes esc meaning (escaped esc q text) = text ++ more ↔ Harmless esc q meaning text ∧ more = [] := by
  induction hlength : text.length using Nat.strong_induction_on generalizing text with
  | _ n ih =>
    subst hlength
    cases text with
    | nil =>
      have hnil : Harmless esc q meaning [] :=
        fun back hback => absurd (List.suffix_nil.mp hback) (cons_ne_nil _ _)
      rw [and_iff_right hnil]
      exact eq_comm
    | cons c text =>
      rw [cons_append]
      by_cases hc : c = esc
      · subst hc
        rw [readEscapes_escape hesc, harmless_escape_iff, List.cons.injEq, and_iff_right rfl]
        cases text with
        | nil =>
          refine iff_of_false (fun heq => hmore ?_) ?_
          · rw [← nil_append more, ← heq]
            exact mem_cons_self
          · rintro ⟨⟨⟨d, rest, heq, -⟩, -⟩, -⟩
            cases heq
        | cons d text =>
          by_cases hd : d = c
          · subst hd
            obtain ⟨-, hleft⟩ := count_le_readEscapes hquote hesc text
            refine iff_of_false (fun heq => ?_) ?_
            · have hcount := congrArg (List.count d) heq
              rw [escaped_cons_of (.inl rfl), readEscapes_none hesc, readEscapes_none hesc, count_append,
                count_eq_zero_of_not_mem hmore] at hcount
              simp only [count_cons_self] at hcount
              omega
            · rintro ⟨⟨⟨e, rest, heq, -, hself⟩, -⟩, -⟩
              cases heq
              rw [hesc] at hself
              cases hself
          · by_cases hdq : d = q
            · subst hdq
              refine iff_of_false (fun heq => ?_) ?_
              · rw [escaped_cons_of (.inr rfl), readEscapes_none hesc] at heq
                exact hq (List.cons.inj heq).1.symm
              · rintro ⟨⟨⟨e, rest, heq, hne, -⟩, -⟩, -⟩
                cases heq
                exact hne rfl
            · rw [escaped_cons_ne (not_or.mpr ⟨hd, hdq⟩), harmless_cons_iff hd]
              cases hmeaning : meaning d with
              | none =>
                refine iff_of_false (fun heq => ?_) ?_
                · rw [readEscapes_none hmeaning] at heq
                  exact hd (List.cons.inj heq).1.symm
                · rintro ⟨⟨⟨e, rest, heq, -, hself⟩, -⟩, -⟩
                  cases heq
                  rw [hmeaning] at hself
                  cases hself
              | some b =>
                have hshort : text.length < (c :: d :: text).length := by simp only [length_cons]; omega
                rw [readEscapes_some hmeaning, cons_append, List.cons.injEq, ih text.length hshort text rfl,
                  and_assoc]
                refine and_congr_left' ⟨fun hb => ⟨d, text, rfl, hdq, hb ▸ hmeaning⟩, ?_⟩
                rintro ⟨e, rest, heq, -, hself⟩
                cases heq
                exact Option.some.inj (hmeaning.symm.trans hself)
      · rw [readEscapes_letter hquote hc, harmless_cons_iff hc, List.cons.injEq, and_iff_right rfl]
        exact ih text.length (Nat.lt_succ_self _) text rfl

end

section

variable {esc q x : α}

theorem count_escaped (hx : x ≠ esc) (text : List α) : (escaped esc q text).count x = text.count x := by
  induction text with
  | nil => rfl
  | cons c text ih =>
    by_cases hc : c = esc ∨ c = q
    · rw [escaped_cons_of hc, count_cons_of_ne hx.symm, count_cons, count_cons, ih]
    · rw [escaped_cons_ne hc, count_cons, count_cons, ih]

theorem count_readEscapes {meaning : α → Option α} (hx : x ≠ esc) (hmeaning : ∀ d b, meaning d = some b → (d = x ↔ b = x))
    (text : List α) : (readEscapes esc meaning text).count x = text.count x := by
  induction text using readEscapes.induct esc meaning with
  | case1 d text b hb ih =>
    rw [readEscapes_some hb, count_cons_of_ne hx.symm, count_cons, count_cons, ih]
    congr 1
    simp only [beq_iff_eq, hmeaning d b hb]
  | case2 d text hnone ih => rw [readEscapes_none hnone, count_cons, count_cons, ih]
  | case3 c d text hc ih => rw [readEscapes_cons hc, count_cons, count_cons, ih]
  | case4 text h =>
    cases text with
    | nil => rfl
    | cons c text =>
      cases text with
      | nil => rfl
      | cons d text => exact absurd rfl (h c d text)

end

end Taomni
