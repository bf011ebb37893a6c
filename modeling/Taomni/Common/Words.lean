import Mathlib.Data.List.DropRight
import Mathlib.Data.List.TakeWhile

/-!
# Words and blanks

The words of a text, and a text with one blank for each run of blanks. Texts that differ in the length of their runs only
have the same words, and the same word at the front.
-/

namespace Taomni.Words

open List

variable {α : Type*}

/-! ## Words -/

/-- The longest runs of word characters. -/
def words (isWord : α → Bool) (text : List α) : List (List α) :=
  (text.splitOnP fun a => !isWord a).filter fun word => !word.isEmpty

variable {isWord : α → Bool}

theorem words_nil : words isWord ([] : List α) = [] := by rw [words, splitOnP_nil]; rfl

theorem words_append_cons {a : α} (ha : isWord a = false) (text more : List α) :
    words isWord (text ++ a :: more) = words isWord text ++ words isWord more := by
  have hbreak : (!isWord a) = true := by rw [ha]; rfl
  rw [words, splitOnP_append_cons text more (p := fun a => !isWord a) hbreak, filter_append]
  rfl

theorem words_cons_of_not {a : α} (ha : isWord a = false) (text : List α) : words isWord (a :: text) = words isWord text := by
  have hwords := words_append_cons ha [] text
  rwa [words_nil, nil_append] at hwords

theorem words_eq_singleton {word : List α} (hne : word ≠ []) (hword : ∀ a ∈ word, isWord a = true) :
    words isWord word = [word] := by
  have hsplit : (word.splitOnP fun a => !isWord a) = [word] :=
    splitOnP_eq_singleton fun a ha => by rw [hword a ha]; rfl
  rw [words, hsplit, filter_cons_of_pos (by simpa using hne)]
  rfl

theorem words_cons {a : α} (ha : isWord a = true) (text : List α) :
    words isWord (a :: text) = (a :: text.takeWhile isWord) :: words isWord (text.dropWhile isWord) := by
  have hrun : words isWord (a :: text.takeWhile isWord) = [a :: text.takeWhile isWord] := by
    refine words_eq_singleton (cons_ne_nil _ _) fun b hb => ?_
    rcases mem_cons.1 hb with rfl | hb
    · exact ha
    · exact mem_takeWhile_imp hb
  cases hrest : text.dropWhile isWord with
  | nil =>
    have htext : text.takeWhile isWord = text := by
      have happend := takeWhile_append_dropWhile (p := isWord) (l := text)
      rwa [hrest, append_nil] at happend
    rw [words_nil, ← hrun, htext]
  | cons b more =>
    have hb : isWord b = false := by
      have hhead := head_dropWhile_not isWord (l := text) (by rw [hrest]; exact cons_ne_nil _ _)
      simpa [hrest] using hhead
    have htext : a :: text = (a :: text.takeWhile isWord) ++ b :: more := by
      rw [cons_append, ← hrest, takeWhile_append_dropWhile]
    rw [htext, words_append_cons hb, hrun, words_cons_of_not hb]
    rfl

/-- The word that a text begins with. -/
theorem head?_words {text : List α} (hhead : text.head?.any isWord = true) :
    (words isWord text).head? = some (text.takeWhile isWord) := by
  cases text with
  | nil => exact nomatch hhead
  | cons a text =>
    rw [words_cons (by simpa using hhead), head?_cons, takeWhile_cons_of_pos (by simpa using hhead)]

/-! ## Blanks -/

section Squeeze

variable (isBlank : α → Bool) (blank : α)

/-- One blank for each run of blanks. -/
@[grind =] def squeeze : List α → List α
  | [] => []
  | a :: text => if isBlank a then blank :: (squeeze text).dropWhile isBlank else a :: squeeze text

variable {isBlank blank}

theorem squeeze_append {text text' : List α} (h : squeeze isBlank blank text = squeeze isBlank blank text') (run : List α) :
    squeeze isBlank blank (run ++ text) = squeeze isBlank blank (run ++ text') := by
  induction run with
  | nil => exact h
  | cons a run ih => rw [cons_append, cons_append, squeeze, squeeze, ih]

theorem dropWhile_squeeze (hblank : isBlank blank = true) (text : List α) :
    (squeeze isBlank blank text).dropWhile isBlank = squeeze isBlank blank (text.dropWhile isBlank) := by
  induction text with
  | nil => rfl
  | cons a text ih =>
    by_cases ha : isBlank a = true
    · rw [squeeze, if_pos ha, dropWhile_cons_of_pos hblank, dropWhile_cons_of_pos ha, ← ih,
        dropWhile_idempotent]
    · rw [dropWhile_cons_of_neg ha, squeeze, if_neg ha, dropWhile_cons_of_neg ha]

theorem dropWhile_squeeze_cons (hblank : isBlank blank = true) {a : α} (ha : isBlank a = true) (text : List α) :
    (squeeze isBlank blank (a :: text)).dropWhile isBlank = (squeeze isBlank blank text).dropWhile isBlank := by
  rw [dropWhile_squeeze hblank, dropWhile_squeeze hblank, dropWhile_cons_of_pos ha]

/-- After a blank, only what follows the other blanks matters. -/
theorem squeeze_cons_congr {a b : α} (ha : isBlank a = true) (hb : isBlank b = true) {text text' : List α}
    (h : (squeeze isBlank blank text).dropWhile isBlank = (squeeze isBlank blank text').dropWhile isBlank) :
    squeeze isBlank blank (a :: text) = squeeze isBlank blank (b :: text') := by
  rw [squeeze, squeeze, if_pos ha, if_pos hb, h]

theorem words_dropWhile (hwords : ∀ a, isBlank a = true → isWord a = false) (text : List α) :
    words isWord (text.dropWhile isBlank) = words isWord text := by
  induction text with
  | nil => rfl
  | cons a text ih =>
    by_cases ha : isBlank a = true
    · rw [dropWhile_cons_of_pos ha, words_cons_of_not (hwords a ha), ih]
    · rw [dropWhile_cons_of_neg ha]

theorem takeWhile_squeeze (hblank : isBlank blank = true) {p : α → Bool} (hp : ∀ a, isBlank a = true → p a = false)
    (text : List α) : (squeeze isBlank blank text).takeWhile p = text.takeWhile p := by
  induction text with
  | nil => rfl
  | cons a text ih =>
    by_cases ha : isBlank a = true
    · rw [squeeze, if_pos ha, takeWhile_cons_of_neg (Bool.eq_false_iff.1 (hp a ha)),
        takeWhile_cons_of_neg (Bool.eq_false_iff.1 (hp blank hblank))]
    · rw [squeeze, if_neg ha, takeWhile_cons, takeWhile_cons, ih]

theorem dropWhile_squeeze_of (hblank : isBlank blank = true) (hwords : ∀ a, isBlank a = true → isWord a = false)
    (text : List α) :
    (squeeze isBlank blank text).dropWhile isWord = squeeze isBlank blank (text.dropWhile isWord) := by
  induction text with
  | nil => rfl
  | cons a text ih =>
    by_cases ha : isBlank a = true
    · have hdrop : (a :: text).dropWhile isWord = a :: text :=
        dropWhile_cons_of_neg (Bool.eq_false_iff.1 (hwords a ha))
      rw [hdrop, squeeze, if_pos ha,
        dropWhile_cons_of_neg (Bool.eq_false_iff.1 (hwords blank hblank))]
    · rw [squeeze, if_neg ha, dropWhile_cons, dropWhile_cons, ih]
      split
      · rfl
      · rw [squeeze, if_neg ha]

theorem words_squeeze (hblank : isBlank blank = true) (hwords : ∀ a, isBlank a = true → isWord a = false)
    (text : List α) : words isWord (squeeze isBlank blank text) = words isWord text := by
  induction hlength : text.length using Nat.strong_induction_on generalizing text with
  | _ length ih =>
    subst hlength
    cases text with
    | nil => rfl
    | cons a text =>
      have hrest : words isWord (squeeze isBlank blank text) = words isWord text :=
        ih text.length (Nat.lt_succ_self _) text rfl
      by_cases ha : isBlank a = true
      · rw [squeeze, if_pos ha, words_cons_of_not (hwords blank hblank), words_dropWhile hwords, hrest,
          words_cons_of_not (hwords a ha)]
      rw [squeeze, if_neg ha]
      by_cases hword : isWord a = true
      · have hshorter : (text.dropWhile isWord).length < (a :: text).length :=
          Nat.lt_succ_of_le (dropWhile_suffix _).length_le
        rw [words_cons hword, words_cons hword, takeWhile_squeeze hblank hwords, dropWhile_squeeze_of hblank hwords,
          ih _ hshorter _ rfl]
      · rw [words_cons_of_not (Bool.eq_false_iff.2 hword), words_cons_of_not (Bool.eq_false_iff.2 hword), hrest]

/-- The run at the front of a text, after its blanks. -/
theorem takeWhile_dropWhile_of_squeeze_eq (hblank : isBlank blank = true) {p : α → Bool}
    (hp : ∀ a, isBlank a = true → p a = false) {text text' : List α}
    (h : squeeze isBlank blank text = squeeze isBlank blank text') :
    (text.dropWhile isBlank).takeWhile p = (text'.dropWhile isBlank).takeWhile p := by
  rw [← takeWhile_squeeze hblank hp (text.dropWhile isBlank), ← dropWhile_squeeze hblank, h, dropWhile_squeeze hblank,
    takeWhile_squeeze hblank hp]

theorem words_of_squeeze_eq (hblank : isBlank blank = true) (hwords : ∀ a, isBlank a = true → isWord a = false)
    {text text' : List α} (h : squeeze isBlank blank text = squeeze isBlank blank text') :
    words isWord text = words isWord text' := by
  rw [← words_squeeze hblank hwords text, h, words_squeeze hblank hwords]

end Squeeze

end Taomni.Words
