import Mathlib.Data.List.DropRight
import Mathlib.Data.List.Pairwise
import Taomni.Common.Paths

/-!
# Lines

A text over any alphabet as the pieces between its separators.
-/

namespace Taomni

open List

variable {α : Type}

section

variable {p : α → Bool} {xs ys : List α}

theorem rdropWhile_append_of_forall (h : ∀ y ∈ ys, p y) : (xs ++ ys).rdropWhile p = xs.rdropWhile p := by
  unfold List.rdropWhile
  rw [reverse_append, dropWhile_append_of_pos fun y hy => h y (mem_reverse.mp hy)]

/-- Both ends of a list that is not all dropped. -/
theorem dropWhile_rdropWhile {q : α → Bool} (h : (xs.dropWhile p).rdropWhile q ≠ []) :
    (xs.rdropWhile q).dropWhile p = (xs.dropWhile p).rdropWhile q := by
  induction xs with
  | nil => rfl
  | cons x xs ih =>
    by_cases hx : p x = true
    · rw [dropWhile_cons_of_pos hx] at h ⊢
      rw [← ih h]
      have hne : xs.rdropWhile q ≠ [] := by
        intro hnil
        rw [← ih h, hnil] at h
        exact h rfl
      have hcons : (x :: xs).rdropWhile q = x :: xs.rdropWhile q := by
        unfold List.rdropWhile at hne ⊢
        rw [reverse_cons, dropWhile_append, if_neg, reverse_append]
        · rfl
        · intro hempty
          exact hne (congrArg List.reverse (List.isEmpty_iff.mp hempty))
      rw [hcons, dropWhile_cons_of_pos hx]
    · rw [dropWhile_cons_of_neg hx] at h ⊢
      obtain ⟨y, ys, hcons⟩ := exists_cons_of_ne_nil h
      have hprefix : (x :: xs).rdropWhile q <+: x :: xs := rdropWhile_prefix _ _
      rw [hcons] at hprefix ⊢
      rw [(cons_prefix_cons.mp hprefix).1, dropWhile_cons_of_neg hx]

/-- A front of two texts ends in the first or in the second. -/
theorem prefix_append_cases {front : List α} (h : front <+: xs ++ ys) :
    front <+: xs ∨ ∃ more, front = xs ++ more ∧ more <+: ys := by
  rcases prefix_or_prefix_of_prefix h (prefix_append xs ys) with hfront | ⟨more, rfl⟩
  · exact .inl hfront
  · exact .inr ⟨more, rfl, (prefix_append_right_inj xs).mp h⟩

theorem mem_rdropWhile {x : α} (hx : x ∈ xs) (h : ¬p x) : x ∈ xs.rdropWhile p := by
  unfold List.rdropWhile
  rw [mem_reverse]
  rw [← mem_reverse] at hx
  rw [← takeWhile_append_dropWhile (p := p) (l := xs.reverse), mem_append] at hx
  exact hx.resolve_left fun htake => h (mem_takeWhile_imp htake)

/-- Where no ending is one of another, a text has one ending and one stem. -/
theorem append_ending_inj {endings : List (List α)} (h : endings.Pairwise fun s t => ¬s <:+ t ∧ ¬t <:+ s)
    {s t : List α} (hs : s ∈ endings) (ht : t ∈ endings) (heq : xs ++ s = ys ++ t) : xs = ys ∧ s = t := by
  have hst : s = t := by
    by_contra hne
    have : Std.Symm fun s t : List α => ¬s <:+ t ∧ ¬t <:+ s := ⟨fun _ _ happart => ⟨happart.2, happart.1⟩⟩
    obtain ⟨hleft, hright⟩ := h.forall hs ht hne
    exact (suffix_or_suffix_of_suffix (suffix_append xs s) (heq ▸ suffix_append ys t)).elim hleft hright
  subst hst
  exact ⟨append_cancel_right heq, rfl⟩

/-- The pieces of a front are pieces and a front of one. -/
theorem splitOnP_of_prefix {first first' : List α} {rest rest' : List (List α)} (h : xs <+: ys)
    (hxs : xs.splitOnP p = first :: rest) (hys : ys.splitOnP p = first' :: rest') :
    first <+: first' ∧ ∀ piece ∈ rest, ∃ line ∈ rest', piece <+: line := by
  induction xs generalizing ys first first' rest rest' with
  | nil =>
    cases hxs
    exact ⟨List.nil_prefix, fun _ hpiece => absurd hpiece not_mem_nil⟩
  | cons x xs ih =>
    obtain ⟨more, rfl⟩ := h
    obtain ⟨a, as, ha⟩ := exists_cons_of_ne_nil (splitOnP_ne_nil p xs)
    obtain ⟨b, bs, hb⟩ := exists_cons_of_ne_nil (splitOnP_ne_nil p (xs ++ more))
    obtain ⟨hfirst, hrest⟩ := ih (prefix_append xs more) ha hb
    rw [splitOnP_cons_eq_if_modifyHead, ha] at hxs
    rw [cons_append, splitOnP_cons_eq_if_modifyHead, hb] at hys
    by_cases hx : p x = true
    · rw [if_pos hx] at hxs hys
      cases hxs
      cases hys
      refine ⟨List.nil_prefix, forall_mem_cons.mpr ⟨⟨_, mem_cons_self, hfirst⟩, ?_⟩⟩
      intro piece hpiece
      obtain ⟨line, hline, hpre⟩ := hrest piece hpiece
      exact ⟨line, mem_cons_of_mem _ hline, hpre⟩
    · rw [if_neg hx] at hxs hys
      cases hxs
      cases hys
      exact ⟨cons_prefix_cons.mpr ⟨rfl, hfirst⟩, hrest⟩

/-- A piece of the list is made of its elements, without the separators. -/
theorem mem_of_mem_splitOnP {piece : List α} (hpiece : piece ∈ xs.splitOnP p) :
    ∀ a ∈ piece, a ∈ xs ∧ p a = false := by
  induction xs generalizing piece with
  | nil =>
    rw [splitOnP_nil, mem_singleton] at hpiece
    rintro a ha
    rw [hpiece] at ha
    cases ha
  | cons b xs ih =>
    have hrest {piece : List α} (h : piece ∈ xs.splitOnP p) :
        ∀ a ∈ piece, a ∈ b :: xs ∧ p a = false :=
      fun a ha => (ih h a ha).imp_left (mem_cons_of_mem b)
    rw [splitOnP_cons_eq_if_modifyHead] at hpiece
    split at hpiece
    · rcases mem_cons.mp hpiece with rfl | hpiece
      · exact fun a ha => absurd ha not_mem_nil
      · exact hrest hpiece
    · next hb =>
      obtain ⟨head, tail, hsplit⟩ := exists_cons_of_ne_nil (splitOnP_ne_nil p xs)
      rw [hsplit, modifyHead_cons] at hpiece
      rcases mem_cons.mp hpiece with rfl | hpiece
      · rintro a ha
        rcases mem_cons.mp ha with rfl | ha
        · exact ⟨mem_cons_self, Bool.not_eq_true _ ▸ hb⟩
        · exact hrest (hsplit ▸ mem_cons_self) a ha
      · exact hrest (hsplit ▸ mem_cons_of_mem head hpiece)

theorem exists_mem_splitOnP_of_prefix (h : xs <+: ys) {piece : List α}
    (hpiece : piece ∈ xs.splitOnP p) : ∃ line ∈ ys.splitOnP p, piece <+: line := by
  obtain ⟨a, as, ha⟩ := exists_cons_of_ne_nil (splitOnP_ne_nil p xs)
  obtain ⟨b, bs, hb⟩ := exists_cons_of_ne_nil (splitOnP_ne_nil p ys)
  obtain ⟨hfirst, hrest⟩ := splitOnP_of_prefix h ha hb
  rw [hb]
  rw [ha] at hpiece
  rcases mem_cons.mp hpiece with rfl | hpiece
  · exact ⟨b, mem_cons_self, hfirst⟩
  · obtain ⟨line, hline, hpre⟩ := hrest piece hpiece
    exact ⟨line, mem_cons_of_mem _ hline, hpre⟩

end

variable [DecidableEq α] {sep : α}

theorem splitOn_written_append {lines : List (List α)} (h : ∀ line ∈ lines, sep ∉ line) {last : List α}
    (hlast : sep ∉ last) : (written sep lines ++ last).splitOn sep = lines ++ [last] := by
  induction lines with
  | nil => exact splitOn_eq_singleton hlast
  | cons line lines ih =>
    obtain ⟨hline, hlines⟩ := forall_mem_cons.mp h
    rw [written_cons, append_assoc, cons_append,
      splitOn_append_cons_self_of_not_mem hline, ih hlines, cons_append]

theorem splitOn_written {lines : List (List α)} (h : ∀ line ∈ lines, sep ∉ line) :
    (written sep lines).splitOn sep = lines ++ [[]] := by
  have hsplit := splitOn_written_append h (not_mem_nil (a := sep))
  rwa [append_nil] at hsplit

/-- A separator at the end leaves an empty last piece. -/
theorem splitOn_concat_self (text : List α) : (text ++ [sep]).splitOn sep = text.splitOn sep ++ [[]] :=
  splitOn_append_cons_self text []

theorem not_mem_of_mem_splitOn {text line : List α} (h : line ∈ text.splitOn sep) : sep ∉ line := by
  induction text generalizing line with
  | nil =>
    rw [splitOn_nil, mem_singleton] at h
    rw [h]
    exact not_mem_nil
  | cons c text ih =>
    rw [splitOn_cons_eq_if_modifyHead] at h
    by_cases hc : c = sep
    · rw [if_pos (beq_iff_eq.mpr hc), mem_cons] at h
      rcases h with rfl | h
      · exact not_mem_nil
      · exact ih h
    · rw [if_neg (by rwa [beq_iff_eq])] at h
      obtain ⟨first, rest, hsplit⟩ := exists_cons_of_ne_nil (splitOn_ne_nil sep text)
      rw [hsplit, modifyHead_cons, mem_cons] at h
      rw [hsplit] at ih
      rcases h with rfl | h
      · rw [mem_cons, not_or]
        exact ⟨Ne.symm hc, ih mem_cons_self⟩
      · exact ih (mem_cons_of_mem _ h)

/-- What is no separator stands in a piece. -/
theorem exists_mem_splitOn {text : List α} {c : α} (hc : c ∈ text) (hsep : c ≠ sep) :
    ∃ line ∈ text.splitOn sep, c ∈ line := by
  induction text with
  | nil => exact absurd hc not_mem_nil
  | cons d text ih =>
    obtain ⟨first, rest, hsplit⟩ := exists_cons_of_ne_nil (splitOn_ne_nil sep text)
    rw [splitOn_cons_eq_if_modifyHead, hsplit]
    rw [hsplit] at ih
    rcases mem_cons.mp hc with rfl | hc
    · rw [if_neg (by rwa [beq_iff_eq])]
      exact ⟨c :: first, mem_cons_self, mem_cons_self⟩
    · obtain ⟨line, hline, hmem⟩ := ih hc
      by_cases hd : d = sep
      · rw [if_pos (beq_iff_eq.mpr hd)]
        exact ⟨line, mem_cons_of_mem _ hline, hmem⟩
      · rw [if_neg (by rwa [beq_iff_eq]), modifyHead_cons]
        rcases mem_cons.mp hline with rfl | hline
        · exact ⟨_, mem_cons_self, mem_cons_of_mem d hmem⟩
        · exact ⟨line, mem_cons_of_mem _ hline, hmem⟩

/-- The first piece starts the text, and the others stand within it. -/
theorem splitOn_cons_infix {text first : List α} {rest : List (List α)}
    (h : text.splitOn sep = first :: rest) : first <+: text ∧ ∀ line ∈ rest, line <:+: text := by
  induction text generalizing first rest with
  | nil =>
    cases h
    exact ⟨List.nil_prefix, fun _ hline => absurd hline not_mem_nil⟩
  | cons c text ih =>
    obtain ⟨first', rest', hsplit⟩ := exists_cons_of_ne_nil (splitOn_ne_nil sep text)
    obtain ⟨hfirst, hrest⟩ := ih hsplit
    rw [splitOn_cons_eq_if_modifyHead, hsplit] at h
    by_cases hc : c = sep
    · rw [if_pos (beq_iff_eq.mpr hc)] at h
      cases h
      refine ⟨List.nil_prefix, forall_mem_cons.mpr ⟨?_, fun line hline => ?_⟩⟩
      · exact infix_cons hfirst.isInfix
      · exact infix_cons (hrest line hline)
    · rw [if_neg (by rwa [beq_iff_eq]), modifyHead_cons] at h
      cases h
      exact ⟨cons_prefix_cons.mpr ⟨rfl, hfirst⟩, fun line hline =>
        infix_cons (hrest line hline)⟩

theorem isInfix_of_mem_splitOn {text line : List α} (h : line ∈ text.splitOn sep) : line <:+: text := by
  obtain ⟨first, rest, hsplit⟩ := exists_cons_of_ne_nil (splitOn_ne_nil sep text)
  obtain ⟨hfirst, hrest⟩ := splitOn_cons_infix hsplit
  rw [hsplit] at h
  rcases mem_cons.mp h with rfl | h
  · exact hfirst.isInfix
  · exact hrest line h

end Taomni

/-!
# Line endings

A text is a list over any alphabet with a carriage return `cr` and a line feed `lf`. `unifyLines`
turns the three line endings into `lf`, `writeLines` turns each `lf` into an ending. Unifying takes
back what was written (`unifyLines_writeLines`), and both commute with a character-wise encoding
(`unifyLines_flatMap`, `writeLines_flatMap`).
-/

namespace Taomni.LineEndings

open List

variable {α β : Type*} [DecidableEq α] [DecidableEq β] {cr lf : α}

/-- Every line ending as `lf`; `cr` before `lf` makes one ending with it. -/
@[grind =] def unifyLines (cr lf : α) : List α → List α
  | [] => []
  | [u] => if u = cr then [lf] else [u]
  | u :: v :: rest =>
      if u = cr then
        (if v = lf then lf :: unifyLines cr lf rest else lf :: unifyLines cr lf (v :: rest))
      else u :: unifyLines cr lf (v :: rest)

/-- Every `lf` as `eol`. -/
def writeLines (lf : α) (eol text : List α) : List α :=
  text.flatMap fun u => if u = lf then eol else [u]

/-- The three line endings. -/
def IsEol (cr lf : α) (eol : List α) : Prop := eol = [lf] ∨ eol = [cr, lf] ∨ eol = [cr]

/-! ## One character -/

theorem unifyLines_cons_of_ne {u : α} (hu : u ≠ cr) (rest : List α) :
    unifyLines cr lf (u :: rest) = u :: unifyLines cr lf rest := by
  cases rest with
  | nil => exact if_neg hu
  | cons v rest => rw [unifyLines, if_neg hu]

theorem unifyLines_crlf (rest : List α) :
    unifyLines cr lf (cr :: lf :: rest) = lf :: unifyLines cr lf rest := by
  rw [unifyLines, if_pos rfl, if_pos rfl]

theorem unifyLines_cr {rest : List α} (hrest : rest.head? ≠ some lf) :
    unifyLines cr lf (cr :: rest) = lf :: unifyLines cr lf rest := by
  cases rest with
  | nil => exact if_pos rfl
  | cons v rest => rw [unifyLines, if_pos rfl, if_neg fun hv => hrest (congrArg some hv)]

theorem writeLines_cons (eol : List α) (u : α) (rest : List α) :
    writeLines lf eol (u :: rest) = (if u = lf then eol else [u]) ++ writeLines lf eol rest := rfl

theorem writeLines_cons_of_ne {u : α} (hu : u ≠ lf) (eol rest : List α) :
    writeLines lf eol (u :: rest) = u :: writeLines lf eol rest := by
  rw [writeLines_cons, if_neg hu]
  rfl

theorem writeLines_append (eol a b : List α) :
    writeLines lf eol (a ++ b) = writeLines lf eol a ++ writeLines lf eol b := flatMap_append

/-- Written as one character, the endings are replaced one by one. -/
theorem writeLines_singleton (v : α) (text : List α) :
    writeLines lf [v] text = text.map fun u => if u = lf then v else u := by
  rw [writeLines, map_eq_flatMap]
  exact flatMap_congr fun u _ => by split <;> rfl

theorem writeLines_self (text : List α) : writeLines lf [lf] text = text := by
  rw [writeLines_singleton]
  refine (map_congr_left fun u _ => ?_).trans (map_id text)
  split
  · next hu => exact hu.symm
  · rfl

theorem unifyLines_append_of_notMem {a : List α} (ha : cr ∉ a) (b : List α) :
    unifyLines cr lf (a ++ b) = a ++ unifyLines cr lf b := by
  induction a with
  | nil => rfl
  | cons u a ih =>
    rw [mem_cons, not_or] at ha
    rw [cons_append, unifyLines_cons_of_ne (Ne.symm ha.1), ih ha.2]
    rfl

theorem unifyLines_of_notMem {text : List α} (htext : cr ∉ text) : unifyLines cr lf text = text := by
  have happend : unifyLines cr lf (text ++ []) = text ++ unifyLines cr lf [] :=
    unifyLines_append_of_notMem htext []
  rwa [unifyLines, append_nil] at happend

/-- A text may be cut before a character that is no line feed. -/
theorem unifyLines_append {b : List α} (hb : b.head? ≠ some lf) (a : List α) :
    unifyLines cr lf (a ++ b) = unifyLines cr lf a ++ unifyLines cr lf b := by
  fun_induction unifyLines cr lf a with
  | case1 => rfl
  | case2 => exact unifyLines_cr hb
  | case3 u hu => exact unifyLines_cons_of_ne hu b
  | case4 rest ih => rw [cons_append, cons_append, unifyLines_crlf, ih]; rfl
  | case5 v rest hv ih =>
    rw [cons_append, unifyLines_cr (by simpa using hv), ih]
    rfl
  | case6 u v rest hu ih =>
    rw [cons_append, unifyLines_cons_of_ne hu, ih]
    rfl

theorem notMem_unifyLines (hne : lf ≠ cr) (text : List α) : cr ∉ unifyLines cr lf text := by
  fun_induction unifyLines cr lf text with
  | case1 => exact not_mem_nil
  | case2 => simpa using hne.symm
  | case3 u hu => simpa using Ne.symm hu
  | case4 rest ih => simpa [hne.symm] using ih
  | case5 v rest hv ih => simpa [hne.symm] using ih
  | case6 u v rest hu ih => rw [mem_cons, not_or]; exact ⟨Ne.symm hu, ih⟩

/-! ## Back and forth -/

private theorem notMem_writeLines_cr (hne : lf ≠ cr) (text : List α) : lf ∉ writeLines lf [cr] text := by
  rw [writeLines, mem_flatMap]
  rintro ⟨u, -, hu⟩
  split at hu
  · exact hne (mem_singleton.mp hu)
  · next h => exact h (mem_singleton.mp hu).symm

/-- Unifying takes back the endings that were written. -/
theorem unifyLines_writeLines (hne : lf ≠ cr) {eol : List α} (heol : IsEol cr lf eol)
    {text : List α} (htext : cr ∉ text) : unifyLines cr lf (writeLines lf eol text) = text := by
  induction text with
  | nil => rfl
  | cons u rest ih =>
    rw [mem_cons, not_or] at htext
    have ih := ih htext.2
    by_cases hu : u = lf
    · subst hu
      rw [writeLines_cons, if_pos rfl]
      rcases heol with rfl | rfl | rfl
      · rw [singleton_append, unifyLines_cons_of_ne hne, ih]
      · rw [cons_append, singleton_append, unifyLines_crlf, ih]
      · rw [singleton_append, unifyLines_cr, ih]
        exact fun h => notMem_writeLines_cr hne rest (mem_of_mem_head? (Option.mem_def.mpr h))
    · rw [writeLines_cons_of_ne hu, unifyLines_cons_of_ne (Ne.symm htext.1), ih]

/-! ## Encodings -/

section Encoding

variable {cr' lf' : β} {f : α → List β}

/-- Unifying commutes with an encoding that keeps the two characters of line endings apart. -/
theorem unifyLines_flatMap (hcr : f cr = [cr']) (hlf : f lf = [lf'])
    (hcr' : ∀ u ≠ cr, cr' ∉ f u) (hlf' : ∀ u ≠ lf, lf' ∉ f u) (hne : ∀ u, f u ≠ []) (text : List α) :
    unifyLines cr' lf' (text.flatMap f) = (unifyLines cr lf text).flatMap f := by
  fun_induction unifyLines cr lf text with
  | case1 => rfl
  | case2 => rw [flatMap_singleton, flatMap_singleton, hcr, hlf, unifyLines, if_pos rfl]
  | case3 u hu =>
    rw [flatMap_singleton, unifyLines_of_notMem (hcr' u hu)]
  | case4 rest ih =>
    rw [flatMap_cons, flatMap_cons, flatMap_cons, hcr, hlf, singleton_append,
      singleton_append, unifyLines_crlf, ih]
    rfl
  | case5 v rest hv ih =>
    rw [flatMap_cons, hcr, singleton_append, unifyLines_cr, ih, flatMap_cons, hlf]
    · rfl
    · obtain ⟨first, more, hfirst⟩ := exists_cons_of_ne_nil (hne v)
      rw [flatMap_cons, hfirst, cons_append, head?_cons]
      intro heq
      exact hlf' v hv (by rw [hfirst, Option.some.inj heq]; exact mem_cons_self)
  | case6 u v rest hu ih =>
    rw [flatMap_cons, unifyLines_append_of_notMem (hcr' u hu), ih, flatMap_cons]

theorem writeLines_flatMap (hlf : f lf = [lf']) (hlf' : ∀ u ≠ lf, lf' ∉ f u) (eol text : List α) :
    writeLines lf' (eol.flatMap f) (text.flatMap f) = (writeLines lf eol text).flatMap f := by
  induction text with
  | nil => rfl
  | cons u rest ih =>
    rw [flatMap_cons, writeLines_append, ih, writeLines_cons, flatMap_append]
    by_cases hu : u = lf
    · subst hu
      rw [hlf, if_pos rfl]
      simp [writeLines]
    · rw [if_neg hu, flatMap_singleton]
      refine congrArg (· ++ _) ?_
      have hkeep : ∀ b ∈ f u, (if b = lf' then eol.flatMap f else [b]) = [b] := fun b hb =>
        if_neg fun heq : b = lf' => hlf' u hu (heq ▸ hb)
      exact (flatMap_congr hkeep).trans (flatMap_singleton' (f u))

end Encoding

/-! ## Characters that are no line endings -/

theorem exists_mem_unifyLines {P : α → Prop} (hcr : ¬ P cr) (hlf : ¬ P lf) (text : List α) :
    (∃ u ∈ unifyLines cr lf text, P u) ↔ ∃ u ∈ text, P u := by
  fun_induction unifyLines cr lf text with
  | case1 => rfl
  | case2 => simp [hcr, hlf]
  | case3 u hu => rfl
  | case4 rest ih => simp [hcr, hlf, ih]
  | case5 v rest hv ih => simp [hcr, hlf, ih]
  | case6 u v rest hu ih => simp [ih]

theorem exists_mem_writeLines {P : α → Prop} (hlf : ¬ P lf) {eol : List α} (heol : ∀ u ∈ eol, ¬ P u)
    (text : List α) : (∃ u ∈ writeLines lf eol text, P u) ↔ ∃ u ∈ text, P u := by
  constructor
  · rintro ⟨u, hu, hP⟩
    obtain ⟨v, hv, hmem⟩ := mem_flatMap.mp hu
    split at hmem
    · exact absurd hP (heol u hmem)
    · exact ⟨v, hv, mem_singleton.mp hmem ▸ hP⟩
  · rintro ⟨u, hu, hP⟩
    refine ⟨u, mem_flatMap.mpr ⟨u, hu, ?_⟩, hP⟩
    rw [if_neg fun heq : u = lf => hlf (heq ▸ hP)]
    exact mem_singleton_self u

/-- A text begins with the same character that is no line ending. -/
theorem head?_unifyLines {b : α} (hcr : b ≠ cr) (hlf : b ≠ lf) (text : List α) :
    (unifyLines cr lf text).head? = some b ↔ text.head? = some b := by
  fun_induction unifyLines cr lf text with
  | case1 => rfl
  | case2 => simp [hcr.symm, hlf.symm]
  | case3 u hu => rfl
  | case4 rest ih => simp [hcr.symm, hlf.symm]
  | case5 v rest hv ih => simp [hcr.symm, hlf.symm]
  | case6 u v rest hu ih => simp

theorem head?_writeLines {b : α} (hlf : b ≠ lf) {eol : List α} (heol : b ∉ eol) (hne : eol ≠ [])
    (text : List α) : (writeLines lf eol text).head? = some b ↔ text.head? = some b := by
  cases text with
  | nil => rfl
  | cons u rest =>
    by_cases hu : u = lf
    · obtain ⟨first, more, rfl⟩ := exists_cons_of_ne_nil hne
      rw [writeLines_cons, if_pos hu, cons_append, head?_cons, head?_cons, hu]
      refine iff_of_false (fun heq => heol ?_) fun heq => hlf (Option.some.inj heq).symm
      rw [Option.some.inj heq]
      exact mem_cons_self
    · rw [writeLines_cons_of_ne hu, head?_cons, head?_cons]

end Taomni.LineEndings
