import Mathlib.Data.List.Count
import Mathlib.Data.List.Infix

/-!
# Quoted texts

A text is written between quotes with its own quotes doubled. A reader takes it off the front of a longer
text, and may know escapes that the writer does not.
-/

namespace Taomni

open List

variable {α β : Type} [DecidableEq α]

/-- What is read, and the text after it. -/
abbrev Reader (α β : Type) := List α → Option (β × List α)

/-! ## Words -/

/-- A word that has to come next. -/
def expect (word text : List α) : Option (List α) :=
  if word.isPrefixOf text then some (text.drop word.length) else none

@[simp] theorem expect_append (word rest : List α) : expect word (word ++ rest) = some rest := by
  unfold expect
  rw [if_pos (List.isPrefixOf_iff_prefix.mpr (prefix_append word rest)), drop_left]

theorem expect_eq_none {word text : List α} (h : ¬word <+: text) : expect word text = none :=
  if_neg (mt isPrefixOf_iff_prefix.mp h)

theorem expect_cons_ne {c d : α} {word text : List α} (h : c ≠ d) :
    expect (c :: word) (d :: text) = none :=
  expect_eq_none fun hprefix => h (cons_prefix_cons.mp hprefix).1

/-! ## Quotes -/

/-- The quotes in a text doubled. -/
def doubled (q : α) (text : List α) : List α := text.flatMap fun c => if c = q then [q, q] else [c]

/-- How a reader reads the letters after an escape. -/
structure Escapes (α : Type) where
  isEscape : α → Bool
  decode : α → List α

/-- No letter is an escape. -/
def Escapes.none : Escapes α := ⟨fun _ => false, fun c => [c]⟩

/-- What comes after an opening quote, up to the closing one. -/
@[grind =] def readQuoted (q : α) (esc : Escapes α) : Reader α (List α)
  | [] => .none
  | [c] => if c = q then some ([], []) else .none
  | c :: d :: rest =>
    if c = q then
      if d = q then (readQuoted q esc rest).map fun r => (q :: r.1, r.2) else some ([], d :: rest)
    else if esc.isEscape c then (readQuoted q esc rest).map fun r => (esc.decode d ++ r.1, r.2)
    else (readQuoted q esc (d :: rest)).map fun r => (c :: r.1, r.2)

/-- What is read of a text that was written with its quotes doubled, when no escape takes a quote. -/
def reread (q : α) (esc : Escapes α) : List α → Option (List α)
  | [] => some []
  | [c] => if c ≠ q ∧ esc.isEscape c then .none else some [c]
  | c :: d :: rest =>
    if c ≠ q ∧ esc.isEscape c then
      if d = q then .none else (reread q esc rest).map (esc.decode d ++ ·)
    else (reread q esc (d :: rest)).map (c :: ·)

theorem reread_none (q : α) (text : List α) : reread q Escapes.none text = some text := by
  have hnot (c : α) : ¬(c ≠ q ∧ (Escapes.none : Escapes α).isEscape c = true) :=
    fun h => Bool.false_ne_true h.2
  induction text with
  | nil => rfl
  | cons c text ih =>
    cases text with
    | nil => exact if_neg (hnot c)
    | cons d rest =>
      rw [reread, if_neg (hnot c), ih]
      rfl

@[simp] theorem doubled_nil (q : α) : doubled q [] = [] := rfl

theorem doubled_cons_self (q : α) (text : List α) :
    doubled q (q :: text) = q :: q :: doubled q text := by
  unfold doubled
  rw [flatMap_cons, if_pos rfl]
  rfl

variable {q : α}

theorem doubled_cons_ne {c : α} (h : c ≠ q) (text : List α) :
    doubled q (c :: text) = c :: doubled q text := by
  unfold doubled
  rw [flatMap_cons, if_neg h]
  rfl

variable {esc : Escapes α}

theorem readQuoted_cons {c : α} {text : List α} (hq : c ≠ q) (hesc : ¬esc.isEscape c = true) :
    readQuoted q esc (c :: text) = (readQuoted q esc text).map fun r => (c :: r.1, r.2) := by
  cases text with
  | nil => exact if_neg hq
  | cons d rest => rw [readQuoted, if_neg hq, if_neg hesc]

theorem readQuoted_close {rest : List α} (h : rest.head? ≠ some q) :
    readQuoted q esc (q :: rest) = some ([], rest) := by
  cases rest with
  | nil => rw [readQuoted, if_pos rfl]
  | cons d rest => rw [readQuoted, if_pos rfl, if_neg fun hd => h (congrArg some hd)]

/-- A letter that is no escape, written with its quotes doubled. -/
theorem readQuoted_doubled_cons {c : α} (hc : ¬(c ≠ q ∧ esc.isEscape c = true))
    (text rest : List α) : readQuoted q esc (doubled q (c :: text) ++ rest) =
      (readQuoted q esc (doubled q text ++ rest)).map fun r => (c :: r.1, r.2) := by
  by_cases hq : c = q
  · rw [hq, doubled_cons_self, cons_append, cons_append, readQuoted, if_pos rfl, if_pos rfl]
  · rw [doubled_cons_ne hq, cons_append, readQuoted_cons hq fun hesc => hc ⟨hq, hesc⟩]

/-- The quotes of a quoted text are found again. -/
theorem readQuoted_doubled {text value rest : List α}
    (h : reread q esc text = some value) (hrest : rest.head? ≠ some q) :
    readQuoted q esc (doubled q text ++ q :: rest) = some (value, rest) := by
  have hplain {c : α} {text value : List α} (hc : ¬(c ≠ q ∧ esc.isEscape c = true))
      (ih : readQuoted q esc (doubled q text ++ q :: rest) = some (value, rest)) :
      readQuoted q esc (doubled q (c :: text) ++ q :: rest) = some (c :: value, rest) := by
    rw [readQuoted_doubled_cons hc, ih]
    rfl
  have hnil : readQuoted q esc (doubled q [] ++ q :: rest) = some ([], rest) := readQuoted_close hrest
  induction text using reread.induct q esc generalizing value with
  | case1 =>
    obtain rfl := Option.some.inj h
    exact hnil
  | case2 c hc =>
    rw [reread, if_pos hc] at h
    cases h
  | case3 c hc =>
    rw [reread, if_neg hc] at h
    obtain rfl := Option.some.inj h
    exact hplain hc hnil
  | case4 c rest hc =>
    rw [reread, if_pos hc, if_pos rfl] at h
    cases h
  | case5 c d text hc hd ih =>
    rw [reread, if_pos hc, if_neg hd] at h
    obtain ⟨value, hvalue, rfl⟩ := Option.map_eq_some_iff.mp h
    rw [doubled_cons_ne hc.1, doubled_cons_ne hd, cons_append, cons_append, readQuoted,
      if_neg hc.1, if_pos hc.2, ih hvalue]
    rfl
  | case6 c d text hc ih =>
    rw [reread, if_neg hc] at h
    obtain ⟨value, hvalue, rfl⟩ := Option.map_eq_some_iff.mp h
    exact hplain hc (ih hvalue)

/-! ## Lists -/

/-- One item or more, with a separator between them. -/
@[grind =] def readSeparated (sep : List α) (item : Reader α β) : ℕ → Reader α (List β)
  | 0, _ => none
  | n + 1, text =>
    (item text).bind fun (x, rest) =>
      match expect sep rest with
      | some rest => (readSeparated sep item n rest).map fun r => (x :: r.1, r.2)
      | none => some ([x], rest)

/-- Items that are read back one by one are read back as a list. -/
theorem readSeparated_intercalate {γ : Type} {sep : List α} {item : Reader α β} {write : γ → List α}
    {value : γ → β} {follows : List α → Prop} (hsep : ∀ rest, follows (sep ++ rest)) {tail : List α}
    (htail : follows tail) (hend : expect sep tail = none) {xs : List γ} (hne : xs ≠ [])
    (hitem : ∀ x ∈ xs, ∀ rest, follows rest → item (write x ++ rest) = some (value x, rest)) {n : ℕ}
    (hn : xs.length ≤ n) : readSeparated sep item n (sep.intercalate (xs.map write) ++ tail) =
      some (xs.map value, tail) := by
  induction xs generalizing n with
  | nil => exact absurd rfl hne
  | cons x xs ih =>
    obtain ⟨n, rfl⟩ : ∃ m, n = m + 1 := Nat.exists_eq_succ_of_ne_zero (by
      rw [length_cons] at hn
      omega)
    have hfirst := hitem x mem_cons_self
    cases xs with
    | nil =>
      rw [map_singleton, intercalate_singleton, readSeparated, hfirst tail htail,
        Option.bind_some]
      dsimp only
      rw [hend]
      rfl
    | cons y xs =>
      have hrest := ih (cons_ne_nil y xs) (fun x hx => hitem x (mem_cons_of_mem _ hx))
        (Nat.le_of_succ_le_succ hn)
      rw [map_cons, map_cons, intercalate_cons_cons, ← map_cons, append_assoc,
        append_assoc, readSeparated, hfirst _ (hsep _), Option.bind_some]
      dsimp only
      rw [expect_append]
      dsimp only
      rw [hrest]
      rfl

variable {item : Reader α β}

variable {sep : List α}

theorem readSeparated_eq_some {n : ℕ} {text back : List α} {v : β} {vs : List β}
    (h : readSeparated sep item n text = some (v :: vs, back)) : ∃ rest, item text = some (v, rest) ∧
      ((∃ m next, expect sep rest = some next ∧ readSeparated sep item m next = some (vs, back)) ∨
        expect sep rest = none ∧ vs = [] ∧ back = rest) := by
  cases n with
  | zero => cases h
  | succ n =>
    rw [readSeparated] at h
    obtain ⟨⟨w, rest⟩, hitem, h⟩ := Option.bind_eq_some_iff.mp h
    dsimp only at h
    split at h
    · next after hsep =>
      obtain ⟨⟨ws, back⟩, hread, heq⟩ := Option.map_eq_some_iff.mp h
      cases heq
      exact ⟨rest, hitem, .inl ⟨n, after, hsep, hread⟩⟩
    · next hsep =>
      cases h
      exact ⟨back, hitem, .inr ⟨hsep, rfl, rfl⟩⟩

variable {follows : List α → Prop}

/-- What one item says when it is read back, all of them say. -/
theorem forall_of_readSeparated {write : β → List α}
    {good : β → Prop} (hsep : ∀ rest, follows (sep ++ rest)) {tail : List α} (htail : follows tail)
    (hend : expect sep tail = none) {xs : List β} (hne : xs ≠ [])
    (hitem : ∀ x ∈ xs, ∀ rest back, follows rest → item (write x ++ rest) = some (x, back) → good x ∧ back = rest)
    {n : ℕ} {back : List α}
    (h : readSeparated sep item n (sep.intercalate (xs.map write) ++ tail) = some (xs, back)) :
    (∀ x ∈ xs, good x) ∧ back = tail := by
  induction xs generalizing n with
  | nil => exact absurd rfl hne
  | cons x xs ih =>
    obtain ⟨hx, hxs⟩ := forall_mem_cons.mp hitem
    obtain ⟨rest, hread, hnext⟩ := readSeparated_eq_some h
    cases xs with
    | nil =>
      rw [map_singleton, intercalate_singleton] at hread
      obtain ⟨hgood, rfl⟩ := hx tail rest htail hread
      rcases hnext with ⟨m, next, hexpect, -⟩ | ⟨-, -, hback⟩
      · rw [hend] at hexpect
        cases hexpect
      · exact ⟨forall_mem_singleton.mpr hgood, hback⟩
    | cons y xs =>
      rw [map_cons, map_cons, intercalate_cons_cons, ← map_cons, append_assoc,
        append_assoc] at hread
      obtain ⟨hgood, rfl⟩ := hx _ rest (hsep _) hread
      rw [expect_append] at hnext
      rcases hnext with ⟨m, next, hexpect, hrest⟩ | ⟨hexpect, -⟩
      · cases hexpect
        obtain ⟨hall, hback⟩ := ih (cons_ne_nil y xs) hxs hrest
        exact ⟨forall_mem_cons.mpr ⟨hgood, hall⟩, hback⟩
      · cases hexpect

/-- Items at the front are read one by one. -/
theorem readSeparated_append {γ : Type} {write : γ → List α}
    {value : γ → β} (hsep : ∀ rest, follows (sep ++ rest)) {xs : List γ}
    (hitem : ∀ x ∈ xs, ∀ rest, follows rest → item (write x ++ rest) = some (value x, rest)) (n : ℕ)
    (text : List α) :
    readSeparated sep item (xs.length + n) ((xs.flatMap fun x => write x ++ sep) ++ text)
      = (readSeparated sep item n text).map fun r => (xs.map value ++ r.1, r.2) := by
  induction xs with
  | nil =>
    rw [length_nil, Nat.zero_add]
    exact Option.map_id'.symm
  | cons x xs ih =>
    obtain ⟨hx, hxs⟩ := forall_mem_cons.mp hitem
    rw [length_cons, Nat.add_right_comm, flatMap_cons, append_assoc, append_assoc,
      readSeparated, hx _ (hsep _), Option.bind_some]
    dsimp only
    rw [expect_append]
    dsimp only
    rw [ih hxs, Option.map_map]
    rfl

omit [DecidableEq α] in
theorem intercalate_append (sep : List α) {xs ys : List (List α)} (hxs : xs ≠ []) (hys : ys ≠ []) :
    sep.intercalate (xs ++ ys) = sep.intercalate xs ++ (sep ++ sep.intercalate ys) := by
  induction xs with
  | nil => exact absurd rfl hxs
  | cons x xs ih =>
    cases xs with
    | nil => rw [singleton_append, intercalate_cons_of_ne_nil hys, intercalate_singleton,
        append_assoc]
    | cons z xs =>
      rw [cons_append, cons_append, intercalate_cons_cons, ← cons_append,
        ih (cons_ne_nil z xs), intercalate_cons_cons]
      simp only [append_assoc]

omit [DecidableEq α] in
/-- Lists of items, each with separators, and with separators between them. -/
theorem intercalate_flatten (sep : List α) {xss : List (List (List α))} (h : ∀ xs ∈ xss, xs ≠ []) :
    sep.intercalate (xss.map fun xs => sep.intercalate xs) = sep.intercalate xss.flatten := by
  induction xss with
  | nil => rfl
  | cons xs xss ih =>
    obtain ⟨hxs, hxss⟩ := forall_mem_cons.mp h
    cases xss with
    | nil => rw [map_singleton, intercalate_singleton, flatten_singleton]
    | cons ys xss =>
      have hrest : (ys :: xss).flatten ≠ [] := by
        rw [flatten_cons]
        exact append_ne_nil_of_left_ne_nil (hxss ys mem_cons_self) _
      rw [flatten_cons, intercalate_append sep hxs hrest, ← ih hxss, map_cons, map_cons,
        intercalate_cons_cons, append_assoc]

omit [DecidableEq α] in
/-- All items but the last have a separator after them. -/
theorem intercalate_append_of_ne_nil (sep : List α) (xs : List (List α)) {ys : List (List α)} (hys : ys ≠ []) :
    sep.intercalate (xs ++ ys) = (xs.flatMap fun x => x ++ sep) ++ sep.intercalate ys := by
  induction xs with
  | nil => rfl
  | cons x xs ih =>
    rw [cons_append, intercalate_cons_of_ne_nil (append_ne_nil_of_right_ne_nil _ hys), ih,
      flatMap_cons]
    simp only [append_assoc]

omit [DecidableEq α] in
theorem mem_intercalate {sep : List α} {xs : List (List α)} {c : α} (h : c ∈ sep.intercalate xs) :
    c ∈ sep ∨ ∃ x ∈ xs, c ∈ x := by
  rcases eq_nil_or_concat' xs with rfl | ⟨init, last, rfl⟩
  · cases h
  rw [intercalate_append_of_ne_nil sep init (cons_ne_nil _ _), intercalate_singleton] at h
  rcases mem_append.mp h with h | h
  · obtain ⟨x, hx, hc⟩ := mem_flatMap.mp h
    rcases mem_append.mp hc with hc | hc
    · exact .inr ⟨x, mem_append_left _ hx, hc⟩
    · exact .inl hc
  · exact .inr ⟨last, mem_append_right _ mem_cons_self, h⟩

omit [DecidableEq α] in
theorem length_le_intercalate (sep : List α) {xs : List (List α)} (h : ∀ x ∈ xs, x ≠ []) :
    xs.length ≤ (sep.intercalate xs).length := by
  induction xs with
  | nil => exact Nat.zero_le _
  | cons x xs ih =>
    have hx := length_pos_iff.mpr (h x mem_cons_self)
    cases xs with
    | nil =>
      rw [intercalate_singleton]
      exact hx
    | cons y xs =>
      have hrest := ih fun x hx => h x (mem_cons_of_mem _ hx)
      rw [intercalate_cons_cons, length_append, length_append, length_cons]
      omega

end Taomni

/-!
# Doubled letters taken back

A reader that does not look for the end of what it reads puts one letter for every two of them, and so
also takes pairs that the writer did not make.
-/

namespace Taomni

open List

variable {α : Type} [DecidableEq α] {q c d : α} {text : List α}

/-- One letter for two of it, from the left. -/
@[grind =] def undoubled (q : α) : List α → List α
  | c :: d :: text =>
    if c = q ∧ d = q then q :: undoubled q text else c :: undoubled q (d :: text)
  | text => text

theorem undoubled_pair (q : α) (text : List α) : undoubled q (q :: q :: text) = q :: undoubled q text := by
  rw [undoubled, if_pos ⟨rfl, rfl⟩]

theorem undoubled_cons (h : ¬(c = q ∧ text.head? = some q)) :
    undoubled q (c :: text) = c :: undoubled q text := by
  cases text with
  | nil => rfl
  | cons d text => rw [undoubled, if_neg fun hpair => h ⟨hpair.1, congrArg some hpair.2⟩]

theorem undoubled_doubled (q : α) (text : List α) : undoubled q (doubled q text) = text := by
  induction text with
  | nil => rfl
  | cons c text ih =>
    by_cases hc : c = q
    · rw [hc, doubled_cons_self, undoubled_pair, ih]
    · rw [doubled_cons_ne hc, undoubled_cons fun h => hc h.1, ih]

theorem mem_of_mem_undoubled (h : c ∈ undoubled q text) : c ∈ text := by
  fun_induction undoubled q text with
  | case1 d e text hpair ih =>
    rcases mem_cons.mp h with rfl | h
    · exact mem_cons.mpr (.inl hpair.1.symm)
    · exact mem_cons_of_mem _ (mem_cons_of_mem _ (ih h))
  | case2 d e text hpair ih =>
    rcases mem_cons.mp h with rfl | h
    · exact mem_cons_self
    · exact mem_cons_of_mem _ (ih h)
  | case3 text hshort => exact h

/-! ## Pairs -/

omit [DecidableEq α] in
theorem pair_infix_cons : [c, c] <:+: d :: text ↔ (d = c ∧ text.head? = some c) ∨ [c, c] <:+: text := by
  rw [infix_cons_iff, cons_prefix_cons]
  refine or_congr ⟨fun ⟨heq, hhead⟩ => ⟨heq.symm, ?_⟩, fun ⟨heq, hhead⟩ => ⟨heq.symm, ?_⟩⟩ Iff.rfl
  · obtain ⟨rest, rfl⟩ := hhead
    rfl
  · obtain ⟨rest, rfl⟩ := List.head?_eq_some_iff.mp hhead
    exact ⟨rest, rfl⟩

/-- A text without two of a letter in turn. -/
theorem undoubled_of_noPair (h : ¬[q, q] <:+: text) : undoubled q text = text := by
  induction text with
  | nil => rfl
  | cons c text ih =>
    obtain ⟨hhead, htail⟩ := not_or.mp (mt pair_infix_cons.mpr h)
    rw [undoubled_cons hhead, ih htail]

theorem count_undoubled_of_ne (h : d ≠ q) : (undoubled q text).count d = text.count d := by
  fun_induction undoubled q text with
  | case1 a b text hpair ih =>
    rw [hpair.1, hpair.2, count_cons_of_ne h.symm, ih, count_cons_of_ne h.symm,
      count_cons_of_ne h.symm]
  | case2 a b text hpair ih => rw [count_cons, ih, ← count_cons]
  | case3 text hshort => rfl

theorem count_undoubled_le (q : α) (text : List α) : (undoubled q text).count q ≤ text.count q := by
  fun_induction undoubled q text with
  | case1 a b text hpair ih =>
    rw [hpair.1, hpair.2, count_cons_self, count_cons_self, count_cons_self]
    omega
  | case2 a b text hpair ih =>
    rw [count_cons, count_cons]
    omega
  | case3 text hshort => exact Nat.le_refl _

/-- A pair leaves fewer of its letter. -/
theorem count_undoubled_lt (h : [q, q] <:+: text) : (undoubled q text).count q < text.count q := by
  fun_induction undoubled q text with
  | case1 a b text hpair ih =>
    have hle := count_undoubled_le q text
    rw [hpair.1, hpair.2, count_cons_self, count_cons_self, count_cons_self]
    omega
  | case2 a b text hpair ih =>
    rcases pair_infix_cons.mp h with ⟨ha, hb⟩ | h
    · exact absurd ⟨ha, Option.some.inj hb⟩ hpair
    · have hlt := ih h
      rw [count_cons, count_cons]
      omega
  | case3 text hshort =>
    match text, h.length_le, hshort with
    | [], hle, _ => nomatch hle
    | [a], hle, _ => exact absurd hle (Nat.not_succ_le_self 1)
    | a :: b :: text, _, hshort => exact absurd rfl (hshort a b text)

theorem head?_doubled (q : α) (text : List α) : (doubled q text).head? = text.head? := by
  cases text with
  | nil => rfl
  | cons c text =>
    by_cases hc : c = q
    · rw [hc, doubled_cons_self]
      rfl
    · rw [doubled_cons_ne hc]
      rfl

/-- Doubling one letter makes no pairs of another. -/
theorem pair_infix_doubled (h : c ≠ q) : [c, c] <:+: doubled q text ↔ [c, c] <:+: text := by
  induction text with
  | nil => rfl
  | cons d text ih =>
    by_cases hd : d = q
    · rw [hd, doubled_cons_self, pair_infix_cons, pair_infix_cons, ih, pair_infix_cons]
      simp only [h.symm, false_and, false_or]
    · rw [doubled_cons_ne hd, pair_infix_cons, head?_doubled, ih, pair_infix_cons]

theorem count_doubled_of_ne (h : c ≠ q) : (doubled q text).count c = text.count c := by
  rw [← count_undoubled_of_ne h, undoubled_doubled]

/-! ## One letter after the other -/

variable {qs : List α}

theorem mem_of_mem_foldl_undoubled
    (h : c ∈ qs.foldl (fun text q => undoubled q text) text) : c ∈ text := by
  induction qs generalizing text with
  | nil => exact h
  | cons q qs ih => exact mem_of_mem_undoubled (ih h)

theorem count_foldl_undoubled_le (c : α) (qs : List α) (text : List α) :
    (qs.foldl (fun text q => undoubled q text) text).count c ≤ text.count c := by
  induction qs generalizing text with
  | nil => exact Nat.le_refl _
  | cons q qs ih =>
    refine (ih (undoubled q text)).trans ?_
    by_cases hc : c = q
    · rw [hc]
      exact count_undoubled_le q text
    · exact (count_undoubled_of_ne hc).le

/-- A text is left alone if it has no pairs of any letter. -/
theorem foldl_undoubled_eq_self_iff :
    qs.foldl (fun text q => undoubled q text) text = text ↔ ∀ q ∈ qs, ¬[q, q] <:+: text := by
  induction qs generalizing text with
  | nil => exact ⟨fun _ => nofun, fun _ => rfl⟩
  | cons q qs ih =>
    rw [foldl_cons, forall_mem_cons]
    by_cases hpair : [q, q] <:+: text
    · have hlt := (count_foldl_undoubled_le q qs (undoubled q text)).trans_lt (count_undoubled_lt hpair)
      exact ⟨fun heq => absurd (congrArg (List.count q) heq) hlt.ne, fun h => absurd hpair h.1⟩
    · rw [undoubled_of_noPair hpair, ih]
      exact (and_iff_right hpair).symm

/-- A doubled text comes back if it has no pairs of the other letters. -/
theorem foldl_undoubled_doubled_iff (hnodup : qs.Nodup) (hq : q ∈ qs) :
    qs.foldl (fun text q => undoubled q text) (doubled q text) = text
      ↔ ∀ c ∈ qs, c ≠ q → ¬[c, c] <:+: text := by
  induction qs with
  | nil => cases hq
  | cons d qs ih =>
    obtain ⟨hd, hnodup⟩ := nodup_cons.mp hnodup
    rw [foldl_cons, forall_mem_cons]
    by_cases heq : d = q
    · subst heq
      rw [undoubled_doubled, foldl_undoubled_eq_self_iff]
      refine ⟨fun h => ⟨fun hne => absurd rfl hne, fun c hc _ => h c hc⟩, fun h c hc => h.2 c hc ?_⟩
      exact ne_of_mem_of_not_mem hc hd
    · have hq := (mem_cons.mp hq).resolve_left (Ne.symm heq)
      by_cases hpair : [d, d] <:+: text
      · have hlt := (count_foldl_undoubled_le d qs (undoubled d (doubled q text))).trans_lt
          (count_undoubled_lt ((pair_infix_doubled heq).mpr hpair))
        rw [count_doubled_of_ne heq] at hlt
        exact ⟨fun h => absurd (congrArg (List.count d) h) hlt.ne, fun h => absurd hpair (h.1 heq)⟩
      · rw [undoubled_of_noPair (mt (pair_infix_doubled heq).mp hpair), ih hnodup hq]
        exact (and_iff_right fun _ => hpair).symm

end Taomni
