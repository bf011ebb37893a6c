import Taomni.Git.Queries

/-!
# The short status read back

Reference: `src-tauri/src/git/queries.rs`.
-/

namespace Taomni.Git

open List
open Agent (isWhitespace trim trim_inside)
open Sockscap (strip textLines stripReturn)

/-! ## The arrow -/

variable {word : Text}

theorem splitOnce_eq_none (hne : word ≠ []) {text : Text} :
    splitOnce word text = none ↔ ¬word <:+: text := by
  induction text with
  | nil =>
    rw [splitOnce, if_neg (mt List.isEmpty_iff.mp hne), infix_nil]
    exact iff_of_true rfl hne
  | cons c text ih =>
    rw [splitOnce, infix_cons_iff, not_or]
    split
    · rename_i h
      exact iff_of_false (fun h => Option.some_ne_none _ h) fun hnot =>
        hnot.1 (List.isPrefixOf_iff_prefix.mp h)
    · rename_i h
      rw [Option.map_eq_none_iff, ih, and_iff_right (mt isPrefixOf_iff_prefix.mpr h)]

/-- A word is found at its first place. -/
theorem splitOnce_append {front : Text} (hne : word ≠ []) (hinside : ¬word <:+: front)
    (hlast : ∀ tail, tail ≠ [] → tail <:+ front → ¬tail <+: word) (rest : Text) :
    splitOnce word (front ++ (word ++ rest)) = some (front, rest) := by
  induction front with
  | nil =>
    obtain ⟨c, word, rfl⟩ := exists_cons_of_ne_nil hne
    have hstart : (c :: word).isPrefixOf (c :: (word ++ rest)) = true :=
      isPrefixOf_iff_prefix.mpr (prefix_append (c :: word) rest)
    rw [nil_append, cons_append, splitOnce, if_pos hstart, ← cons_append,
      drop_left]
  | cons c front ih =>
    rw [cons_append, splitOnce, if_neg, ih (fun h => hinside (infix_cons h)) fun tail htail h =>
      hlast tail htail (h.trans (suffix_cons c front))]
    · rfl
    · rw [List.isPrefixOf_iff_prefix, ← cons_append]
      intro h
      rcases prefix_or_prefix_of_prefix h (prefix_append (c :: front) (word ++ rest)) with h | h
      · exact hinside h.isInfix
      · exact hlast _ (cons_ne_nil c front) suffix_rfl h

theorem infix_of_infix_append {c : Char} {front rest : Text} (hc : c ∉ front)
    (h : c :: word <:+: front ++ rest) : c :: word <:+: rest := by
  induction front with
  | nil => exact h
  | cons d front ih =>
    rw [mem_cons, not_or] at hc
    rw [cons_append, infix_cons_iff] at h
    refine ih hc.2 (h.resolve_left fun hstart => hc.1 (cons_prefix_cons.mp hstart).1)

theorem infix_of_infix_concat {c : Char} {front : Text} (hc : c ∉ word) (hne : word ≠ [])
    (h : word <:+: front ++ [c]) : word <:+: front := by
  rw [infix_concat_iff] at h
  refine h.resolve_left fun hsuffix => ?_
  rw [suffix_concat_iff] at hsuffix
  rcases hsuffix with hnil | ⟨t, rfl, -⟩
  · exact hne hnil
  · exact hc (mem_append_right _ mem_cons_self)

variable {name : Text}

theorem prefix_of_prefix_flatMap (hword : '\\' ∉ word)
    (h : word <+: name.flatMap quoteChar) : word <+: name := by
  induction word generalizing name with
  | nil => exact nil_prefix
  | cons c word ih =>
    rw [mem_cons, not_or] at hword
    cases name with
    | nil => exact h
    | cons d name =>
      rw [flatMap_cons] at h
      rcases quoteChar_cases d with ⟨heq, -⟩ | ⟨rest, heq, -⟩
      · rw [heq, singleton_append, cons_prefix_cons] at h
        exact cons_prefix_cons.mpr ⟨h.1, ih hword.2 h.2⟩
      · rw [heq, cons_append, cons_prefix_cons] at h
        exact absurd h.1.symm hword.1

theorem arrow_infix_flatMap : arrow <:+: name.flatMap quoteChar ↔ arrow <:+: name := by
  constructor
  · intro h
    induction name with
    | nil => exact h
    | cons c name ih =>
      rw [flatMap_cons] at h
      by_cases hspace : ' ' ∈ quoteChar c
      · obtain rfl := eq_of_space_mem_quoteChar hspace
        rw [infix_cons_iff]
        have hspace : quoteChar ' ' = [' '] := by decide
        rw [hspace, singleton_append, infix_cons_iff] at h
        refine h.imp (fun hstart => ?_) ih
        refine prefix_of_prefix_flatMap (by decide) ?_
        rw [flatMap_cons, hspace]
        exact hstart
      · exact infix_cons (ih (infix_of_infix_append hspace h))
  · rintro ⟨before, after, rfl⟩
    have harrow : arrow.flatMap quoteChar = arrow := by decide
    rw [flatMap_append, flatMap_append, harrow]
    exact ⟨_, _, rfl⟩

theorem arrow_infix_quoted : arrow <:+: quoted name ↔ arrow <:+: name := by
  refine Iff.trans ?_ arrow_infix_flatMap
  constructor
  · intro h
    have hfront : ' ' ∉ ['"'] := by decide
    have hlast : '"' ∉ arrow := by decide
    exact infix_of_infix_concat hlast (cons_ne_nil _ _) (infix_of_infix_append hfront h)
  · exact fun h => infix_cons (h.trans (prefix_append _ _).isInfix)

theorem arrow_infix_quotePath : arrow <:+: quotePath name ↔ arrow <:+: name := by
  unfold quotePath
  split
  · exact arrow_infix_quoted
  · exact Iff.rfl

/-- Taking back quotes makes no arrow. -/
theorem infix_of_infix_replacePair {a b by' : Char} (hby : by' ∉ word) {text : Text}
    (h : word <:+: replacePair a b by' text) : word <:+: text := by
  have hstart {word : Text} (hby : by' ∉ word) {text : Text} (h : word <+: replacePair a b by' text) :
      word <+: text := by
    induction word generalizing text with
    | nil => exact nil_prefix
    | cons c word ih =>
      rw [mem_cons, not_or] at hby
      match text with
      | [] => exact h
      | [_] => exact h
      | d :: e :: text =>
        rw [replacePair] at h
        split at h
        · exact absurd (cons_prefix_cons.mp h).1.symm hby.1
        · rw [cons_prefix_cons] at h
          exact cons_prefix_cons.mpr ⟨h.1, ih hby.2 h.2⟩
  induction text using replacePair.induct a b with
  | case1 => exact h
  | case2 d => exact h
  | case3 d e text hpair ih =>
    rw [replacePair, if_pos hpair, infix_cons_iff] at h
    rcases h with h | h
    · cases word with
      | nil => exact nil_infix
      | cons c word =>
        rw [mem_cons, not_or] at hby
        exact absurd (cons_prefix_cons.mp h).1.symm hby.1
    · exact infix_cons (infix_cons (ih h))
  | case4 d e text hne ih =>
    have hcons : replacePair a b by' (d :: e :: text) = d :: replacePair a b by' (e :: text) := by
      rw [replacePair, if_neg hne]
    rw [infix_cons_iff]
    rw [hcons, infix_cons_iff] at h
    refine h.imp (fun h => hstart hby ?_) ih
    rw [hcons]
    exact h

theorem arrow_infix_of_unquotePath {s : Text} (h : arrow <:+: unquotePath s) : arrow <:+: s := by
  unfold unquotePath at h
  dsimp only at h
  split at h
  · have hinner := infix_of_infix_replacePair (by decide) (infix_of_infix_replacePair (by decide) h)
    exact (hinner.trans ((List.dropLast_prefix _).isInfix.trans (drop_suffix _ _).isInfix)).trans
      (trim_inside s)
  · exact h.trans (trim_inside s)

/-- Nothing before the first place has the word. -/
theorem splitOnce_eq_some {text a b : Text} (hne : word ≠ [])
    (h : splitOnce word text = some (a, b)) : a <+: text ∧ ¬word <:+: a := by
  induction text generalizing a b with
  | nil =>
    rw [splitOnce, if_neg (mt List.isEmpty_iff.mp hne)] at h
    cases h
  | cons c text ih =>
    rw [splitOnce] at h
    split at h
    · obtain ⟨rfl, -⟩ := Prod.mk.inj (Option.some.inj h)
      exact ⟨List.nil_prefix, fun h => hne (infix_nil.mp h)⟩
    · rename_i hnot
      obtain ⟨⟨a', b'⟩, hsplit, heq⟩ := Option.map_eq_some_iff.mp h
      obtain ⟨rfl, -⟩ := Prod.mk.inj heq
      obtain ⟨hstart, hinside⟩ := ih hsplit
      have hcons : c :: a' <+: c :: text := cons_prefix_cons.mpr ⟨rfl, hstart⟩
      refine ⟨hcons, fun h => ?_⟩
      rw [infix_cons_iff] at h
      exact h.elim (fun h => hnot (List.isPrefixOf_iff_prefix.mpr (h.trans hcons))) hinside

/-! ## One change -/

/-- The paths of a change as the short status shows them. -/
def renderPaths (oldPath : Option Text) (path : Text) : Text :=
  match oldPath with
  | none => quotePath path
  | some old => quotePath old ++ (arrow ++ quotePath path)

/-- The names are printable ASCII, and the first of them has no arrow. -/
def StatusReadable (oldPath : Option Text) (path : Text) : Prop :=
  (∀ c ∈ path, plain c = true) ∧ (∀ old ∈ oldPath, ∀ c ∈ old, plain c = true) ∧
    ¬arrow <:+: oldPath.getD path

/-- No end of a name as it is written begins an arrow. -/
theorem not_tail_quotePath {tail : Text} (hne : tail ≠ []) (h : tail <:+ quotePath name) :
    ¬tail <+: arrow := by
  intro hstart
  unfold quotePath at h
  split at h
  · unfold quoted at h
    rw [← cons_append, suffix_concat_iff] at h
    obtain ⟨t, rfl, -⟩ := h.resolve_left hne
    have hmem := hstart.subset (mem_append_right t (mem_singleton_self '"'))
    exact absurd hmem (by decide)
  · rename_i hnone
    rw [Bool.or_eq_true, not_or, contains_iff_mem] at hnone
    obtain ⟨c, tail, rfl⟩ := exists_cons_of_ne_nil hne
    rw [(cons_prefix_cons.mp hstart).1] at h
    exact hnone.2 (h.subset mem_cons_self)

theorem splitRename_iff (oldPath : Option Text) (path : Text) :
    splitRename (renderPaths oldPath path) = (oldPath, path) ↔ StatusReadable oldPath path := by
  have harrow : arrow ≠ [] := cons_ne_nil _ _
  unfold StatusReadable splitRename
  cases oldPath with
  | none =>
    have hbody : renderPaths none path = quotePath path := rfl
    rw [hbody]
    cases hsplit : splitOnce arrow (quotePath path) with
    | none =>
      rw [splitOnce_eq_none harrow, arrow_infix_quotePath] at hsplit
      show (none, unquotePath (quotePath path)) = _ ↔ _
      rw [Prod.mk.injEq, and_iff_right rfl, unquotePath_quotePath_iff]
      exact ⟨fun h => ⟨h, fun _ hold => (Option.not_mem_none _ hold).elim, hsplit⟩, fun h => h.1⟩
    | some parts =>
      refine iff_of_false (fun h => Option.some_ne_none _ (Prod.mk.inj h).1) fun h => ?_
      have hnone : splitOnce arrow (quotePath path) = none :=
        (splitOnce_eq_none harrow).mpr (mt arrow_infix_quotePath.mp h.2.2)
      rw [hsplit] at hnone
      exact Option.some_ne_none _ hnone
  | some old =>
    have hbody : renderPaths (some old) path = quotePath old ++ (arrow ++ quotePath path) := rfl
    rw [hbody]
    by_cases hold : arrow <:+: old
    · refine iff_of_false (fun h => ?_) fun h => h.2.2 hold
      cases hsplit : splitOnce arrow (quotePath old ++ (arrow ++ quotePath path)) with
      | none =>
        rw [hsplit] at h
        exact Option.some_ne_none _ (Prod.mk.inj h).1.symm
      | some parts =>
        rw [hsplit] at h
        obtain ⟨-, hinside⟩ := splitOnce_eq_some harrow hsplit
        have hread : unquotePath parts.1 = old := Option.some.inj (Prod.mk.inj h).1
        rw [← hread] at hold
        exact hinside (arrow_infix_of_unquotePath hold)
    · rw [splitOnce_append harrow (mt arrow_infix_quotePath.mp hold) fun _ => not_tail_quotePath]
      show (some (unquotePath (quotePath old)), unquotePath (quotePath path)) = _ ↔ _
      rw [Prod.mk.injEq, Option.some.injEq, unquotePath_quotePath_iff, unquotePath_quotePath_iff]
      constructor
      · rintro ⟨h, h'⟩
        refine ⟨h', fun o ho => ?_, hold⟩
        rw [← Option.some.inj ho]
        exact h
      · rintro ⟨h, h', -⟩
        exact ⟨h' old rfl, h⟩

/-! ## Lines of the output -/

theorem rdropWhile_append_of_ne_nil {p : Char → Bool} {front text : Text}
    (h : text.rdropWhile p ≠ []) : (front ++ text).rdropWhile p = front ++ text.rdropWhile p := by
  induction text using List.reverseRecOn with
  | nil => exact absurd rfl h
  | append_singleton text c ih =>
    rw [← append_assoc]
    by_cases hc : p c = true
    · rw [rdropWhile_concat_pos _ _ _ hc] at h ⊢
      rw [rdropWhile_concat_pos _ _ _ hc, ih h]
    · rw [rdropWhile_concat_neg _ _ _ hc, rdropWhile_concat_neg _ _ _ hc,
        append_assoc]

/-- The output loses the whitespace at its end, and with it that of the last line. -/
theorem textLines_commandOutput {lines : List Text} (h : ∀ line ∈ lines, '\n' ∉ line) {last : Text}
    (hlast : '\n' ∉ last) (hne : last.rdropWhile isWhitespace ≠ []) :
    textLines (commandOutput (written '\n' (lines ++ [last]))) =
      lines.map stripReturn ++ [last.rdropWhile isWhitespace] := by
  have houtput : commandOutput (written '\n' (lines ++ [last])) =
      written '\n' lines ++ last.rdropWhile isWhitespace := by
    have hwritten : written '\n' (lines ++ [last]) = written '\n' lines ++ last ++ ['\n'] := by
      unfold written
      rw [flatMap_append, flatMap_singleton, append_assoc]
    unfold commandOutput
    rw [hwritten, rdropWhile_concat_pos _ _ _ (by decide), rdropWhile_append_of_ne_nil hne]
  have hmem : '\n' ∉ last.rdropWhile isWhitespace := fun h =>
    hlast ((List.rdropWhile_prefix _ _).subset h)
  unfold textLines
  dsimp only
  rw [houtput, splitOn_written_append h hmem, dropLast_concat, getLast?_concat]
  show _ ++ [last.rdropWhile isWhitespace].filter _ = _
  rw [filter_cons_of_pos]
  · rfl
  · rw [Bool.not_eq_true', ← Bool.not_eq_true, List.isEmpty_iff]
    exact hne

/-! ## The short status -/

/-- A change as git has it. -/
structure StatusChange where
  x : Char
  y : Char
  path : Text
  oldPath : Option Text
  codes : " MTADRCU?!".toList.contains x ∧ " MTADRCU?!".toList.contains y
  path_ne_nil : path ≠ []
  oldPath_ne_nil : ∀ old ∈ oldPath, old ≠ []

def StatusChange.render (c : StatusChange) : Text := c.x :: c.y :: ' ' :: renderPaths c.oldPath c.path

/-- `git status --short --branch`, with any text for the branch. -/
def renderStatus (branch : Text) (changes : List StatusChange) : Text :=
  written '\n' (('#' :: '#' :: ' ' :: branch) :: changes.map StatusChange.render)

theorem plain_spec {c : Char} (h : plain c = true) : 0x20 ≤ c.toNat ∧ c.toNat < 0x7F := by
  unfold plain at h
  rwa [Bool.and_eq_true, decide_eq_true_eq, decide_eq_true_eq] at h

theorem plain_of_mem_quotePath {c : Char} (h : c ∈ quotePath name) : plain c = true := by
  unfold quotePath at h
  split at h
  · exact plain_of_mem_quoted h
  · rename_i hnone
    rw [Bool.or_eq_true, not_or, any_eq_true] at hnone
    exact plain_of_not_needsQuotes (Bool.eq_false_iff.mpr fun hneeds => hnone.1 ⟨c, h, hneeds⟩)

/-- A name in the short status neither starts nor ends with a space. -/
theorem quotePath_ends (hne : name ≠ []) :
    ∃ first last, (quotePath name).head? = some first ∧ (quotePath name).getLast? = some last ∧
      isWhitespace first = false ∧ isWhitespace last = false := by
  unfold quotePath
  split
  · refine ⟨'"', '"', rfl, ?_, by decide, by decide⟩
    unfold quoted
    rw [← cons_append, getLast?_concat]
  · rename_i hnone
    rw [Bool.or_eq_true, not_or, any_eq_true, contains_iff_mem] at hnone
    have hspace (c : Char) (hc : c ∈ name) : isWhitespace c = false := by
      have hplain := plain_of_not_needsQuotes
        (Bool.eq_false_iff.mpr fun hneeds => hnone.1 ⟨c, hc, hneeds⟩)
      refine Bool.eq_false_iff.mpr fun h => hnone.2 ?_
      rw [← eq_space_of_plain hplain h]
      exact hc
    exact ⟨_, _, head?_eq_some_head hne, getLast?_eq_some_getLast hne,
      hspace _ (head_mem hne), hspace _ (getLast_mem hne)⟩

namespace StatusChange

variable (c : StatusChange)

theorem renderPaths_ends : ∃ first last, (renderPaths c.oldPath c.path).head? = some first ∧
      (renderPaths c.oldPath c.path).getLast? = some last ∧
      isWhitespace first = false ∧ isWhitespace last = false := by
  obtain ⟨first, last, hfirst, hlast, hspace, hspace'⟩ := quotePath_ends c.path_ne_nil
  unfold renderPaths
  split
  · exact ⟨first, last, hfirst, hlast, hspace, hspace'⟩
  · rename_i old hold
    obtain ⟨first', _, hfirst', -, hspace'', -⟩ := quotePath_ends (c.oldPath_ne_nil old hold)
    refine ⟨first', last, ?_, ?_, hspace'', hspace'⟩
    · rw [head?_append, hfirst', Option.some_or]
    · rw [getLast?_append, getLast?_append, hlast, Option.some_or, Option.some_or]

theorem plain_of_mem_renderPaths {d : Char} (h : d ∈ renderPaths c.oldPath c.path) : plain d = true := by
  unfold renderPaths at h
  split at h
  · exact plain_of_mem_quotePath h
  · rw [mem_append, mem_append] at h
    rcases h with h | h | h
    · exact plain_of_mem_quotePath h
    · exact all_eq_true.mp (show arrow.all plain = true by decide) d h
    · exact plain_of_mem_quotePath h

theorem trim_renderPaths : trim (renderPaths c.oldPath c.path) = renderPaths c.oldPath c.path := by
  obtain ⟨first, last, hfirst, hlast, hspace, hspace'⟩ := c.renderPaths_ends
  obtain ⟨rest, heq⟩ := List.head?_eq_some_iff.mp hfirst
  unfold trim
  have hdrop : (renderPaths c.oldPath c.path).dropWhile isWhitespace =
      renderPaths c.oldPath c.path := by
    rw [heq, dropWhile_cons_of_neg (Bool.eq_false_iff.mp hspace)]
  rw [hdrop, rdropWhile_eq_self_iff]
  intro hne
  rw [getLast?_eq_some_getLast hne] at hlast
  rw [Option.some.inj hlast]
  exact Bool.eq_false_iff.mp hspace'

theorem codes_spec {x : Char} (h : " MTADRCU?!".toList.contains x) :
    x.toNat < 128 ∧ x ≠ '#' ∧ x ≠ '\n' := by
  have hall : " MTADRCU?!".toList.all fun x => decide (x.toNat < 128 ∧ x ≠ '#' ∧ x ≠ '\n') := by
    decide
  exact of_decide_eq_true (all_eq_true.mp hall x (contains_iff_mem.mp h))

/-- What is read of a line. -/
def parsed : GitChange where
  path := (splitRename (renderPaths c.oldPath c.path)).2
  oldPath := (splitRename (renderPaths c.oldPath c.path)).1
  status := changeStatus c.x c.y
  staged := c.x ≠ ' ' && c.x ≠ '?'
  unstaged := c.y ≠ ' ' || c.x = '?'
  conflict := isConflict c.x c.y

theorem parseChange_render : parseChange c.render = some c.parsed := by
  have hcut : cutAt 3 c.render = some ([c.x, c.y, ' '], renderPaths c.oldPath c.path) := by
    refine @cutAt_ascii [c.x, c.y, ' '] (fun d hd => ?_) _
    rw [mem_cons, mem_cons, mem_singleton] at hd
    rcases hd with rfl | rfl | rfl
    · exact (codes_spec c.codes.1).1
    · exact (codes_spec c.codes.2).1
    · decide
  unfold parseChange
  rw [hcut, Option.map_some]
  dsimp only
  rw [c.trim_renderPaths]
  rfl

theorem line_render (s : Status) :
    s.line c.render = some { s with changes := s.changes ++ [c.parsed] } := by
  have hstrip : strip ['#', '#', ' '] c.render = none := by
    unfold strip
    rw [if_neg]
    rw [List.isPrefixOf_iff_prefix]
    exact fun h => (codes_spec c.codes.1).2.1 (cons_prefix_cons.mp h).1.symm
  have hlength : ¬byteLength c.render < 4 := by
    obtain ⟨first, _, hfirst, -⟩ := c.renderPaths_ends
    obtain ⟨rest, heq⟩ := List.head?_eq_some_iff.mp hfirst
    refine Nat.not_lt.mpr (le_trans ?_ (length_le_byteLength _))
    unfold render
    rw [heq, length_cons, length_cons, length_cons, length_cons]
    omega
  unfold Status.line
  rw [hstrip]
  dsimp only
  rw [if_neg hlength, parseChange_render]
  rfl

theorem newline_not_mem_render : '\n' ∉ c.render := by
  unfold render
  rw [mem_cons, mem_cons, mem_cons, not_or, not_or, not_or]
  refine ⟨(codes_spec c.codes.1).2.2.symm, (codes_spec c.codes.2).2.2.symm, by decide, fun h => ?_⟩
  exact absurd (plain_spec (c.plain_of_mem_renderPaths h)) (by decide)

theorem stripReturn_render : stripReturn c.render = c.render := by
  obtain ⟨_, last, -, hlast, -⟩ := c.renderPaths_ends
  unfold stripReturn
  rw [if_neg]
  intro h
  have hlast' : c.render.getLast? = some last := by
    show ([c.x, c.y, ' '] ++ renderPaths c.oldPath c.path).getLast? = _
    rw [getLast?_append, hlast, Option.some_or]
  obtain rfl := Option.some.inj (hlast'.symm.trans h)
  exact absurd (plain_spec (c.plain_of_mem_renderPaths (mem_of_getLast? hlast))) (by decide)

theorem rdropWhile_render : c.render.rdropWhile isWhitespace = c.render := by
  obtain ⟨_, last, -, hlast, -, hspace⟩ := c.renderPaths_ends
  obtain ⟨front, hfront⟩ := List.getLast?_eq_some_iff.mp hlast
  have hrender : c.render = [c.x, c.y, ' '] ++ front ++ [last] := by
    rw [append_assoc, ← hfront]
    rfl
  rw [hrender, rdropWhile_concat_neg _ _ _ (Bool.eq_false_iff.mp hspace)]

end StatusChange

theorem stripReturn_prefix (line : Text) : stripReturn line <+: line := by
  unfold stripReturn
  split
  · exact dropLast_prefix line
  · exact prefix_rfl

/-- The line of the branch, or what is left of it, is no change. -/
theorem line_branch {branch line : Text} (h : line <+: '#' :: '#' :: ' ' :: branch) (s : Status) :
    ∃ s', s.line line = some s' ∧ s'.changes = s.changes := by
  unfold Status.line
  by_cases hlong : 3 ≤ line.length
  · have hstart : ['#', '#', ' '] <+: line :=
      prefix_of_prefix_length_le (prefix_append ['#', '#', ' '] branch) h hlong
    have hstrip : strip ['#', '#', ' '] line = some (line.drop 3) :=
      if_pos (List.isPrefixOf_iff_prefix.mpr hstart)
    rw [hstrip]
    refine ⟨_, rfl, ?_⟩
    unfold Status.header
    split <;> rfl
  · have hstrip : strip ['#', '#', ' '] line = none := by
      unfold strip
      rw [if_neg]
      exact fun hstart => hlong (List.isPrefixOf_iff_prefix.mp hstart).length_le
    have hlength : byteLength line < 4 := by
      match line with
      | [] => decide
      | [a] =>
        rw [(cons_prefix_cons.mp h).1]
        decide
      | [a, b] =>
        obtain ⟨rfl, h'⟩ := cons_prefix_cons.mp h
        obtain ⟨rfl, -⟩ := cons_prefix_cons.mp h'
        decide
      | _ :: _ :: _ :: _ => exact absurd (Nat.le_add_left 3 _) hlong
    rw [hstrip]
    exact ⟨s, if_pos hlength, rfl⟩

theorem foldlM_render (changes : List StatusChange) (s : Status) :
    (changes.map StatusChange.render).foldlM Status.line s =
      some { s with changes := s.changes ++ changes.map StatusChange.parsed } := by
  induction changes generalizing s with
  | nil =>
    rw [map_nil, map_nil, append_nil]
    rfl
  | cons c changes ih =>
    rw [map_cons, foldlM_cons, c.line_render, Option.bind_eq_bind, Option.bind_some, ih,
      append_assoc]
    rfl

/-- Every change is read, if not with its paths. -/
theorem parseStatus_render {branch : Text} (hbranch : '\n' ∉ branch) (changes : List StatusChange) :
    ∃ s, parseStatus (commandOutput (renderStatus branch changes)) = some s ∧
      s.changes = changes.map StatusChange.parsed := by
  have hheader : '\n' ∉ '#' :: '#' :: ' ' :: branch := by
    rw [mem_cons, mem_cons, mem_cons, not_or, not_or, not_or]
    exact ⟨by decide, by decide, by decide, hbranch⟩
  have hlines : ∃ first, first <+: '#' :: '#' :: ' ' :: branch ∧
      textLines (commandOutput (renderStatus branch changes)) =
        first :: changes.map StatusChange.render := by
    unfold renderStatus
    rcases eq_nil_or_concat changes with rfl | ⟨front, last, rfl⟩
    · refine ⟨_, rdropWhile_prefix isWhitespace _,
        @textLines_commandOutput [] (fun _ h => absurd h not_mem_nil) _ hheader fun hnil => ?_⟩
      have hmem : '#' ∈ ('#' :: '#' :: ' ' :: branch).rdropWhile isWhitespace :=
        mem_rdropWhile mem_cons_self (by decide)
      rw [hnil] at hmem
      cases hmem
    · refine ⟨stripReturn ('#' :: '#' :: ' ' :: branch), stripReturn_prefix _, ?_⟩
      rw [concat_eq_append, map_append, ← cons_append, map_singleton,
        textLines_commandOutput ?_ last.newline_not_mem_render ?_, map_cons, map_map,
        last.rdropWhile_render, cons_append]
      · congr 2
        exact map_congr_left fun c _ => c.stripReturn_render
      · refine forall_mem_cons.mpr ⟨hheader, forall_mem_map.mpr fun c _ => ?_⟩
        exact c.newline_not_mem_render
      · rw [last.rdropWhile_render]
        exact cons_ne_nil _ _
  obtain ⟨first, hfirst, hlines⟩ := hlines
  obtain ⟨s, hs, hchanges⟩ := line_branch hfirst ⟨none, false, []⟩
  refine ⟨{ s with changes := s.changes ++ changes.map StatusChange.parsed }, ?_, ?_⟩
  · unfold parseStatus
    rw [hlines, foldlM_cons, hs, Option.bind_eq_bind, Option.bind_some, foldlM_render]
  · show s.changes ++ _ = _
    rw [hchanges, nil_append]

end Taomni.Git
