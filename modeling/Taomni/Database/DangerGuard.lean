import Taomni.Database.StatementSplit

/-!
# When the guard reads a statement as the scanner does

In an aligned statement the text that the guard looks at is the code, together with what stands in brackets and between
tags, up to the length of its blanks.

Reference: `src/lib/sqlDangerousStatements.ts` and `src/lib/sqlStatements.ts`.
-/

namespace Taomni.Database.Sql

open List
open JsString (lf ascii)
open Save (isJsSpace lowerAscii)
open Words (words squeeze)
open Bool (and_eq_true eq_false_iff not_eq_true')
open Option (any_some bind_some)

/-! ## Code units -/

theorem isJsSpace_blank : isJsSpace (unit ' ') = true := by decide

theorem isWordUnit_of_isJsSpace (u : UInt16) (hu : isJsSpace u = true) : isWordUnit u = false := by
  have hunderscore : (unit '_').toNat = 0x5F := by decide
  rw [eq_false_iff]
  simp only [isJsSpace, isWordUnit, isLetter, isDigit, ne_eq, Bool.or_eq_true, and_eq_true, decide_eq_true_eq,
    UInt16.le_iff_toNat_le, ← UInt16.toNat_inj, UInt16.reduceToNat, hunderscore] at hu ⊢
  omega

variable {u : UInt16}

theorem isWordUnit_of_isLetter (hu : isLetter u = true) : isWordUnit u = true := by
  rw [isWordUnit, hu, Bool.true_or, Bool.true_or]

theorem isLetter_of_isJsSpace (u : UInt16) (hu : isJsSpace u = true) : isLetter u = false := by
  rw [eq_false_iff]
  intro hletter
  have hword := isWordUnit_of_isLetter hletter
  rw [isWordUnit_of_isJsSpace u hu] at hword
  exact Bool.false_ne_true hword

theorem lowerAscii_upperAscii (u : UInt16) : lowerAscii (upperAscii u) = lowerAscii u := by
  simp only [lowerAscii, upperAscii]
  grind

theorem upperAscii_lowerAscii (u : UInt16) : upperAscii (lowerAscii u) = upperAscii u := by
  simp only [lowerAscii, upperAscii]
  grind

theorem map_upperAscii_iff (word : JsString) :
    word.map upperAscii = ascii "WHERE" ↔ word.map lowerAscii = ascii "where" := by
  constructor
  · intro h
    have hlower : (word.map upperAscii).map lowerAscii = word.map lowerAscii := by
      rw [map_map]
      exact map_congr_left fun u _ => lowerAscii_upperAscii u
    rw [← hlower, h]
    decide
  · intro h
    have hupper : (word.map lowerAscii).map upperAscii = word.map upperAscii := by
      rw [map_map]
      exact map_congr_left fun u _ => upperAscii_lowerAscii u
    rw [← hupper, h]
    decide

/-! ## The word `WHERE` -/

theorem isWordUnit_of_lowerAscii (hu : lowerAscii u ∈ ascii "where") : isWordUnit u = true := by
  by_contra hnot
  have hsame : lowerAscii u = u := by
    rw [lowerAscii, if_neg]
    intro hupper
    exact hnot (isWordUnit_of_isLetter (by rw [isLetter, hupper, Bool.true_or]))
  have hwhere : (ascii "where").all isWordUnit = true := by decide
  rw [hsame] at hu
  exact hnot (all_eq_true.1 hwhere u hu)

/-- The test of one place finds the word that begins there. -/
theorem where_here_iff (text : JsString) :
    ((text.take 5).map lowerAscii = ascii "where" ∧ (text.drop 5).head?.any isWordUnit = false) ↔
      (text.takeWhile isWordUnit).map lowerAscii = ascii "where" := by
  constructor
  · rintro ⟨hwhere, hafter⟩
    have hword : ∀ u ∈ text.take 5, isWordUnit u = true := fun u hu =>
      isWordUnit_of_lowerAscii (hwhere ▸ mem_map_of_mem hu)
    have hrest : (text.drop 5).takeWhile isWordUnit = [] := by
      cases hdrop : text.drop 5 with
      | nil => rfl
      | cons u rest =>
        rw [hdrop] at hafter
        exact takeWhile_cons_of_neg (eq_false_iff.1 (by simpa using hafter))
    rw [← take_append_drop 5 text, takeWhile_append_of_pos hword, hrest, append_nil, hwhere]
  · intro hwhere
    have hlength : (text.takeWhile isWordUnit).length = 5 := by
      rw [← length_map lowerAscii, hwhere]
      rfl
    have htext := takeWhile_append_dropWhile (p := isWordUnit) (l := text)
    refine ⟨?_, ?_⟩
    · rw [← htext, take_left' hlength, hwhere]
    · rw [← htext, drop_left' hlength]
      cases hdrop : text.dropWhile isWordUnit with
      | nil => rfl
      | cons u rest =>
        have hhead := head_dropWhile_not isWordUnit (l := text) (by rw [hdrop]; exact cons_ne_nil _ _)
        simpa [hdrop] using hhead

/-- After a unit of a word, the rest of that word is passed over. -/
theorem hasWhere_eq_true_iff (text : JsString) (before : Option UInt16) : hasWhere before text = true ↔
      HasWhere (if before.any isWordUnit then text.dropWhile isWordUnit else text) := by
  induction text generalizing before with
  | nil =>
    rw [hasWhere]
    refine iff_of_false Bool.false_ne_true ?_
    rintro ⟨word, hword, -⟩
    rw [dropWhile_nil, ite_self, Words.words_nil] at hword
    exact not_mem_nil hword
  | cons u text ih =>
    have hnext := ih (some u)
    rw [any_some] at hnext
    rw [hasWhere, Bool.or_eq_true, hnext]
    by_cases hu : isWordUnit u = true
    · rw [if_pos hu]
      by_cases hbefore : before.any isWordUnit = true
      · rw [if_pos hbefore, dropWhile_cons_of_pos hu]
        refine or_iff_right ?_
        rw [hbefore]
        exact Bool.false_ne_true
      · rw [if_neg hbefore, HasWhere, HasWhere, Words.words_cons hu]
        simp only [mem_cons, exists_eq_or_imp]
        refine or_congr ?_ Iff.rfl
        have hhere := where_here_iff (u :: text)
        rw [takeWhile_cons_of_pos hu] at hhere
        rw [map_upperAscii_iff, ← hhere, eq_false_iff.2 hbefore]
        simp only [Bool.not_false, Bool.true_and, and_eq_true, decide_eq_true_eq, not_eq_true']
    · rw [if_neg hu]
      have hhere : ((u :: text).take 5).map lowerAscii ≠ ascii "where" := by
        intro hwhere
        exact hu (isWordUnit_of_lowerAscii (hwhere ▸ mem_map_of_mem mem_cons_self))
      have hwords : HasWhere (u :: text) ↔ HasWhere text := by
        rw [HasWhere, HasWhere, Words.words_cons_of_not (eq_false_iff.2 hu)]
      rw [dropWhile_cons_of_neg hu, ite_self, hwords]
      refine or_iff_right ?_
      simp only [hhere, decide_false, Bool.and_false, Bool.false_and, Bool.false_eq_true, not_false_eq_true]

/-! ## What the guard passes over -/

variable {text : JsString}

theorem strip_cons (h : opensForGuard (u :: text) = false) :
    stripSqlCommentsAndLiterals (u :: text) = u :: stripSqlCommentsAndLiterals text := by
  simp only [opensForGuard, head?_cons, any_some, Bool.or_eq_false_iff, decide_eq_false_iff_not] at h
  obtain ⟨⟨hline, hblock⟩, ⟨⟨hnumber, hsingle⟩, hdouble⟩, hback⟩ := h
  rw [stripSqlCommentsAndLiterals, if_neg (eq_false_iff.1 hline), if_neg hnumber,
    if_neg (eq_false_iff.1 hblock), if_neg (by rintro (h | h | h); exacts [hsingle h, hdouble h, hback h])]

theorem isPrefixOf_of_ne {u v : UInt16} (h : u ≠ v) (run text : JsString) :
    (v :: run).isPrefixOf (u :: text) = false := by
  rw [isPrefixOf_cons_cons, beq_eq_false_iff_ne.2 h.symm, Bool.false_and]

/-- The units that comments and quotes of the guard begin with. -/
def openingUnits : JsString := ascii "-/#'\"`"

theorem opensForGuard_of_forall_ne (h : ∀ v ∈ openingUnits, u ≠ v) (text : JsString) :
    opensForGuard (u :: text) = false := by
  have hne : ∀ v, openingUnits.contains v = true → u ≠ v := fun v hv => h v (contains_iff_mem.1 hv)
  have hline := isPrefixOf_of_ne (hne (unit '-') (by decide)) [unit '-'] text
  have hblock := isPrefixOf_of_ne (hne (unit '/') (by decide)) [unit '*'] text
  have hopens : (decide (u = unit '#') || decide (u = unit '\'') || decide (u = unit '"') || decide (u = unit '`')) =
      false := by
    rw [decide_eq_false (hne (unit '#') (by decide)), decide_eq_false (hne (unit '\'') (by decide)),
      decide_eq_false (hne (unit '"') (by decide)), decide_eq_false (hne (unit '`') (by decide))]
    rfl
  rw [opensForGuard, head?_cons, any_some, hopens, Bool.or_false, Bool.or_eq_false_iff]
  exact ⟨hline, hblock⟩

theorem opensForGuard_of_all (h : openingUnits.all (fun v => decide (u ≠ v)) = true) (text : JsString) :
    opensForGuard (u :: text) = false :=
  opensForGuard_of_forall_ne (fun v hv => of_decide_eq_true (all_eq_true.1 h v hv)) text

/-- A unit of a tag. -/
def isTagUnit (u : UInt16) : Bool := isWordUnit u || u = unit '$'

theorem strip_append {run : JsString} (h : run.all isTagUnit = true) (text : JsString) :
    stripSqlCommentsAndLiterals (run ++ text) = run ++ stripSqlCommentsAndLiterals text := by
  induction run with
  | nil => rfl
  | cons u run ih =>
    rw [all_cons, and_eq_true] at h
    have hother : ∀ v ∈ openingUnits, u ≠ v := by
      rintro v hv rfl
      have hnone : openingUnits.all (!isTagUnit ·) = true := by decide
      have hnot := all_eq_true.1 hnone u hv
      rw [h.1] at hnot
      exact Bool.false_ne_true hnot
    rw [cons_append, strip_cons (opensForGuard_of_forall_ne hother _), ih h.2]
    rfl

theorem dollarQuoteTagAt_eq_some {text name : JsString} (h : dollarQuoteTagAt text = some name) :
    (tag name).isPrefixOf text = true ∧ (tag name).all isTagUnit = true := by
  rw [dollarQuoteTagAt] at h
  split at h
  · rename_i hopen
    obtain ⟨hhead, hclose, -⟩ := hopen
    cases h
    cases text with
    | nil => exact nomatch hhead
    | cons u text =>
      cases hhead
      rw [tail_cons] at hclose ⊢
      cases hrest : text.dropWhile isWordUnit with
      | nil =>
        rw [hrest] at hclose
        exact nomatch hclose
      | cons v rest =>
        rw [hrest] at hclose
        cases hclose
        refine ⟨?_, ?_⟩
        · rw [List.isPrefixOf_iff_prefix]
          refine ⟨rest, ?_⟩
          rw [tag, cons_append, append_assoc, singleton_append, ← hrest, takeWhile_append_dropWhile]
        · rw [tag, all_cons, all_append, and_eq_true, and_eq_true, all_eq_true]
          refine ⟨by decide, fun w hw => ?_, by decide⟩
          rw [isTagUnit, mem_takeWhile_imp hw, Bool.true_or]
  · exact nomatch h

/-! ## The two readings of a text -/

/-- What is left for the guard when the scanner is in a mode. -/
def guardRest (mode : Mode) (text : JsString) : JsString :=
  match mode with
  | .quoted closing => if closing = unit ']' then text else afterQuoted closing text
  | .lineComment => afterLine text
  | .blockComment => afterBlock text
  | .code => text
  | .dollarQuoted _ => text

variable {mode : Mode}

theorem guardRest_of_isExposed (h : mode.isExposed = true) (text : JsString) :
    guardRest mode text = text := by
  cases mode with
  | quoted closing =>
    rw [Mode.isExposed, decide_eq_true_eq] at h
    rw [guardRest, if_pos h]
  | lineComment => exact nomatch h
  | blockComment => exact nomatch h
  | code => rfl
  | dollarQuoted name => rfl

/-- A text with one blank for each run of blanks. -/
def squeezed (text : JsString) : JsString := squeeze isJsSpace (unit ' ') text

/-- The exposed text from a mode on and what the guard looks at are the same apart from blanks. In a mode that is not
exposed a blank stands in front of both. -/
def SameReading (mode : Mode) (text : JsString) : Prop :=
  if mode.isExposed then
    squeezed (keptFrom Mode.isExposed mode text) = squeezed (stripSqlCommentsAndLiterals text)
  else
    (squeezed (keptFrom Mode.isExposed mode text)).dropWhile isJsSpace =
      (squeezed (stripSqlCommentsAndLiterals (guardRest mode text))).dropWhile isJsSpace

/-- In every mode the readings agree after blanks. -/
theorem SameReading.after_blanks (h : SameReading mode text) :
    (squeezed (keptFrom Mode.isExposed mode text)).dropWhile isJsSpace =
      (squeezed (stripSqlCommentsAndLiterals (guardRest mode text))).dropWhile isJsSpace := by
  rw [SameReading] at h
  split at h
  · rename_i hexposed
    rw [h, guardRest_of_isExposed hexposed]
  · exact h

variable {next : Mode}

/-- A step from an exposed mode to one that is not leaves a blank in both. -/
theorem squeezed_opening {mode : Mode} {text rest : JsString} (hu : isJsSpace u = true)
    (hstep : keptFrom Mode.isExposed mode text = unit ' ' :: keptFrom Mode.isExposed next rest)
    (hnext : SameReading next rest) : squeezed (keptFrom Mode.isExposed mode text) =
      squeezed (u :: stripSqlCommentsAndLiterals (guardRest next rest)) := by
  rw [hstep]
  exact Words.squeeze_cons_congr isJsSpace_blank hu hnext.after_blanks

theorem squeezed_append {text text' : JsString} (h : squeezed text = squeezed text') (run : JsString) :
    squeezed (run ++ text) = squeezed (run ++ text') := Words.squeeze_append h run

theorem keptFrom_cons (keep : Mode → Bool) (mode : Mode) (u : UInt16) (text : JsString) {n : ℕ}
    (hstep : step mode (u :: text) = (next, n)) : keptFrom keep mode (u :: text) =
      (if keep mode && keep next then (u :: text).take n else [unit ' ']) ++ keptFrom keep next ((u :: text).drop n) := by
  rw [keptFrom, hstep]

theorem eq_append_of_isPrefixOf {run text : JsString} (h : run.isPrefixOf text = true) :
    text = run ++ text.drop run.length := by
  obtain ⟨rest, rfl⟩ := isPrefixOf_iff_prefix.1 h
  rw [drop_left]

/-- A run that both keep. -/
theorem SameReading.keep {mode : Mode} {text run : JsString} (hmode : mode.isExposed = true)
    (hexposed : next.isExposed = true) (hrun : run.isPrefixOf (u :: text) = true)
    (hstep : step mode (u :: text) = (next, run.length))
    (hstrip : stripSqlCommentsAndLiterals (u :: text) =
      run ++ stripSqlCommentsAndLiterals ((u :: text).drop run.length))
    (hnext : SameReading next ((u :: text).drop run.length)) : SameReading mode (u :: text) := by
  have htake : (u :: text).take run.length = run := by
    rw [eq_append_of_isPrefixOf hrun, take_left]
  rw [SameReading, if_pos hexposed] at hnext
  rw [SameReading, if_pos hmode, keptFrom_cons _ _ _ _ hstep, hmode, hexposed, Bool.and_true, if_pos rfl, htake, hstrip]
  exact squeezed_append hnext run

/-- The scanner opens what the guard opens. -/
theorem SameReading.opens {mode : Mode} {u v : UInt16} {n : ℕ} (hmode : mode.isExposed = true)
    (hnot : next.isExposed = false) (hstep : step mode (u :: text) = (next, n)) (hv : isJsSpace v = true)
    (hstrip : stripSqlCommentsAndLiterals (u :: text) =
      v :: stripSqlCommentsAndLiterals (guardRest next ((u :: text).drop n)))
    (hnext : SameReading next ((u :: text).drop n)) : SameReading mode (u :: text) := by
  rw [SameReading, if_pos hmode, hstrip]
  refine squeezed_opening hv ?_ hnext
  rw [keptFrom_cons _ _ _ _ hstep, hnot, Bool.and_false, if_neg Bool.false_ne_true]
  rfl

/-- In a mode that is not exposed, a step passes over the same units in both. -/
theorem SameReading.pass {mode : Mode} {n : ℕ} (hmode : mode.isExposed = false)
    (hstep : step mode (u :: text) = (next, n))
    (hrest : (squeezed (stripSqlCommentsAndLiterals (guardRest mode (u :: text)))).dropWhile isJsSpace =
      (squeezed (stripSqlCommentsAndLiterals (guardRest next ((u :: text).drop n)))).dropWhile isJsSpace)
    (hnext : SameReading next ((u :: text).drop n)) : SameReading mode (u :: text) := by
  rw [SameReading, if_neg (eq_false_iff.1 hmode), keptFrom_cons _ _ _ _ hstep, hmode, Bool.false_and,
    if_neg Bool.false_ne_true, hrest, ← hnext.after_blanks]
  exact Words.dropWhile_squeeze_cons isJsSpace_blank isJsSpace_blank _

/-! ## Each mode -/

/-- A unit that the guard does not open anything with is kept by both. -/
theorem SameReading.keep_unit {mode : Mode} (hmode : mode.isExposed = true)
    (hexposed : next.isExposed = true) (hopens : opensForGuard (u :: text) = false)
    (hstep : step mode (u :: text) = (next, 1)) (hnext : SameReading next text) : SameReading mode (u :: text) := by
  have hrun : [u].isPrefixOf (u :: text) = true := by
    rw [isPrefixOf_cons_cons, beq_self_eq_true, Bool.true_and, isPrefixOf_nil_left]
  exact SameReading.keep hmode hexposed hrun hstep (strip_cons hopens) hnext

/-- A run of units of tags is kept by both. -/
theorem SameReading.keep_tag {mode : Mode} {text run : JsString} (hmode : mode.isExposed = true)
    (hexposed : next.isExposed = true) (hrun : run.isPrefixOf (u :: text) = true) (hunits : run.all isTagUnit = true)
    (hstep : step mode (u :: text) = (next, run.length)) (hnext : SameReading next ((u :: text).drop run.length)) :
    SameReading mode (u :: text) := by
  refine SameReading.keep hmode hexposed hrun hstep ?_ hnext
  rw [← strip_append hunits, ← eq_append_of_isPrefixOf hrun]

theorem sameReading_code (hu : u ≠ unit '#')
    (hnext : SameReading (step .code (u :: text)).1 ((u :: text).drop (step .code (u :: text)).2)) :
    SameReading .code (u :: text) := by
  by_cases hline : (ascii "--").isPrefixOf (u :: text) = true
  · have hstep : step .code (u :: text) = (.lineComment, 2) := by rw [step, if_pos hline]
    rw [hstep] at hnext
    refine SameReading.opens rfl rfl hstep isJsSpace_blank ?_ hnext
    have htext := eq_append_of_isPrefixOf hline
    rw [stripSqlCommentsAndLiterals, if_pos hline]
    cases text with
    | nil => cases htext
    | cons v text =>
      cases (List.cons.inj (List.cons.inj htext).2).1
      rfl
  by_cases hblock : (ascii "/*").isPrefixOf (u :: text) = true
  · have hstep : step .code (u :: text) = (.blockComment, 2) := by rw [step, if_neg hline, if_pos hblock]
    rw [hstep] at hnext
    refine SameReading.opens rfl rfl hstep isJsSpace_blank ?_ hnext
    rw [stripSqlCommentsAndLiterals, if_neg hline, if_neg hu, if_pos hblock, guardRest, drop_succ_cons,
      drop_one]
  by_cases hquote : u = unit '\'' ∨ u = unit '"' ∨ u = unit '`'
  · have hstep : step .code (u :: text) = (.quoted u, 1) := by
      rw [step, if_neg hline, if_neg hblock, head?_cons, bind_some, closingOf, if_pos hquote]
    have hclosing : u ≠ unit ']' := by
      rcases hquote with rfl | rfl | rfl <;> decide
    rw [hstep] at hnext
    refine SameReading.opens rfl (by rw [Mode.isExposed, decide_eq_false hclosing]) hstep isJsSpace_blank ?_ hnext
    rw [stripSqlCommentsAndLiterals, if_neg hline, if_neg hu, if_neg hblock, if_pos hquote, guardRest,
      if_neg hclosing]
    rfl
  have hopens : opensForGuard (u :: text) = false := by
    obtain ⟨hsingle, hdouble, hback⟩ := not_or.1 hquote |>.imp id not_or.1
    rw [opensForGuard, eq_false_iff.2 hline, eq_false_iff.2 hblock, head?_cons, any_some]
    simp only [hu, hsingle, hdouble, hback, decide_false, Bool.or_false]
  by_cases hbracket : u = unit '['
  · have hstep : step .code (u :: text) = (.quoted (unit ']'), 1) := by
      rw [step, if_neg hline, if_neg hblock, head?_cons, bind_some, closingOf, if_neg hquote,
        if_pos hbracket]
    rw [hstep] at hnext
    exact SameReading.keep_unit rfl (by decide) hopens hstep hnext
  cases htag : dollarQuoteTagAt (u :: text) with
  | some name =>
    have hstep : step .code (u :: text) = (.dollarQuoted name, (tag name).length) := by
      rw [step, if_neg hline, if_neg hblock, head?_cons, bind_some, closingOf, if_neg hquote,
        if_neg hbracket, htag]
    obtain ⟨hrun, hunits⟩ := dollarQuoteTagAt_eq_some htag
    rw [hstep] at hnext
    exact SameReading.keep_tag rfl rfl hrun hunits hstep hnext
  | none =>
    have hstep : step .code (u :: text) = (.code, 1) := by
      rw [step, if_neg hline, if_neg hblock, head?_cons, bind_some, closingOf, if_neg hquote,
        if_neg hbracket, htag]
    rw [hstep] at hnext
    exact SameReading.keep_unit rfl rfl hopens hstep hnext

theorem sameReading_dollarQuoted {name : JsString}
    (hname : (tag name).all isTagUnit = true) (hopens : opensForGuard (u :: text) = false)
    (hnext : SameReading (step (.dollarQuoted name) (u :: text)).1
      ((u :: text).drop (step (.dollarQuoted name) (u :: text)).2)) : SameReading (.dollarQuoted name) (u :: text) := by
  by_cases hclose : (tag name).isPrefixOf (u :: text) = true
  · have hstep : step (.dollarQuoted name) (u :: text) = (.code, (tag name).length) := by rw [step, if_pos hclose]
    rw [hstep] at hnext
    exact SameReading.keep_tag rfl rfl hclose hname hstep hnext
  · have hstep : step (.dollarQuoted name) (u :: text) = (.dollarQuoted name, 1) := by rw [step, if_neg hclose]
    rw [hstep] at hnext
    exact SameReading.keep_unit rfl rfl hopens hstep hnext

/-- The closing bracket opens nothing for the guard. -/
theorem strip_closingBracket (text : JsString) :
    stripSqlCommentsAndLiterals (unit ']' :: text) = unit ']' :: stripSqlCommentsAndLiterals text :=
  strip_cons (opensForGuard_of_all (by decide) text)

theorem sameReading_bracketed (hopens : opensForGuard (u :: text) = false)
    (hnext : SameReading (step (.quoted (unit ']')) (u :: text)).1
      ((u :: text).drop (step (.quoted (unit ']')) (u :: text)).2)) : SameReading (.quoted (unit ']')) (u :: text) := by
  have hexposed : (Mode.quoted (unit ']')).isExposed = true := by decide
  by_cases hpair : [unit ']', unit ']'].isPrefixOf (u :: text) = true
  · have hstep : step (.quoted (unit ']')) (u :: text) = (.quoted (unit ']'), 2) := by rw [step, if_pos hpair]
    rw [hstep] at hnext
    refine SameReading.keep hexposed hexposed hpair hstep ?_ hnext
    conv_lhs => rw [eq_append_of_isPrefixOf hpair]
    rw [cons_append, singleton_append, strip_closingBracket, strip_closingBracket]
    rfl
  by_cases hclose : u = unit ']'
  · have hstep : step (.quoted (unit ']')) (u :: text) = (.code, 1) := by
      rw [step, if_neg hpair, head?_cons, hclose, if_pos rfl]
    rw [hstep] at hnext
    exact SameReading.keep_unit hexposed rfl hopens hstep hnext
  · have hstep : step (.quoted (unit ']')) (u :: text) = (.quoted (unit ']'), 1) := by
      rw [step, if_neg hpair, head?_cons, if_neg (fun h => hclose (Option.some.inj h))]
    rw [hstep] at hnext
    exact SameReading.keep_unit hexposed hexposed hopens hstep hnext

theorem sameReading_quoted {quote u : UInt16} (hquote : quote ≠ unit ']')
    (hescape : ¬(u = unit '\\' ∧ quote = unit '\''))
    (hnext : SameReading (step (.quoted quote) (u :: text)).1
      ((u :: text).drop (step (.quoted quote) (u :: text)).2)) : SameReading (.quoted quote) (u :: text) := by
  have hmode : (Mode.quoted quote).isExposed = false := decide_eq_false hquote
  have hrest : ∀ text, guardRest (.quoted quote) text = afterQuoted quote text := fun text => if_neg hquote
  by_cases hclose : u = quote
  · subst hclose
    by_cases hpair : text.head? = some u
    · have hpairs : [u, u].isPrefixOf (u :: text) = true := by
        cases text with
        | nil => cases hpair
        | cons v text =>
          cases hpair
          rw [isPrefixOf_cons_cons, beq_self_eq_true, Bool.true_and, isPrefixOf_cons_cons, beq_self_eq_true,
            Bool.true_and, isPrefixOf_nil_left]
      have hstep : step (.quoted u) (u :: text) = (.quoted u, 2) := by rw [step, if_pos hpairs]
      rw [hstep] at hnext
      refine SameReading.pass hmode hstep ?_ hnext
      rw [hrest, hrest, afterQuoted, if_pos rfl, if_pos hpair, drop_succ_cons, drop_one]
    · have hpairs : ¬[u, u].isPrefixOf (u :: text) = true := by
        intro hpairs
        have htext := eq_append_of_isPrefixOf hpairs
        cases text with
        | nil => cases htext
        | cons v text =>
          cases (List.cons.inj (List.cons.inj htext).2).1
          exact hpair rfl
      have hstep : step (.quoted u) (u :: text) = (.code, 1) := by
        rw [step, if_neg hpairs, head?_cons, if_pos rfl]
      rw [hstep] at hnext
      refine SameReading.pass hmode hstep ?_ hnext
      rw [hrest, afterQuoted, if_pos rfl, if_neg hpair]
      rfl
  · have hpairs := isPrefixOf_of_ne hclose [quote] text
    have hstep : step (.quoted quote) (u :: text) = (.quoted quote, 1) := by
      rw [step, hpairs, if_neg Bool.false_ne_true, head?_cons, if_neg (fun h => hclose (Option.some.inj h))]
    rw [hstep] at hnext
    refine SameReading.pass hmode hstep ?_ hnext
    rw [hrest, hrest, afterQuoted, if_neg hclose, if_neg hescape]
    rfl

/-- A backslash in single quotes and the unit that it takes. -/
theorem sameReading_escape (htext : text.head? ≠ some (unit '\''))
    (hnext : SameReading (.quoted (unit '\'')) text.tail) : SameReading (.quoted (unit '\'')) (unit '\\' :: text) := by
  have hmode : (Mode.quoted (unit '\'')).isExposed = false := by decide
  have hone : ∀ u text, u ≠ unit '\'' → step (.quoted (unit '\'')) (u :: text) = (.quoted (unit '\''), 1) := by
    intro u text hu
    rw [step, isPrefixOf_of_ne hu [unit '\''] text, if_neg Bool.false_ne_true, head?_cons,
      if_neg (fun h => hu (Option.some.inj h))]
  have hbackslash := hone (unit '\\') text (by decide)
  have hrest : guardRest (.quoted (unit '\'')) (unit '\\' :: text) = guardRest (.quoted (unit '\'')) text.tail := by
    rw [guardRest, if_neg (by decide), guardRest, if_neg (by decide), afterQuoted, if_neg (by decide),
      if_pos ⟨rfl, rfl⟩]
  have hafter := hnext.after_blanks
  rw [SameReading, if_neg (eq_false_iff.1 hmode), hrest, ← hafter, keptFrom_cons _ _ _ _ hbackslash, hmode,
    Bool.false_and, if_neg Bool.false_ne_true, singleton_append, drop_one, tail_cons]
  refine (Words.dropWhile_squeeze_cons isJsSpace_blank isJsSpace_blank _).trans ?_
  cases text with
  | nil => rfl
  | cons u text =>
    have hu : u ≠ unit '\'' := fun h => htext (congrArg some h)
    rw [keptFrom_cons _ _ _ _ (hone u text hu), hmode, Bool.false_and, if_neg Bool.false_ne_true]
    exact Words.dropWhile_squeeze_cons isJsSpace_blank isJsSpace_blank _

theorem sameReading_lineComment
    (hnext : SameReading (step .lineComment (u :: text)).1 ((u :: text).drop (step .lineComment (u :: text)).2)) :
    SameReading .lineComment (u :: text) := by
  by_cases hend : u = lf
  · have hstep : step .lineComment (u :: text) = (.code, 1) := by rw [step, head?_cons, hend, if_pos rfl]
    rw [hstep] at hnext
    refine SameReading.pass rfl hstep ?_ hnext
    have hafter : guardRest .lineComment (u :: text) = lf :: text := by
      rw [hend]
      rfl
    have hopens : opensForGuard (lf :: text) = false := opensForGuard_of_all (by decide) text
    rw [hafter, strip_cons hopens]
    exact Words.dropWhile_squeeze_cons isJsSpace_blank (by decide) _
  · have hstep : step .lineComment (u :: text) = (.lineComment, 1) := by
      rw [step, head?_cons, if_neg (fun h => hend (Option.some.inj h))]
    rw [hstep] at hnext
    refine SameReading.pass rfl hstep ?_ hnext
    have hother : (fun v => v != lf) u = true := bne_iff_ne.2 hend
    rw [guardRest, afterLine, dropWhile_cons_of_pos (p := fun v => v != lf) hother]
    rfl

theorem sameReading_blockComment
    (hnext : SameReading (step .blockComment (u :: text)).1 ((u :: text).drop (step .blockComment (u :: text)).2)) :
    SameReading .blockComment (u :: text) := by
  by_cases hend : (ascii "*/").isPrefixOf (u :: text) = true
  · have hstep : step .blockComment (u :: text) = (.code, 2) := by rw [step, if_pos hend]
    rw [hstep] at hnext
    refine SameReading.pass rfl hstep ?_ hnext
    rw [guardRest, afterBlock, if_pos hend, guardRest, drop_succ_cons, drop_one]
  · have hstep : step .blockComment (u :: text) = (.blockComment, 1) := by rw [step, if_neg hend]
    rw [hstep] at hnext
    refine SameReading.pass rfl hstep ?_ hnext
    rw [guardRest, afterBlock, if_neg hend]
    rfl

/-! ## A whole text -/

/-- The tag of a mode consists of units of tags. -/
def Mode.HasTag (mode : Mode) : Prop := ∀ name, mode = .dollarQuoted name → (tag name).all isTagUnit = true

theorem hasTag_step (hmode : mode.HasTag) (text : JsString) : (step mode text).1.HasTag := by
  intro name hname
  cases mode with
  | code =>
    rw [step] at hname
    split at hname
    · cases hname
    split at hname
    · cases hname
    split at hname
    · cases hname
    split at hname
    · rename_i htag
      cases hname
      exact (dollarQuoteTagAt_eq_some htag).2
    · cases hname
  | quoted closing =>
    rw [step] at hname
    split at hname
    · cases hname
    dsimp only at hname
    split at hname <;> cases hname
  | dollarQuoted other =>
    rw [step] at hname
    split at hname
    · cases hname
    · exact hmode name hname
  | lineComment =>
    rw [step] at hname
    dsimp only at hname
    split at hname <;> cases hname
  | blockComment =>
    rw [step] at hname
    split at hname <;> cases hname

/-- One step of an aligned text. -/
theorem sameReading_cons (hmode : mode.HasTag) (hescape : ¬(mode = .quoted (unit '\'') ∧ u = unit '\\'))
    (halign : (if mode = .code then u != unit '#' else !(mode.isExposed && opensForGuard (u :: text))) = true)
    (hnext : SameReading (step mode (u :: text)).1 ((u :: text).drop (step mode (u :: text)).2)) :
    SameReading mode (u :: text) := by
  cases mode with
  | code =>
    rw [if_pos rfl, bne_iff_ne] at halign
    exact sameReading_code halign hnext
  | quoted closing =>
    rw [if_neg (fun h => nomatch h)] at halign
    by_cases hclosing : closing = unit ']'
    · subst hclosing
      have hexposed : (Mode.quoted (unit ']')).isExposed = true := by decide
      rw [hexposed, Bool.true_and, not_eq_true'] at halign
      exact sameReading_bracketed halign hnext
    · exact sameReading_quoted hclosing (fun h => hescape ⟨by rw [h.2], h.1⟩) hnext
  | dollarQuoted name =>
    rw [if_neg (fun h => nomatch h), Mode.isExposed, Bool.true_and, not_eq_true'] at halign
    exact sameReading_dollarQuoted (hmode name rfl) halign hnext
  | lineComment => exact sameReading_lineComment hnext
  | blockComment => exact sameReading_blockComment hnext

theorem sameReading_of_aligned (hmode : mode.HasTag)
    (haligned : alignedFrom mode text = true) : SameReading mode text := by
  induction mode, text using alignedFrom.induct with
  | case1 mode =>
    have hkept : keptFrom Mode.isExposed mode [] = [] := by rw [keptFrom]
    have hstrip : stripSqlCommentsAndLiterals [] = [] := by rw [stripSqlCommentsAndLiterals]
    rw [SameReading, hkept]
    split
    · rw [hstrip]
    · have hrest : guardRest mode [] = [] := by
        cases mode with
        | quoted closing => rw [guardRest, afterQuoted, ite_self]
        | _ => rfl
      rw [hrest, hstrip]
  | case2 mode u text hescape ih =>
    obtain ⟨rfl, rfl⟩ := hescape
    rw [alignedFrom, if_pos ⟨rfl, rfl⟩, and_eq_true, bne_iff_ne] at haligned
    exact sameReading_escape haligned.1 (ih hmode haligned.2)
  | case3 mode u text hescape ih =>
    rw [alignedFrom, if_neg hescape, and_eq_true] at haligned
    exact sameReading_cons hmode hescape haligned.1 (ih (hasTag_step hmode _) haligned.2)

variable {sql : JsString}

/-- The exposed text of an aligned statement is what the guard looks at, apart from blanks. -/
theorem squeezed_exposed (h : Aligned sql) :
    squeezed (exposed sql) = squeezed (stripSqlCommentsAndLiterals sql) := by
  have hreading : SameReading .code sql := sameReading_of_aligned (fun _ hname => nomatch hname) h
  rwa [SameReading, if_pos (show Mode.code.isExposed = true from rfl)] at hreading

/-!
# Which dangerous statements the guard misses

Reference: `src/lib/sqlDangerousStatements.ts` and `src/lib/sqlStatements.ts`.
-/

open Words (words)

/-! ## What the guard answers -/

theorem takeWhile_append_of_forall_not {p : UInt16 → Bool} (text : JsString) {more : JsString}
    (h : ∀ u ∈ more, p u = false) : (text ++ more).takeWhile p = text.takeWhile p := by
  induction text with
  | nil =>
    cases more with
    | nil => rfl
    | cons u more => exact takeWhile_cons_of_neg (eq_false_iff.1 (h u mem_cons_self))
  | cons u text ih => rw [cons_append, takeWhile_cons, takeWhile_cons, ih]

theorem words_append_of_forall_not (text : JsString) {more : JsString} (h : ∀ u ∈ more, isWordUnit u = false) :
    words isWordUnit (text ++ more) = words isWordUnit text := by
  induction more generalizing text with
  | nil => rw [append_nil]
  | cons u more ih =>
    have hmore := ih [] fun v hv => h v (mem_cons_of_mem _ hv)
    rw [nil_append] at hmore
    rw [Words.words_append_cons (h u mem_cons_self), hmore, Words.words_nil, append_nil]

theorem exists_trim (text : JsString) :
    ∃ blanks : JsString, text.dropWhile isJsSpace = trim text ++ blanks ∧ ∀ u ∈ blanks, isJsSpace u = true :=
  ⟨_, (rdropWhile_append_rtakeWhile).symm, fun _ => mem_rtakeWhile_imp⟩

theorem takeWhile_trim {p : UInt16 → Bool} (hp : ∀ u, isJsSpace u = true → p u = false) (text : JsString) :
    (trim text).takeWhile p = (text.dropWhile isJsSpace).takeWhile p := by
  obtain ⟨blanks, htext, hblanks⟩ := exists_trim text
  rw [htext, takeWhile_append_of_forall_not _ fun u hu => hp u (hblanks u hu)]

theorem words_trim (text : JsString) : words isWordUnit (trim text) = words isWordUnit text := by
  obtain ⟨blanks, htext, hblanks⟩ := exists_trim text
  rw [← Words.words_dropWhile isWordUnit_of_isJsSpace text, htext,
    words_append_of_forall_not _ fun u hu => isWordUnit_of_isJsSpace u (hblanks u hu)]

theorem hasWhere_trim (text : JsString) : hasWhere none (trim text) = true ↔ HasWhere text := by
  rw [hasWhere_eq_true_iff, Option.any_none, if_neg Bool.false_ne_true, HasWhere, words_trim, HasWhere]

/-- The letters that a text begins with, apart from blanks. -/
def frontLetters (text : JsString) : JsString := (text.dropWhile isJsSpace).takeWhile isLetter

theorem dangerousStatementReason_ne_none_iff (sql : JsString) : dangerousStatementReason sql ≠ none ↔
      (frontLetters (stripSqlCommentsAndLiterals sql)).map upperAscii ∈ [ascii "DROP", ascii "TRUNCATE"] ∨
        (frontLetters (stripSqlCommentsAndLiterals sql)).map upperAscii ∈ [ascii "DELETE", ascii "UPDATE"] ∧
          ¬HasWhere (stripSqlCommentsAndLiterals sql) := by
  rw [dangerousStatementReason, takeWhile_trim isLetter_of_isJsSpace, ← frontLetters, ← hasWhere_trim]
  generalize (frontLetters (stripSqlCommentsAndLiterals sql)).map upperAscii = keyword
  simp only [mem_cons, not_mem_nil, or_false]
  split
  · rename_i hdrop
    exact iff_of_true (fun h => nomatch h) (Or.inl (Or.inl hdrop))
  rename_i hdrop
  split
  · rename_i htruncate
    exact iff_of_true (fun h => nomatch h) (Or.inl (Or.inr htruncate))
  rename_i htruncate
  rw [or_iff_right (not_or.2 ⟨hdrop, htruncate⟩)]
  split
  · rename_i hdelete
    rw [and_iff_right (Or.inl hdelete)]
    split
    · rename_i hwhere
      exact iff_of_false (fun h => h rfl) (fun h => h hwhere)
    · rename_i hwhere
      exact iff_of_true (fun h => nomatch h) hwhere
  rename_i hdelete
  split
  · rename_i hupdate
    rw [and_iff_right (Or.inr hupdate)]
    split
    · rename_i hwhere
      exact iff_of_false (fun h => h rfl) (fun h => h hwhere)
    · rename_i hwhere
      exact iff_of_true (fun h => nomatch h) hwhere
  · rename_i hupdate
    exact iff_of_false (fun h => h rfl) (fun h => (not_or.2 ⟨hdelete, hupdate⟩) h.1)

/-! ## The first word of the code -/

/-- What a step in the code can do. -/
theorem step_code_cases (u : UInt16) (text : JsString) : step .code (u :: text) = (.code, 1) ∨
      (step .code (u :: text)).1 ≠ .code ∧ (step .code (u :: text)).1.isExposed = true ∧ (u = unit '[' ∨ u = unit '$') ∨
      (step .code (u :: text)).1.isExposed = false := by
  rw [step]
  split
  · exact Or.inr (Or.inr rfl)
  split
  · exact Or.inr (Or.inr rfl)
  split
  · rename_i closing hclosing
    rw [head?_cons, Option.bind_some, closingOf] at hclosing
    split at hclosing
    · rename_i hquote
      cases hclosing
      refine Or.inr (Or.inr ?_)
      rcases hquote with rfl | rfl | rfl <;> decide
    · split at hclosing
      · rename_i hbracket
        cases hclosing
        exact Or.inr (Or.inl ⟨(fun h => by cases h), by decide, Or.inl hbracket⟩)
      · cases hclosing
  split
  · rename_i name hname
    refine Or.inr (Or.inl ⟨(fun h => by cases h), rfl, Or.inr ?_⟩)
    rw [dollarQuoteTagAt] at hname
    split at hname
    · rename_i hopen
      exact Option.some.inj hopen.1
    · cases hname
  · exact Or.inl rfl

theorem step_hidden (hmode : mode.isExposed = false) (text : JsString) :
    (step mode text).1 = .code ∨ (step mode text).1 = mode := by
  cases mode with
  | code => cases hmode
  | quoted closing =>
    rw [step]
    split
    · exact Or.inr rfl
    dsimp only
    split
    · exact Or.inl rfl
    · exact Or.inr rfl
  | dollarQuoted name => cases hmode
  | lineComment =>
    rw [step]
    dsimp only
    split
    · exact Or.inl rfl
    · exact Or.inr rfl
  | blockComment =>
    rw [step]
    split
    · exact Or.inl rfl
    · exact Or.inr rfl

variable {keep : Mode → Bool}

/-- The text that is kept is exposed, or it is code only. -/
theorem keptFrom_hidden (hmode : keep mode = false) (u : UInt16) (text : JsString) :
    keptFrom keep mode (u :: text) =
      unit ' ' :: keptFrom keep (step mode (u :: text)).1 ((u :: text).drop (step mode (u :: text)).2) := by
  rw [keptFrom, hmode, Bool.false_and, if_neg Bool.false_ne_true, singleton_append]

theorem keptFrom_closed (hnext : keep (step mode (u :: text)).1 = false) :
    keptFrom keep mode (u :: text) =
      unit ' ' :: keptFrom keep (step mode (u :: text)).1 ((u :: text).drop (step mode (u :: text)).2) := by
  rw [keptFrom, hnext, Bool.and_false, if_neg Bool.false_ne_true, singleton_append]

theorem keptFrom_code (hkeep : keep .code = true)
    (hstep : step .code (u :: text) = (.code, 1)) : keptFrom keep .code (u :: text) = u :: keptFrom keep .code text := by
  rw [keptFrom, hstep, hkeep, Bool.true_and, if_pos rfl]
  rfl

/-- An exposed run that is not code begins with the unit that opens it. -/
theorem keptFrom_opening (hnext : (step .code (u :: text)).1.isExposed = true) :
    ∃ more, keptFrom Mode.isExposed .code (u :: text) = u :: more := by
  obtain ⟨n, hn⟩ := Nat.exists_eq_succ_of_ne_zero (step_pos .code (u :: text)).ne'
  rw [keptFrom, hnext, Bool.and_true, if_pos (show Mode.code.isExposed = true from rfl), hn, take_succ_cons,
    cons_append]
  exact ⟨_, rfl⟩

theorem isWordUnit_of_opens (hu : u = unit '[' ∨ u = unit '$') : isWordUnit u = false := by
  rcases hu with rfl | rfl <;> decide

/-- A word of the code goes on as far as a word of the exposed text. -/
theorem takeWhile_exposed (text : JsString) :
    (keptFrom Mode.isExposed .code text).takeWhile isWordUnit = (keptFrom Mode.isCode .code text).takeWhile isWordUnit := by
  have hblank : ¬isWordUnit (unit ' ') = true := by decide
  induction text with
  | nil => rw [keptFrom, keptFrom]
  | cons u text ih =>
    rcases step_code_cases u text with hstep | ⟨hcode, hnext, hu⟩ | hnext
    · rw [keptFrom_code rfl hstep, keptFrom_code rfl hstep, takeWhile_cons, takeWhile_cons, ih]
    · obtain ⟨more, hmore⟩ := keptFrom_opening hnext
      have hcode : (step .code (u :: text)).1.isCode = false := decide_eq_false hcode
      rw [hmore, keptFrom_closed hcode, takeWhile_cons_of_neg hblank,
        takeWhile_cons_of_neg (eq_false_iff.1 (isWordUnit_of_opens hu))]
    · have hcode : (step .code (u :: text)).1.isCode = false := decide_eq_false fun h => by cases h ▸ hnext
      rw [keptFrom_closed hnext, keptFrom_closed hcode, takeWhile_cons_of_neg hblank,
        takeWhile_cons_of_neg hblank]

/-- The word at the front of a text, apart from blanks. -/
def frontWord (text : JsString) : JsString := (text.dropWhile isJsSpace).takeWhile isWordUnit

theorem frontWord_cons_blank (hu : isJsSpace u = true) (text : JsString) :
    frontWord (u :: text) = frontWord text := by
  rw [frontWord, dropWhile_cons_of_pos hu, frontWord]

/-- When the exposed text begins with a letter, the code begins with the same word. -/
theorem frontWord_exposed (hmode : mode.isExposed = false ∨ mode = .code)
    (hletter : BeginsWithLetter (keptFrom Mode.isExposed mode text)) :
    frontWord (keptFrom Mode.isExposed mode text) = frontWord (keptFrom Mode.isCode mode text) := by
  induction mode, text using keptFrom.induct with
  | case1 mode => rw [keptFrom, keptFrom]
  | case2 mode u text ih =>
    have hdropBlank : ∀ rest : JsString, BeginsWithLetter (unit ' ' :: rest) → BeginsWithLetter rest := by
      intro rest
      rw [BeginsWithLetter, dropWhile_cons_of_pos isJsSpace_blank]
      exact id
    rcases hmode with hmode | rfl
    · have hcode : mode.isCode = false := by
        refine decide_eq_false ?_
        rintro rfl
        exact nomatch hmode
      rw [keptFrom_hidden hmode] at hletter ⊢
      rw [keptFrom_hidden hcode, frontWord_cons_blank isJsSpace_blank,
        frontWord_cons_blank isJsSpace_blank]
      refine ih ?_ (hdropBlank _ hletter)
      rcases step_hidden hmode (u :: text) with h | h
      · exact Or.inr h
      · exact Or.inl (by rw [h, hmode])
    rcases step_code_cases u text with hstep | ⟨-, hnext, hu⟩ | hnext
    · have hword := takeWhile_exposed (u :: text)
      rw [keptFrom_code rfl hstep] at hletter
      rw [keptFrom_code rfl hstep, keptFrom_code rfl hstep] at hword ⊢
      by_cases hblank : isJsSpace u = true
      · rw [frontWord_cons_blank hblank, frontWord_cons_blank hblank]
        rw [hstep] at ih
        refine ih (Or.inr rfl) ?_
        rwa [BeginsWithLetter, dropWhile_cons_of_pos hblank] at hletter
      · rw [frontWord, frontWord, dropWhile_cons_of_neg hblank, dropWhile_cons_of_neg hblank, hword]
    · obtain ⟨more, hmore⟩ := keptFrom_opening hnext
      obtain ⟨v, hv, hvletter⟩ := hletter
      have hblank : ¬isJsSpace u = true := by rcases hu with rfl | rfl <;> decide
      rw [hmore, dropWhile_cons_of_neg hblank] at hv
      cases hv
      have hword := isWordUnit_of_isLetter hvletter
      rw [isWordUnit_of_opens hu] at hword
      exact nomatch hword
    · have hcode : (step .code (u :: text)).1.isCode = false := decide_eq_false fun h => by cases h ▸ hnext
      rw [keptFrom_closed hnext] at hletter ⊢
      rw [keptFrom_closed hcode, frontWord_cons_blank isJsSpace_blank,
        frontWord_cons_blank isJsSpace_blank]
      exact ih (Or.inl hnext) (hdropBlank _ hletter)

/-! ## The guard on an aligned statement -/

theorem isLetter_of_upperAscii (hu : isLetter (upperAscii u) = true) : isLetter u = true := by
  rw [upperAscii] at hu
  split at hu
  · rename_i hlower
    rw [isLetter, hlower, Bool.or_true]
  · exact hu

/-- A keyword is made of letters. -/
theorem all_isLetter_of_keyword {word : JsString} {keywords : List JsString}
    (hkeywords : keywords.all (·.all isLetter) = true) (hword : word.map upperAscii ∈ keywords) :
    word.all isLetter = true := by
  have hletters := all_eq_true.1 hkeywords _ hword
  rw [all_map, all_eq_true] at hletters
  exact all_eq_true.2 fun u hu => isLetter_of_upperAscii (hletters u hu)

theorem takeWhile_isLetter (h : (text.takeWhile isWordUnit).all isLetter = true) :
    text.takeWhile isLetter = text.takeWhile isWordUnit := by
  induction text with
  | nil => rfl
  | cons u text ih =>
    by_cases hu : isWordUnit u = true
    · rw [takeWhile_cons_of_pos hu, all_cons, and_eq_true] at h
      rw [takeWhile_cons_of_pos hu, takeWhile_cons_of_pos h.1, ih h.2]
    · rw [takeWhile_cons_of_neg hu, takeWhile_cons_of_neg fun hletter => hu (isWordUnit_of_isLetter hletter)]

theorem frontLetters_eq_frontWord (h : (frontWord text).all isLetter = true) :
    frontLetters text = frontWord text := takeWhile_isLetter h

theorem beginsWithLetter_of_frontLetters (h : frontLetters text ≠ []) : BeginsWithLetter text := by
  rw [frontLetters] at h
  cases hdrop : text.dropWhile isJsSpace with
  | nil =>
    rw [hdrop] at h
    exact absurd rfl h
  | cons u rest =>
    rw [hdrop] at h
    refine ⟨u, by rw [hdrop, head?_cons], ?_⟩
    by_contra hletter
    exact h (takeWhile_cons_of_neg hletter)

/-- The first word of the code of a text whose exposed part begins with a letter. -/
theorem head?_words_code (h : BeginsWithLetter (exposed sql)) :
    (words isWordUnit (code sql)).head? = some (frontWord (exposed sql)) := by
  have hfront : frontWord (exposed sql) = frontWord (code sql) := frontWord_exposed (Or.inr rfl) h
  obtain ⟨u, hu, hletter⟩ := h
  have hhead : ((code sql).dropWhile isJsSpace).head?.any isWordUnit = true := by
    have hword := isWordUnit_of_isLetter hletter
    rw [frontWord, frontWord] at hfront
    cases hexposed : (exposed sql).dropWhile isJsSpace with
    | nil =>
      rw [hexposed] at hu
      exact nomatch hu
    | cons v rest =>
      rw [hexposed] at hu hfront
      cases hu
      rw [takeWhile_cons_of_pos hword] at hfront
      cases hcode : (code sql).dropWhile isJsSpace with
      | nil =>
        rw [hcode] at hfront
        exact nomatch hfront
      | cons w more =>
        rw [head?_cons, any_some]
        by_contra hnot
        rw [hcode, takeWhile_cons_of_neg hnot] at hfront
        exact nomatch hfront
  rw [← Words.words_dropWhile isWordUnit_of_isJsSpace (code sql), Words.head?_words hhead, hfront, frontWord]

/-- The guard sees a dangerous statement that is aligned when it begins with a letter and no `WHERE` is in its brackets
or between its tags. -/
theorem noticed_iff (haligned : Aligned sql) (hdangerous : Dangerous sql) :
    dangerousStatementReason sql ≠ none ↔
      BeginsWithLetter (exposed sql) ∧ (Begins sql [ascii "DELETE", ascii "UPDATE"] → ¬HasWhere (exposed sql)) := by
  have hsame := squeezed_exposed haligned
  have hletters : frontLetters (stripSqlCommentsAndLiterals sql) = frontLetters (exposed sql) :=
    (Words.takeWhile_dropWhile_of_squeeze_eq isJsSpace_blank isLetter_of_isJsSpace hsame).symm
  have hwhere : HasWhere (stripSqlCommentsAndLiterals sql) ↔ HasWhere (exposed sql) := by
    rw [HasWhere, HasWhere, Words.words_of_squeeze_eq isJsSpace_blank isWordUnit_of_isJsSpace hsame]
  rw [dangerousStatementReason_ne_none_iff, hletters, hwhere]
  -- where the exposed text begins with a letter, its letters are the first word of the code
  have hfirst : ∀ keywords : List JsString, keywords.all (·.all isLetter) = true → BeginsWithLetter (exposed sql) →
      Begins sql keywords → (frontLetters (exposed sql)).map upperAscii ∈ keywords := by
    rintro keywords hkeywords hbegins ⟨word, hword, hkeyword⟩
    rw [head?_words_code hbegins] at hword
    cases hword
    rwa [frontLetters_eq_frontWord (all_isLetter_of_keyword hkeywords hkeyword)]
  constructor
  · intro hreason
    have hbegins : BeginsWithLetter (exposed sql) := by
      refine beginsWithLetter_of_frontLetters fun hnil => ?_
      rw [hnil] at hreason
      rcases hreason with h | ⟨h, -⟩
      · exact absurd h (by decide)
      · exact absurd h (by decide)
    refine ⟨hbegins, fun hremoves => ?_⟩
    have hkeyword := hfirst _ (by decide) hbegins hremoves
    rcases hreason with h | ⟨-, h⟩
    · simp only [mem_cons, not_mem_nil, or_false] at h hkeyword
      rcases h with h | h <;> rw [h] at hkeyword <;> exact absurd hkeyword (by decide)
    · exact h
  · rintro ⟨hbegins, hnone⟩
    rcases hdangerous with hdrops | ⟨hremoves, -⟩
    · exact Or.inl (hfirst _ (by decide) hbegins hdrops)
    · exact Or.inr ⟨hfirst _ (by decide) hbegins hremoves, hnone hremoves⟩

/-- Where the statements are aligned, the guard misses the ones that do not begin with a letter, and those that delete or
update with the word `WHERE` in brackets or between tags only. -/
theorem guard_agrees_iff (sql : JsString) (splitGo : Bool)
    (haligned : ∀ statement ∈ splitSqlStatementRanges sql splitGo, Aligned statement.sql) :
    GuardAgrees sql splitGo ↔
      ∀ statement ∈ splitSqlStatementRanges sql splitGo, Dangerous statement.sql →
        BeginsWithLetter (exposed statement.sql) ∧
          (Begins statement.sql [ascii "DELETE", ascii "UPDATE"] → ¬HasWhere (exposed statement.sql)) := by
  rw [GuardAgrees]
  refine forall_congr' fun statement => forall_congr' fun hmem => forall_congr' fun hdangerous => ?_
  exact noticed_iff (haligned statement hmem) hdangerous

theorem guard_agrees_iff_comment :
    GuardAgrees (ascii "DELETE FROM t -- where") false ↔
      ∀ statement ∈ splitSqlStatementRanges (ascii "DELETE FROM t -- where") false, Dangerous statement.sql →
        BeginsWithLetter (exposed statement.sql) ∧
          (Begins statement.sql [ascii "DELETE", ascii "UPDATE"] → ¬HasWhere (exposed statement.sql)) := by
  refine guard_agrees_iff _ _ fun statement hmem => ?_
  have hstatements : splitSqlStatementRanges (ascii "DELETE FROM t -- where") false =
      [⟨ascii "DELETE FROM t -- where", 0, 22⟩] := by decide +kernel
  rw [hstatements, mem_singleton] at hmem
  rw [hmem, Aligned]
  decide +kernel

/-- A table named `where` in brackets hides that there is no `WHERE`. -/
theorem guard_bracket_wrong : ¬GuardAgrees (ascii "DELETE FROM [where]") false := by
  intro h
  have hmem : (⟨ascii "DELETE FROM [where]", 0, 19⟩ : SqlStatementRange) ∈
      splitSqlStatementRanges (ascii "DELETE FROM [where]") false := by decide +kernel
  have hwords : words isWordUnit (code (ascii "DELETE FROM [where]")) = [ascii "DELETE", ascii "FROM"] := by
    decide +kernel
  have hdangerous : Dangerous (ascii "DELETE FROM [where]") := by
    refine Or.inr ⟨⟨ascii "DELETE", by rw [hwords]; rfl, by decide⟩, ?_⟩
    rw [HasWhere, hwords]
    decide
  exact h _ hmem hdangerous (by decide +kernel)

end Taomni.Database.Sql
