import Taomni.Dap.Chunking

/-!
# Cron schedules

A field is a list of values, ranges and stars with steps, and it is marked value by value. The loop that marks adds
the step before it compares, in 32 bits.

Reference: `src-tauri/src/servers/cron.rs`, `CronSchedule` and `FieldMatcher`.
-/

namespace Taomni.Servers

open List
open Agent (Text isWhitespace trim)
open Dap (splitOnce parseUsize)

/-! ## Fields -/

/-- A field is refused with a text, or an addition leaves 32 bits. -/
inductive CronFailure where
  | refused (text : Text)
  | overflow
deriving DecidableEq

/-- `str::parse::<u32>`. -/
def parseU32 (s : Text) : Option ℕ := (parseUsize s).filter (· < 2 ^ 32)

/-- A part of a field: from `start` to `stop` in steps. -/
structure Component where
  start : ℕ
  stop : ℕ
  step : ℕ
  step_pos : 0 < step
deriving DecidableEq

section

variable (field : Text)

def refuse {α : Type} (what : String) (text : Text) : Except CronFailure α :=
  .error (.refused (what.toList ++ text ++ "' in '".toList ++ field ++ "'".toList))

/-- The part before an optional step, and the step. -/
def readStep (part : Text) : Except CronFailure (Text × { step : ℕ // 0 < step }) :=
  match splitOnce '/' part with
  | none => .ok (part, ⟨1, Nat.one_pos⟩)
  | some (range, step) =>
    match parseU32 step with
    | none => refuse field "invalid step '" step
    | some n =>
      if h : 0 < n then .ok (range, ⟨n, h⟩)
      else .error (.refused ("step cannot be zero in '".toList ++ field ++ "'".toList))

def readRange (min max : ℕ) (range : Text) : Except CronFailure (ℕ × ℕ) :=
  if range = ['*'] then .ok (min, max)
  else
    match splitOnce '-' range with
    | some (a, b) =>
      match parseU32 a with
      | none => refuse field "invalid range start '" a
      | some start =>
        match parseU32 b with
        | none => refuse field "invalid range end '" b
        | some stop => .ok (start, stop)
    | none =>
      match parseU32 range with
      | none => refuse field "invalid value '" range
      | some value => .ok (value, value)

def readComponent (min max : ℕ) (part : Text) : Except CronFailure Component :=
  if (trim part).isEmpty then .error (.refused ("empty cron field component in '".toList ++ field ++ "'".toList))
  else do
    let (range, step) ← readStep field (trim part)
    let (start, stop) ← readRange field min max range
    if start < min ∨ max < stop ∨ stop < start then
      .error (.refused ("value out of range [".toList ++ Nat.toDigits 10 min ++ "-".toList ++ Nat.toDigits 10 max ++
        "] in cron field '".toList ++ field ++ "'".toList))
    else .ok ⟨start, stop, step.1, step.2⟩

/-- The loop that marks a component, from one of its values. -/
@[grind =] def Component.mark (c : Component) (v : ℕ) (allowed : List Bool) : Except CronFailure (List Bool) :=
  if v ≤ c.stop then
    if v + c.step < 2 ^ 32 then c.mark (v + c.step) (allowed.set v true) else .error .overflow
  else .ok allowed
termination_by c.stop + 1 - v
decreasing_by
  have hstep := c.step_pos
  omega

def markAll (min max : ℕ) : List Text → List Bool → Except CronFailure (List Bool)
  | [], allowed => .ok allowed
  | part :: parts, allowed => do
    let c ← readComponent field min max part
    let allowed ← c.mark c.start allowed
    markAll min max parts allowed

end

structure FieldMatcher where
  /-- By value. -/
  allowed : List Bool
  isWildcard : Bool

namespace FieldMatcher

def parse (field : Text) (min max : ℕ) : Except CronFailure FieldMatcher :=
  if max + 1 < 2 ^ 32 then
    (markAll field min max (field.splitOn ',') (List.replicate (max + 1) false)).map (⟨·, field = ['*']⟩)
  else .error .overflow

def contains (m : FieldMatcher) (value : ℕ) : Bool := m.allowed.getD value false

end FieldMatcher

/-! ## Schedules -/

structure CronSchedule where
  minute : FieldMatcher
  hour : FieldMatcher
  dom : FieldMatcher
  month : FieldMatcher
  dow : FieldMatcher

/-- A local time; the days of the week count from Sunday. -/
structure Moment where
  minute : ℕ
  hour : ℕ
  day : ℕ
  month : ℕ
  weekday : ℕ

/-- `str::split_whitespace`. -/
def splitWhitespace (s : Text) : List Text := (s.splitOnP isWhitespace).filter fun word => !word.isEmpty

namespace CronSchedule

def parse (expr : Text) : Except CronFailure CronSchedule :=
  match splitWhitespace expr with
  | [minute, hour, dom, month, dow] => do
    let minute ← FieldMatcher.parse minute 0 59
    let hour ← FieldMatcher.parse hour 0 23
    let dom ← FieldMatcher.parse dom 1 31
    let month ← FieldMatcher.parse month 1 12
    let dow ← FieldMatcher.parse dow 0 7
    return ⟨minute, hour, dom, month, dow⟩
  | fields =>
    .error (.refused ("cron expression must have 5 fields, got ".toList ++ Nat.toDigits 10 fields.length))

/-- `CronSchedule::matches`. -/
def fires (s : CronSchedule) (now : Moment) : Bool :=
  let dowMatch := s.dow.contains now.weekday || (now.weekday == 0 && s.dow.contains 7)
  let dayOk :=
    if s.dom.isWildcard || s.dow.isWildcard then s.dom.contains now.day && dowMatch
    else s.dom.contains now.day || dowMatch
  s.minute.contains now.minute && s.hour.contains now.hour && s.month.contains now.month && dayOk

end CronSchedule

/-! ## What fields say -/

/-- Digits, with a plus sign or without, of a number of 32 bits. -/
def IsNumber (text : Text) (n : ℕ) : Prop :=
  ∃ digits, (text = digits ∨ text = '+' :: digits) ∧ digits ≠ [] ∧ (∀ c ∈ digits, c.isDigit = true) ∧
    n = Nat.ofDigitChars 10 digits 0 ∧ n < 2 ^ 32

inductive IsRange (min max : ℕ) : Text → ℕ → ℕ → Prop where
  | star : IsRange min max ['*'] min max
  | value {text : Text} {n : ℕ} (h : IsNumber text n) : IsRange min max text n n
  | between {text text' : Text} {start stop : ℕ} (h : IsNumber text start) (h' : IsNumber text' stop) :
    IsRange min max (text ++ '-' :: text') start stop

inductive IsStepped (min max : ℕ) : Text → Component → Prop where
  | plain {range : Text} {start stop : ℕ} (h : IsRange min max range start stop) :
    IsStepped min max range ⟨start, stop, 1, Nat.one_pos⟩
  | step {range step : Text} {start stop n : ℕ} (h : IsRange min max range start stop) (hn : IsNumber step n)
    (hpos : 0 < n) : IsStepped min max (range ++ '/' :: step) ⟨start, stop, n, hpos⟩

/-- A part of a field, between blanks. -/
structure IsComponent (min max : ℕ) (part : Text) (c : Component) : Prop where
  text : IsStepped min max (trim part) c
  low : min ≤ c.start
  order : c.start ≤ c.stop
  high : c.stop ≤ max

/-- A list of components with commas. -/
def IsField (min max : ℕ) (field : Text) : Prop := ∀ part ∈ field.splitOn ',', ∃ c, IsComponent min max part c

/-- The value is one of a component that is listed. -/
def Denotes (min max : ℕ) (field : Text) (v : ℕ) : Prop :=
  ∃ part ∈ field.splitOn ',', ∃ c, IsComponent min max part c ∧ ∃ k, v = c.start + k * c.step ∧ v ≤ c.stop

/-- A field is taken for what it says. -/
structure FieldCorrect (field : Text) (min max : ℕ) : Prop where
  accepted : (∃ m, FieldMatcher.parse field min max = .ok m) ↔ IsField min max field
  allowed : ∀ m, FieldMatcher.parse field min max = .ok m → ∀ v, m.contains v = true ↔ Denotes min max field v
  noOverflow : FieldMatcher.parse field min max ≠ .error .overflow

/-- The fields of an expression decide when it fires. -/
def ScheduleCorrect (expr : Text) : Prop :=
  ∀ schedule, CronSchedule.parse expr = .ok schedule →
    ∃ minute hour dom month dow, splitWhitespace expr = [minute, hour, dom, month, dow] ∧ ∀ now : Moment,
      schedule.fires now = true ↔
        Denotes 0 59 minute now.minute ∧ Denotes 0 23 hour now.hour ∧ Denotes 1 12 month now.month ∧
          let domFits := Denotes 1 31 dom now.day
          let dowFits := Denotes 0 7 dow now.weekday ∨ now.weekday = 0 ∧ Denotes 0 7 dow 7
          if dom = ['*'] ∨ dow = ['*'] then domFits ∧ dowFits else domFits ∨ dowFits

/-- The first value past the end is a number of 32 bits. -/
def Component.Fits (c : Component) : Prop := c.start + ((c.stop - c.start) / c.step + 1) * c.step < 2 ^ 32

/-- The components fit, up to the first part that is none. -/
def StepsFit (field : Text) (min max : ℕ) : List Text → Prop
  | [] => True
  | part :: parts => ∀ c, readComponent field min max part = .ok c → c.Fits ∧ StepsFit field min max parts

/-!
# What cron fields denote

The parts of a field are read as the grammar says. Marking one gives its values, unless the step takes the loop out
of 32 bits.

Reference: `src-tauri/src/servers/cron.rs`, `FieldMatcher::parse`.
-/

open Dap (splitOnce parseUsize usizeLimit)

/-! ## Texts -/

theorem splitOnce_eq_none {c : Char} {s : Text} : splitOnce c s = none ↔ c ∉ s := by
  rw [splitOnce, ← contains_iff_mem (a := c)]
  split
  · next h => exact iff_of_false (Option.some_ne_none _) (not_not_intro h)
  · next h => exact iff_of_true rfl h

theorem splitOnce_append {c : Char} {a : Text} (ha : c ∉ a) (b : Text) : splitOnce c (a ++ c :: b) = some (a, b) := by
  have hall : ∀ d ∈ a, (d != c) = true := fun d hd => bne_iff_ne.mpr fun heq => ha (heq ▸ hd)
  have hmem : (a ++ c :: b).contains c = true :=
    contains_iff_mem.mpr (mem_append_right _ mem_cons_self)
  have hstop : ¬(c != c) = true := by rw [bne_self_eq_false]; exact Bool.false_ne_true
  rw [splitOnce, if_pos hmem, takeWhile_append_of_pos hall, dropWhile_append_of_pos hall,
    takeWhile_cons_of_neg (p := (· != c)) hstop, dropWhile_cons_of_neg (p := (· != c)) hstop,
    append_nil]
  rfl

theorem splitOnce_eq_some {c : Char} {s a b : Text} (h : splitOnce c s = some (a, b)) : c ∉ a ∧ s = a ++ c :: b := by
  have hmem : c ∈ s := by
    by_contra hnot
    rw [(splitOnce_eq_none).mpr hnot] at h
    cases h
  obtain ⟨front, back, rfl, hfront⟩ := eq_append_cons_of_mem hmem
  rw [splitOnce_append hfront] at h
  cases h
  exact ⟨hfront, rfl⟩

variable {text : Text}

theorem parseU32_iff {n : ℕ} : parseU32 text = some n ↔ IsNumber text n := by
  rw [parseU32, Option.filter_eq_some_iff, decide_eq_true_eq]
  constructor
  · rintro ⟨h, hn⟩
    rw [parseUsize] at h
    set digits := if text.head? = some '+' then text.drop 1 else text with hdigits
    split at h
    · cases h
    · next hne =>
      split at h
      · cases h
      · next hall =>
        dsimp only at h
        split at h
        · next hfits =>
          cases h
          refine ⟨digits, ?_, mt List.isEmpty_iff.mpr hne, ?_, rfl, hn⟩
          · rw [hdigits]
            split
            · next hsign =>
              refine .inr ?_
              cases text with
              | nil => cases hsign
              | cons c text => rw [drop_one, tail_cons, Option.some.inj hsign]
            · exact .inl rfl
          · rw [Bool.not_eq_true', Bool.not_eq_false] at hall
            exact all_eq_true.mp hall
        · cases h
  · rintro ⟨digits, htext, hne, hall, rfl, hn⟩
    refine ⟨?_, hn⟩
    have hrest : (if text.head? = some '+' then text.drop 1 else text) = digits := by
      rcases htext with rfl | rfl
      · rw [if_neg]
        intro hsign
        have hdigit := hall '+' (mem_of_mem_head? hsign)
        exact absurd hdigit (by decide)
      · rw [if_pos head?_cons, drop_one, tail_cons]
    have hfull : Nat.ofDigitChars 10 digits 0 < usizeLimit := lt_trans hn (by decide)
    rw [parseUsize, hrest, if_neg (mt List.isEmpty_iff.mp hne), if_neg]
    · exact if_pos hfull
    · rw [all_eq_true.mpr hall]
      exact Bool.false_ne_true

theorem IsNumber.mem {n : ℕ} (h : IsNumber text n) {c : Char} (hc : c ∈ text) :
    c.isDigit = true ∨ c = '+' := by
  obtain ⟨digits, rfl | rfl, -, hall, -⟩ := h
  · exact .inl (hall c hc)
  · rcases mem_cons.mp hc with rfl | hc
    · exact .inr rfl
    · exact .inl (hall c hc)

theorem IsNumber.ne_nil {n : ℕ} (h : IsNumber text n) : text ≠ [] := by
  obtain ⟨digits, rfl | rfl, hne, -⟩ := h
  · exact hne
  · exact cons_ne_nil _ _

theorem not_isNumber_of_mem {c : Char} (hdigit : c.isDigit = false) (hsign : c ≠ '+') (hc : c ∈ text)
    (n : ℕ) : ¬IsNumber text n := fun h => (h.mem hc).elim (by rw [hdigit]; exact Bool.false_ne_true) hsign

/-! ## Components -/

section

variable {field : Text} {min max : ℕ}

theorem readRange_iff {range : Text} {start stop : ℕ} :
    readRange field min max range = .ok (start, stop) ↔ IsRange min max range start stop := by
  constructor
  · intro h
    rw [readRange] at h
    split at h
    · next hstar =>
      cases h
      rw [hstar]
      exact .star
    · split at h
      · next a b hsplit =>
        split at h
        · cases h
        · next n hn =>
          split at h
          · cases h
          · next m hm =>
            cases h
            rw [(splitOnce_eq_some hsplit).2]
            exact .between ((parseU32_iff).mp hn) ((parseU32_iff).mp hm)
      · split at h
        · cases h
        · next n hn =>
          cases h
          exact .value ((parseU32_iff).mp hn)
  · intro h
    rw [readRange]
    cases h with
    | star => rw [if_pos rfl]
    | value h =>
      have hstar : range ≠ ['*'] := by
        rintro rfl
        exact not_isNumber_of_mem (by decide) (by decide) mem_cons_self _ h
      have hdash : '-' ∉ range := fun hmem => not_isNumber_of_mem (by decide) (by decide) hmem _ h
      simp only [if_neg hstar, (splitOnce_eq_none).mpr hdash, (parseU32_iff).mpr h]
    | @between text text' _ _ h h' =>
      have hstar : text ++ '-' :: text' ≠ ['*'] := by
        intro heq
        have hmem : '-' ∈ ['*'] := heq ▸ mem_append_right _ mem_cons_self
        exact absurd (mem_singleton.mp hmem) (by decide)
      have hdash : '-' ∉ text := fun hmem => not_isNumber_of_mem (by decide) (by decide) hmem _ h
      simp only [if_neg hstar, splitOnce_append hdash, (parseU32_iff).mpr h, (parseU32_iff).mpr h']

theorem IsRange.slash {range : Text} {start stop : ℕ} (h : IsRange min max range start stop) : '/' ∉ range := by
  have hnumber : ∀ {text : Text} {n : ℕ}, IsNumber text n → '/' ∉ text :=
    fun h hmem => not_isNumber_of_mem (by decide) (by decide) hmem _ h
  cases h with
  | star => exact fun hmem => absurd (mem_singleton.mp hmem) (by decide)
  | value h => exact hnumber h
  | between h h' =>
    rw [mem_append, mem_cons]
    rintro (hmem | hmem | hmem)
    · exact hnumber h hmem
    · exact absurd hmem (by decide)
    · exact hnumber h' hmem

variable {c : Component}

theorem IsStepped.ne_nil (h : IsStepped min max text c) : text ≠ [] := by
  cases h with
  | plain h =>
    cases h with
    | star => exact cons_ne_nil _ _
    | value h => exact h.ne_nil
    | between => exact append_ne_nil_of_right_ne_nil _ (cons_ne_nil _ _)
  | step => exact append_ne_nil_of_right_ne_nil _ (cons_ne_nil _ _)

theorem readStep_iff {range : Text} {step : { step : ℕ // 0 < step }} :
    readStep field text = .ok (range, step) ↔ ('/' ∉ text ∧ range = text ∧ step = ⟨1, Nat.one_pos⟩) ∨
        ∃ digits, IsNumber digits step ∧ '/' ∉ range ∧ text = range ++ '/' :: digits := by
  rw [readStep]
  constructor
  · intro h
    split at h
    · next hsplit =>
      cases h
      exact .inl ⟨(splitOnce_eq_none).mp hsplit, rfl, rfl⟩
    · next hsplit =>
      split at h
      · cases h
      · next n hn =>
        split at h
        · cases h
          exact .inr ⟨_, (parseU32_iff).mp hn, splitOnce_eq_some hsplit⟩
        · cases h
  · rintro (⟨hslash, rfl, rfl⟩ | ⟨digits, hn, hslash, rfl⟩)
    · simp only [(splitOnce_eq_none).mpr hslash]
    · simp only [splitOnce_append hslash, (parseU32_iff).mpr hn, dif_pos step.2]

theorem isStepped_iff {text : Text} {c : Component} : IsStepped min max text c ↔
      ∃ range, readStep field text = .ok (range, ⟨c.step, c.step_pos⟩) ∧ IsRange min max range c.start c.stop := by
  constructor
  · intro h
    cases h with
    | plain h => exact ⟨_, (readStep_iff).mpr (.inl ⟨h.slash, rfl, rfl⟩), h⟩
    | step h hn hpos => exact ⟨_, (readStep_iff).mpr (.inr ⟨_, hn, h.slash, rfl⟩), h⟩
  · rintro ⟨range, hstep, h⟩
    rcases (readStep_iff).mp hstep with ⟨-, rfl, hone⟩ | ⟨digits, hn, -, rfl⟩
    · obtain ⟨start, stop, step, hpos⟩ := c
      cases hone
      exact .plain h
    · exact .step h hn c.step_pos

theorem readComponent_iff {part : Text} :
    readComponent field min max part = .ok c ↔ IsComponent min max part c := by
  rw [readComponent]
  constructor
  · intro h
    split at h
    · cases h
    · obtain ⟨⟨range, step⟩, hstep, h⟩ := exists_of_bind_eq_ok h
      obtain ⟨⟨start, stop⟩, hrange, h⟩ := exists_of_bind_eq_ok h
      dsimp only at h
      split at h
      · cases h
      · next hbounds =>
        cases h
        rw [not_or, not_or, not_lt, not_lt, not_lt] at hbounds
        exact ⟨(isStepped_iff).mpr ⟨range, hstep, (readRange_iff).mp hrange⟩, hbounds.1, hbounds.2.2, hbounds.2.1⟩
  · rintro ⟨htext, hlow, horder, hhigh⟩
    have hne : ¬(trim part).isEmpty = true := mt List.isEmpty_iff.mp htext.ne_nil
    obtain ⟨range, hstep, hrange⟩ := (@isStepped_iff field _ _ _ _).mp htext
    have hbounds : ¬(c.start < min ∨ max < c.stop ∨ c.stop < c.start) := by omega
    rw [if_neg hne, hstep]
    change (readRange field min max range >>= _) = _
    rw [(readRange_iff).mpr hrange]
    exact if_neg hbounds

theorem readComponent_ne_overflow {part : Text} : readComponent field min max part ≠ .error .overflow := by
  have hstep : readStep field (trim part) ≠ .error .overflow := by
    rw [readStep]
    intro h
    split at h
    · cases h
    · split at h
      · cases h
      · split at h <;> cases h
  have hrange : ∀ range, readRange field min max range ≠ .error .overflow := by
    intro range h
    rw [readRange] at h
    split at h
    · cases h
    · split at h
      · split at h
        · cases h
        · split at h <;> cases h
      · split at h <;> cases h
  rw [readComponent]
  split
  · nofun
  · intro h
    rcases eq_error_of_bind h with h | ⟨⟨range, step⟩, -, h⟩
    · exact hstep h
    · rcases eq_error_of_bind h with h | ⟨⟨start, stop⟩, -, h⟩
      · exact hrange range h
      · dsimp only at h
        split at h <;> cases h

/-! ## Marking -/

theorem Component.exists_mark (c : Component) (v : ℕ) (allowed : List Bool) :
    (∃ marked, c.mark v allowed = .ok marked) ↔ (v ≤ c.stop → v + ((c.stop - v) / c.step + 1) * c.step < 2 ^ 32) := by
  induction v, allowed using Component.mark.induct c with
  | case1 v allowed hv hfit ih =>
    rw [Component.mark, if_pos hv, if_pos hfit, ih]
    have hpos := c.step_pos
    rw [imp_iff_right hv]
    rcases le_or_gt (v + c.step) c.stop with hnext | hnext
    · have hquotient : (c.stop - v) / c.step = (c.stop - (v + c.step)) / c.step + 1 := by
        rw [← Nat.add_div_right _ hpos]
        congr 1
        omega
      rw [imp_iff_right hnext, hquotient, Nat.succ_mul ((c.stop - (v + c.step)) / c.step + 1)]
      omega
    · have hquotient : (c.stop - v) / c.step = 0 := Nat.div_eq_of_lt (by omega)
      rw [hquotient]
      omega
  | case2 v allowed hv hfit =>
    rw [Component.mark, if_pos hv, if_neg hfit]
    refine iff_of_false (fun ⟨_, h⟩ => nomatch h) fun h => hfit ?_
    have hnext := h hv
    rw [Nat.succ_mul] at hnext
    omega
  | case3 v allowed hv =>
    rw [Component.mark, if_neg hv]
    exact iff_of_true ⟨allowed, rfl⟩ fun h => absurd h hv

theorem Component.eq_overflow_of_mark {v : ℕ} {allowed : List Bool} {e : CronFailure}
    (h : c.mark v allowed = .error e) : e = .overflow := by
  induction v, allowed using Component.mark.induct c with
  | case1 v allowed hv hfit ih =>
    rw [Component.mark, if_pos hv, if_pos hfit] at h
    exact ih h
  | case2 v allowed hv hfit =>
    rw [Component.mark, if_pos hv, if_neg hfit] at h
    cases h
    rfl
  | case3 v allowed hv =>
    rw [Component.mark, if_neg hv] at h
    cases h

/-- What is marked is marked in steps. -/
theorem Component.getD_mark {v : ℕ} {allowed marked : List Bool} (h : c.mark v allowed = .ok marked)
    (hlength : c.stop < allowed.length) : marked.length = allowed.length ∧
      ∀ w, marked.getD w false = true ↔ allowed.getD w false = true ∨ ∃ k, w = v + k * c.step ∧ w ≤ c.stop := by
  induction v, allowed using Component.mark.induct c with
  | case1 v allowed hv hfit ih =>
    rw [Component.mark, if_pos hv, if_pos hfit] at h
    obtain ⟨hsame, hmarked⟩ := ih h (by rwa [length_set])
    refine ⟨hsame.trans length_set, fun w => ?_⟩
    have hset : (allowed.set v true).getD w false = true ↔ allowed.getD w false = true ∨ w = v := by
      rw [getD_eq_getElem?_getD, getD_eq_getElem?_getD]
      by_cases hw : w = v
      · rw [hw, getElem?_set_self (by omega)]
        exact iff_of_true rfl (.inr rfl)
      · rw [getElem?_set_ne (Ne.symm hw), or_iff_left hw]
    rw [hmarked, hset, or_assoc]
    refine or_congr_right ⟨?_, ?_⟩
    · rintro (rfl | ⟨k, rfl, hw⟩)
      · exact ⟨0, by omega, hv⟩
      · exact ⟨k + 1, by rw [Nat.succ_mul]; omega, hw⟩
    · rintro ⟨k | k, rfl, hw⟩
      · exact .inl (by omega)
      · refine .inr ⟨k, ?_, hw⟩
        rw [Nat.succ_mul]
        omega
  | case2 v allowed hv hfit =>
    rw [Component.mark, if_pos hv, if_neg hfit] at h
    cases h
  | case3 v allowed hv =>
    rw [Component.mark, if_neg hv] at h
    cases h
    refine ⟨rfl, fun w => (or_iff_left ?_).symm⟩
    rintro ⟨k, rfl, hw⟩
    have hpast : v ≤ v + k * c.step := Nat.le_add_right _ _
    omega

theorem getD_markAll {parts : List Text} {allowed marked : List Bool}
    (h : markAll field min max parts allowed = .ok marked) (hlength : max < allowed.length) :
    marked.length = allowed.length ∧ ∀ w, marked.getD w false = true ↔ allowed.getD w false = true ∨
          ∃ part ∈ parts, ∃ c, IsComponent min max part c ∧ ∃ k, w = c.start + k * c.step ∧ w ≤ c.stop := by
  induction parts generalizing allowed with
  | nil =>
    cases h
    refine ⟨rfl, fun w => (or_iff_left ?_).symm⟩
    rintro ⟨part, hpart, -⟩
    cases hpart
  | cons part parts ih =>
    rw [markAll] at h
    obtain ⟨c, hread, h⟩ := exists_of_bind_eq_ok h
    obtain ⟨next, hmark, h⟩ := exists_of_bind_eq_ok h
    have hc := (readComponent_iff).mp hread
    have hhigh := hc.high
    obtain ⟨hsame, hnext⟩ := Component.getD_mark hmark (by omega)
    obtain ⟨hsame', hrest⟩ := ih h (by omega)
    refine ⟨hsame'.trans hsame, fun w => ?_⟩
    rw [hrest, hnext, or_assoc]
    refine or_congr_right ⟨?_, ?_⟩
    · rintro (hw | ⟨part', hpart', hw⟩)
      · exact ⟨part, mem_cons_self, c, hc, hw⟩
      · exact ⟨part', mem_cons_of_mem part hpart', hw⟩
    · rintro ⟨part', hpart', c', hc', hw⟩
      rcases mem_cons.mp hpart' with rfl | hpart'
      · have hread' : readComponent field min max _ = .ok c' := (readComponent_iff).mpr hc'
        obtain rfl : c' = c := Except.ok.inj (hread'.symm.trans hread)
        exact .inl hw
      · exact .inr ⟨part', hpart', c', hc', hw⟩

/-- The components are marked when they fit and are refused for what they are. -/
theorem exists_markAll {parts : List Text} {allowed : List Bool} (h : StepsFit field min max parts) :
    markAll field min max parts allowed ≠ .error .overflow ∧
      ((∃ marked, markAll field min max parts allowed = .ok marked) ↔
        ∀ part ∈ parts, ∃ c, IsComponent min max part c) := by
  induction parts generalizing allowed with
  | nil => exact ⟨nofun, iff_of_true ⟨allowed, rfl⟩ nofun⟩
  | cons part parts ih =>
    rw [markAll, forall_mem_cons]
    constructor
    · intro herror
      rcases eq_error_of_bind herror with herror | ⟨c, hread, herror⟩
      · exact readComponent_ne_overflow herror
      · obtain ⟨hfits, hrest⟩ := h c hread
        obtain ⟨next, hmark⟩ := (c.exists_mark c.start allowed).mpr fun _ => hfits
        rcases eq_error_of_bind herror with herror | ⟨next', -, herror⟩
        · cases hmark.symm.trans herror
        · exact (ih hrest).1 herror
    · constructor
      · rintro ⟨marked, hmarked⟩
        obtain ⟨c, hread, hmarked⟩ := exists_of_bind_eq_ok hmarked
        obtain ⟨next, -, hmarked⟩ := exists_of_bind_eq_ok hmarked
        exact ⟨⟨c, (readComponent_iff).mp hread⟩, (ih (h c hread).2).2.mp ⟨marked, hmarked⟩⟩
      · rintro ⟨⟨c, hc⟩, hparts⟩
        have hread : readComponent field min max part = .ok c := (readComponent_iff).mpr hc
        obtain ⟨hfits, hrest⟩ := h c hread
        obtain ⟨next, hmark⟩ := (c.exists_mark c.start allowed).mpr fun _ => hfits
        obtain ⟨marked, hmarked⟩ := (@ih next hrest).2.mpr hparts
        refine ⟨marked, ?_⟩
        rw [hread]
        change (c.mark c.start allowed >>= _) = _
        rw [hmark]
        exact hmarked

theorem stepsFit_of_markAll {parts : List Text} {allowed : List Bool}
    (h : markAll field min max parts allowed ≠ .error .overflow) : StepsFit field min max parts := by
  induction parts generalizing allowed with
  | nil => trivial
  | cons part parts ih =>
    intro c hread
    rw [markAll, hread] at h
    change (c.mark c.start allowed >>= _) ≠ _ at h
    rcases hmark : c.mark c.start allowed with e | next
    · rw [hmark, Component.eq_overflow_of_mark hmark] at h
      exact absurd rfl h
    · rw [hmark] at h
      exact ⟨(c.exists_mark c.start allowed).mp ⟨next, hmark⟩ ((readComponent_iff).mp hread).order, ih h⟩

/-! ## Fields and schedules -/

theorem parse_of_fits (h : max + 1 < 2 ^ 32) : FieldMatcher.parse field min max =
      (markAll field min max (field.splitOn ',') (List.replicate (max + 1) false)).map (⟨·, field = ['*']⟩) :=
  if_pos h

theorem markAll_of_parse {m : FieldMatcher} (h : FieldMatcher.parse field min max = .ok m) :
    markAll field min max (field.splitOn ',') (List.replicate (max + 1) false) = .ok m.allowed ∧
      m.isWildcard = (field = ['*'] : Bool) := by
  rw [FieldMatcher.parse] at h
  split at h
  · rcases hmarked : markAll field min max (field.splitOn ',') (List.replicate (max + 1) false) with e | allowed
    · rw [hmarked] at h
      cases h
    · rw [hmarked] at h
      cases h
      exact ⟨rfl, rfl⟩
  · cases h

/-- A field that is read allows what it denotes. -/
theorem contains_iff {m : FieldMatcher} (h : FieldMatcher.parse field min max = .ok m) (v : ℕ) :
    m.contains v = true ↔ Denotes min max field v := by
  have hlength : max < (List.replicate (max + 1) false).length := by
    rw [length_replicate]
    exact Nat.lt_succ_self max
  rw [FieldMatcher.contains, (getD_markAll (markAll_of_parse h).1 hlength).2 v, or_iff_right]
  · rfl
  · rw [getD_eq_getElem?_getD, getElem?_replicate]
    split <;> exact Bool.false_ne_true

theorem fieldCorrect_iff :
    FieldCorrect field min max ↔ max + 1 < 2 ^ 32 ∧ StepsFit field min max (field.splitOn ',') := by
  constructor
  · rintro ⟨-, -, hno⟩
    by_cases hmax : max + 1 < 2 ^ 32
    · refine ⟨hmax, @stepsFit_of_markAll _ _ _ _ (List.replicate (max + 1) false) fun herror => hno ?_⟩
      rw [parse_of_fits hmax, herror]
      rfl
    · exact absurd (if_neg hmax) hno
  · rintro ⟨hmax, hfits⟩
    obtain ⟨hno, hok⟩ := @exists_markAll _ _ _ _ (List.replicate (max + 1) false) hfits
    have hparse := @parse_of_fits field min max hmax
    refine ⟨?_, fun m h => contains_iff h, fun herror => hno ?_⟩
    · rw [IsField, ← hok]
      constructor
      · rintro ⟨m, hm⟩
        exact ⟨m.allowed, (markAll_of_parse hm).1⟩
      · rintro ⟨marked, hmarked⟩
        exact ⟨⟨marked, field = ['*']⟩, by rw [hparse, hmarked]; rfl⟩
    · rcases hmarked : markAll field min max (field.splitOn ',') (List.replicate (max + 1) false) with e | marked
      · rw [hparse, hmarked] at herror
        exact congrArg Except.error (Except.error.inj herror)
      · rw [hparse, hmarked] at herror
        cases herror

end

theorem scheduleCorrect (expr : Text) : ScheduleCorrect expr := by
  intro schedule h
  rw [CronSchedule.parse] at h
  split at h
  · next minute hour dom month dow hfields =>
    obtain ⟨minuteMatcher, hminute, h⟩ := exists_of_bind_eq_ok h
    obtain ⟨hourMatcher, hhour, h⟩ := exists_of_bind_eq_ok h
    obtain ⟨domMatcher, hdom, h⟩ := exists_of_bind_eq_ok h
    obtain ⟨monthMatcher, hmonth, h⟩ := exists_of_bind_eq_ok h
    obtain ⟨dowMatcher, hdow, h⟩ := exists_of_bind_eq_ok h
    cases h
    refine ⟨minute, hour, dom, month, dow, hfields, fun now => ?_⟩
    have hwildcard : (domMatcher.isWildcard || dowMatcher.isWildcard) = true ↔ dom = ['*'] ∨ dow = ['*'] := by
      rw [(markAll_of_parse hdom).2, (markAll_of_parse hdow).2, Bool.or_eq_true, decide_eq_true_eq, decide_eq_true_eq]
    have hweekday : (dowMatcher.contains now.weekday || now.weekday == 0 && dowMatcher.contains 7) = true ↔
        Denotes 0 7 dow now.weekday ∨ now.weekday = 0 ∧ Denotes 0 7 dow 7 := by
      rw [Bool.or_eq_true, Bool.and_eq_true, beq_iff_eq, contains_iff hdow, contains_iff hdow]
    rw [CronSchedule.fires, Bool.and_eq_true, Bool.and_eq_true, Bool.and_eq_true, contains_iff hminute,
      contains_iff hhour, contains_iff hmonth, and_assoc, and_assoc]
    refine and_congr_right' (and_congr_right' (and_congr_right' ?_))
    by_cases hstar : dom = ['*'] ∨ dow = ['*']
    · rw [if_pos (hwildcard.mpr hstar), if_pos hstar, Bool.and_eq_true, contains_iff hdom, hweekday]
    · rw [if_neg (mt hwildcard.mp hstar), if_neg hstar, Bool.or_eq_true, contains_iff hdom, hweekday]
  · cases h

/-- Fields are taken for what they say exactly when no step leaves 32 bits. -/
theorem cron_iff (field : Text) (min max : ℕ) (expr : Text) :
    (FieldCorrect field min max ↔ max + 1 < 2 ^ 32 ∧ StepsFit field min max (field.splitOn ',')) ∧
      ScheduleCorrect expr :=
  ⟨fieldCorrect_iff, scheduleCorrect expr⟩

/-- One minute with the longest step. -/
theorem cron_wrong : ¬FieldCorrect "5/4294967295".toList 0 59 := by
  intro h
  have hread : readComponent "5/4294967295".toList 0 59 "5/4294967295".toList = .ok ⟨5, 5, 4294967295, by decide⟩ := by
    decide
  have hsplit : "5/4294967295".toList.splitOn ',' = ["5/4294967295".toList] := by decide
  obtain ⟨-, hfits⟩ := (fieldCorrect_iff).mp h
  rw [hsplit] at hfits
  have hfit : 5 + ((5 - 5) / 4294967295 + 1) * 4294967295 < 2 ^ 32 := (hfits _ hread).1
  omega

end Taomni.Servers
