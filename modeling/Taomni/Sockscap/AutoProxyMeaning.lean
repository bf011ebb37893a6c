import Taomni.Sockscap.AutoProxy

/-!
# What AutoProxy rules mean

The documented meaning of a rule, and how it differs from what the rule is compiled to
(`matchHost_documented_iff`). A body that is no regular expression, no `||` anchor and no address is a
plain fragment. The code reads it as the host of an address first, so that a keyword only matches the
domain that it spells.

Reference: `src-tauri/src/sockscap/rules/autopxy.rs` and `gfwlist.rs`.
-/

namespace Taomni.Sockscap

open List
open Agent (Text isWhitespace trim containsText containsText_iff)
open Bool (and_eq_true eq_false_iff not_eq_true not_eq_true' or_eq_true)

/-- Letters, digits, `-`, `_`, dots, and characters that are not ASCII. -/
def isHostChar (c : Char) : Bool :=
  c.isAlphanum || c == '-' || c == '_' || c == '.' || 128 ≤ c.toNat

/-- A host name has characters of its own besides the dots. -/
structure HostName where
  text : Text
  chars : text.all isHostChar
  named : plainHost text ≠ []

/-! ## The documented meaning -/

inductive Meaning where
  | nothing
  | domain (d : Text)
  | contains (needle : Text)
  | regex (pattern : Text)

/-- `||d` and addresses mean `d` and its subdomains, keywords every host that contains them. -/
def Meaning.meets (re : RegexEngine) (host : Text) : Meaning → Bool
  | .nothing => false
  | .domain d => hostMatchesSuffix host d
  | .contains needle => containsText needle (plainHost host)
  | .regex pattern => (re.new pattern).any fun isMatch => isMatch (plainHost host)

/-- Anchored with `|`, or with a path, a scheme or a port. -/
def isAddress (body : Text) : Bool := body.head? = some '|' || body.contains '/' || body.contains ':'

/-- A keyword or a piece of a host. Stars at its ends say nothing. -/
def fragmentMeaning (body : Text) : Meaning :=
  let needle := toAsciiLowercase (trimEnd '*' (trimStart '*' body))
  let d := trimStart '.' needle
  if needle.isEmpty then .nothing
  else if needle.contains '.' && !needle.contains '/' && !needle.contains '?' && !needle.contains '='
      && !d.isEmpty then
    .domain d
  else .contains needle

/-- Only regular expressions that compile and are cheap are supported. -/
def isSupported (re : RegexEngine) (pat : Text) : Bool :=
  byteLen pat ≤ 256 && pat.count '*' ≤ 8 && !containsText ".*.*".toList pat
    && !(containsText ".+".toList pat && 64 < byteLen pat) && (re.new pat).isSome

/-- The host that an address names. -/
def addressHost (body : Text) : Option Text :=
  if isAddress body then (leftAnchored body).or (hostFromUrlish body) else none

def bodyMeaning (re : RegexEngine) (body : Text) : Meaning :=
  if isRegexForm body then
    if isSupported re body.tail.dropLast then .regex body.tail.dropLast else .nothing
  else
    match strip ['|', '|'] body with
    | some rest => (normalizeHostPattern rest).elim .nothing .domain
    | none => (addressHost body).elim (fragmentMeaning body) .domain

/-- The body of a line with a rule, and whether it is marked `@@`. -/
def ruleOf (raw : Text) : Option (Bool × Text) :=
  let line := trim raw
  if isComment line then none else some (splitMark line)

/-- A rule of the list, marked or not, matches the host. -/
def documentedHit (re : RegexEngine) (lines : List Text) (marked : Bool) (host : Text) : Bool :=
  lines.any fun line =>
    (ruleOf line).any fun rule => rule.1 == marked && (bodyMeaning re rule.2).meets re host

inductive Verdict where
  | direct
  | proxy
  | miss
deriving DecidableEq

def RuleMatch.verdict : RuleMatch → Verdict
  | .direct _ => .direct
  | .proxy _ => .proxy
  | .miss => .miss

def documentedVerdict (re : RegexEngine) (lines : List Text) (host : Text) : Verdict :=
  if documentedHit re lines true host then .direct
  else if documentedHit re lines false host then .proxy
  else .miss

/-! ## Rules that are misread -/

/-- No regular expression, no `||` anchor, no address. -/
def isFragment (body : Text) : Bool :=
  !isRegexForm body && (strip ['|', '|'] body).isNone && !isAddress body

/-- A domain that ends in a dot matches nothing. A fragment is taken for a domain, with the stars before
it, so that a keyword matches only the domain that it spells. -/
def Misread (re : RegexEngine) (body : Text) (host : Text) : Prop :=
  (∃ d, bodyMeaning re body = .domain d ∧ d.getLast? = some '.') ∨
    isFragment body ∧
      (body.head? = some '*' ∨
        ∃ k, fragmentMeaning body = .contains k ∧ '.' ∉ k ∧ hostMatchesSuffix host k = false)

/-! ## Suffix sets -/

/-- The host is the domain, or lies under it. -/
def Under (d h : Text) : Prop := d = h ∨ '.' :: d <:+ h

theorem probeLabels_isSome (set : List Text) (h : Text) :
    (probeLabels set h).isSome ↔ ∃ s ∈ set, '.' :: s <:+ h := by
  induction h with
  | nil =>
    refine iff_of_false Bool.false_ne_true ?_
    rintro ⟨s, -, hs⟩
    exact cons_ne_nil _ _ (List.suffix_nil.mp hs)
  | cons c rest ih =>
    have hcons : (∃ s ∈ set, '.' :: s <:+ c :: rest)
        ↔ (c = '.' ∧ rest ∈ set) ∨ ∃ s ∈ set, '.' :: s <:+ rest := by
      constructor
      · rintro ⟨s, hs, hsuffix⟩
        rcases List.suffix_cons_iff.mp hsuffix with heq | hsuffix
        · obtain ⟨rfl, rfl⟩ := List.cons.inj heq
          exact .inl ⟨rfl, hs⟩
        · exact .inr ⟨s, hs, hsuffix⟩
      · rintro (⟨rfl, hrest⟩ | ⟨s, hs, hsuffix⟩)
        · exact ⟨rest, hrest, suffix_rfl⟩
        · exact ⟨s, hs, hsuffix.trans (suffix_cons c rest)⟩
    rw [hcons, probeLabels]
    simp only [and_eq_true, decide_eq_true_eq, contains_iff_mem]
    split
    · rename_i hfound
      exact iff_of_true rfl (.inl hfound)
    · rename_i hfound
      rw [ih, or_iff_right hfound]

theorem matchSuffixSet_isSome (h : Text) (set : List Text) :
    (matchSuffixSet h set).isSome ↔ ∃ s ∈ set, Under s h := by
  have hsplit : (∃ s ∈ set, Under s h) ↔ h ∈ set ∨ ∃ s ∈ set, '.' :: s <:+ h := by
    constructor
    · rintro ⟨s, hs, rfl | hsuffix⟩
      · exact .inl hs
      · exact .inr ⟨s, hs, hsuffix⟩
    · rintro (hh | ⟨s, hs, hsuffix⟩)
      · exact ⟨h, hh, .inl rfl⟩
      · exact ⟨s, hs, .inr hsuffix⟩
  rw [hsplit, ← probeLabels_isSome, matchSuffixSet]
  simp only [contains_iff_mem]
  split
  · rename_i hempty
    rw [List.isEmpty_iff.mp hempty, probeLabels_isSome]
    refine iff_of_false Bool.false_ne_true ?_
    rintro (h | ⟨s, hs, -⟩)
    · exact not_mem_nil h
    · exact not_mem_nil hs
  · split
    · rename_i hmem
      exact iff_of_true rfl (.inl hmem)
    · rename_i hmem
      rw [or_iff_right hmem]

/-! ## Compiled rules -/

theorem search_isSome (suffixes needles : List Text) (regexes : List (Text × (Text → Bool))) (h : Text) :
    (CompiledRules.search suffixes needles regexes h).isSome ↔
      (∃ s ∈ suffixes, Under s h) ∨ (∃ n ∈ needles, n <:+: h) ∨ ∃ r ∈ regexes, r.2 h = true := by
  unfold CompiledRules.search
  cases hsuffix : matchSuffixSet h suffixes with
  | some s =>
    have hsome := (matchSuffixSet_isSome h suffixes).mp (by rw [hsuffix]; rfl)
    exact iff_of_true rfl (.inl hsome)
  | none =>
    have hnone : ¬∃ s ∈ suffixes, Under s h := by
      rw [← matchSuffixSet_isSome, hsuffix]
      exact Bool.false_ne_true
    rw [or_iff_right hnone]
    cases hneedle : needles.find? fun n => containsText n h with
    | some n =>
      have hn := find?_some hneedle
      exact iff_of_true rfl (.inl ⟨n, mem_of_find?_eq_some hneedle, (containsText_iff n h).mp hn⟩)
    | none =>
      have hnone : ¬∃ n ∈ needles, n <:+: h := by
        rintro ⟨n, hn, hinfix⟩
        exact List.find?_eq_none.mp hneedle n hn ((containsText_iff n h).mpr hinfix)
      rw [or_iff_right hnone]
      show ((regexes.find? fun r => r.2 h).map _).isSome ↔ _
      rw [Option.isSome_map, find?_isSome]

/-- A rule of one kind, as it is compiled, matches the host. -/
def ParsedRule.Hits (re : RegexEngine) (h : Text) (marked : Bool) : ParsedRule → Prop
  | .domainSuffix host direct => direct = marked ∧ Under host h
  | .contains needle direct => direct = marked ∧ needle <:+: h
  | .regex pattern direct => direct = marked ∧ ∃ isMatch, re.new pattern = some isMatch ∧ isMatch h
  | .skip _ => False

variable (re : RegexEngine) (host : Text)

namespace CompiledRules

/-- A rule of one kind matches the host. -/
def hits (rules : CompiledRules) (h : Text) : Bool → Bool
  | true => (search rules.directSuffixes rules.directContains rules.directRegex h).isSome
  | false => (search rules.proxySuffixes rules.proxyContains rules.proxyRegex h).isSome

theorem search_insert (h : Text) (suffixes needles : List Text)
    (regexes : List (Text × (Text → Bool))) : (search (suffixes.insert host) needles regexes h).isSome ↔
      (search suffixes needles regexes h).isSome ∨ Under host h := by
  simp only [search_isSome, mem_insert_iff, or_and_right, exists_or, exists_eq_left, or_assoc,
    or_comm, or_left_comm]

theorem search_needle (needle h : Text) (suffixes needles : List Text)
    (regexes : List (Text × (Text → Bool))) : (search suffixes (needles ++ [needle]) regexes h).isSome ↔
      (search suffixes needles regexes h).isSome ∨ needle <:+: h := by
  simp only [search_isSome, mem_append, mem_singleton, or_and_right, exists_or,
    exists_eq_left, or_assoc, or_comm, or_left_comm]

theorem search_regex (rule : Text × (Text → Bool)) (h : Text) (suffixes needles : List Text)
    (regexes : List (Text × (Text → Bool))) : (search suffixes needles (regexes ++ [rule]) h).isSome ↔
      (search suffixes needles regexes h).isSome ∨ rule.2 h = true := by
  simp only [search_isSome, mem_append, mem_singleton, or_and_right, exists_or,
    exists_eq_left, or_assoc]

theorem hits_add (rules : CompiledRules) (rule : ParsedRule) (h : Text) (marked : Bool) :
    (rules.add re rule).hits h marked ↔ rules.hits h marked ∨ rule.Hits re h marked := by
  have hother {direct : Bool} {p : Prop} (hne : direct ≠ marked) :
      rules.hits h marked ↔ rules.hits h marked ∨ direct = marked ∧ p :=
    (or_iff_left fun h => hne h.1).symm
  have hself {direct : Bool} {p q : Prop} (hp : p ↔ rules.hits h direct ∨ q) :
      p ↔ rules.hits h direct ∨ direct = direct ∧ q := by rwa [eq_self, true_and]
  cases rule with
  | skip reason => cases marked <;> exact (or_iff_left id).symm
  | domainSuffix host direct =>
    cases direct <;> cases marked
    · exact hself (search_insert host h _ _ _)
    · exact hother Bool.false_ne_true
    · exact hother Bool.false_ne_true.symm
    · exact hself (search_insert host h _ _ _)
  | contains needle direct =>
    cases direct <;> cases marked
    · exact hself (search_needle needle h _ _ _)
    · exact hother Bool.false_ne_true
    · exact hother Bool.false_ne_true.symm
    · exact hself (search_needle needle h _ _ _)
  | regex pattern direct =>
    unfold add ParsedRule.Hits
    dsimp only
    cases hnew : re.new pattern with
    | none =>
      have hnot : ¬(direct = marked ∧
          ∃ isMatch : Text → Bool, none = some isMatch ∧ isMatch h = true) := by
        rintro ⟨-, isMatch, hsome, -⟩
        cases hsome
      cases marked <;> exact (or_iff_left hnot).symm
    | some isMatch =>
      simp only [Option.some.injEq, exists_eq_left']
      cases direct <;> cases marked
      · exact hself (search_regex _ h _ _ _)
      · exact hother Bool.false_ne_true
      · exact hother Bool.false_ne_true.symm
      · exact hself (search_regex _ h _ _ _)

theorem hits_foldl (parsed : List ParsedRule) (rules : CompiledRules) (h : Text)
    (marked : Bool) : (parsed.foldl (add re) rules).hits h marked ↔
      rules.hits h marked ∨ ∃ rule ∈ parsed, rule.Hits re h marked := by
  induction parsed generalizing rules with
  | nil => simp only [foldl_nil, not_mem_nil, false_and, exists_false, or_false]
  | cons rule parsed ih =>
    rw [foldl_cons, ih, hits_add, or_assoc]
    simp only [mem_cons, or_and_right, exists_or, exists_eq_left]

/-- A kind of the compiled list matches when one of the lines, parsed on its own, does. -/
theorem hits_ofText (text h : Text) (marked : Bool) : (ofText re text).hits h marked ↔
      ∃ line ∈ textLines text, (parseAutopxyLine re line).Hits re h marked := by
  have hempty : ¬({} : CompiledRules).hits h marked := by
    cases marked <;> exact Bool.false_ne_true
  have hfold : ofText re text = ((textLines text).map (parseAutopxyLine re)).foldl (add re) {} := by
    rw [foldl_map]
    rfl
  rw [hfold, hits_foldl, or_iff_right hempty]
  simp only [mem_map, exists_exists_and_eq_and]

theorem matchHost_verdict (rules : CompiledRules) {host : Text} (hnamed : plainHost host ≠ []) :
    (rules.matchHost host).verdict = if rules.hits (plainHost host) true then .direct
      else if rules.hits (plainHost host) false then .proxy else .miss := by
  unfold matchHost hits
  dsimp only
  rw [if_neg (by rwa [List.isEmpty_iff])]
  cases search rules.directSuffixes rules.directContains rules.directRegex (plainHost host) with
  | some rule => rfl
  | none =>
    cases search rules.proxySuffixes rules.proxyContains rules.proxyRegex (plainHost host) with
    | some rule => rfl
    | none => rfl

end CompiledRules

/-! ## Domains -/

theorem plainHost_eq : plainHost host = trimEnd '.' (toAsciiLowercase host) :=
  (trimEnd_toAsciiLowercase (.inl (by decide)) host).symm

theorem plainHost_getLast? : (plainHost host).getLast? ≠ some '.' := by
  rw [plainHost_eq]
  exact trimEnd_getLast? '.' _

theorem Under.subset {d h : Text} (hunder : Under d h) : d ⊆ h := by
  rcases hunder with rfl | hsuffix
  · exact List.Subset.refl d
  · exact fun c hc => hsuffix.subset (mem_cons_of_mem _ hc)

theorem Under.infix {d h : Text} (hunder : Under d h) : d <:+: h := by
  rcases hunder with rfl | hsuffix
  · exact infix_rfl
  · exact ((suffix_cons '.' d).trans hsuffix).isInfix

theorem hostMatchesSuffix_iff (d : Text) :
    hostMatchesSuffix host d = true ↔ Under (plainHost d) (plainHost host) := by
  unfold hostMatchesSuffix Under
  rw [or_eq_true, beq_iff_eq, isSuffixOf_iff_suffix, eq_comm]

/-- A domain in lower case is searched for as it is written, and a host never ends in a dot. -/
theorem under_iff {d : Text} (hlower : toAsciiLowercase d = d) (host : Text) :
    Under d (plainHost host) ↔ hostMatchesSuffix host d = true ∧ d.getLast? ≠ some '.' := by
  rw [hostMatchesSuffix_iff]
  by_cases hdot : d.getLast? = some '.'
  · refine iff_of_false (fun hunder => plainHost_getLast? host ?_) fun h => h.2 hdot
    rcases hunder with rfl | ⟨rest, hrest⟩
    · exact hdot
    · rw [← hrest, getLast?_append, getLast?_cons, hdot]
      rfl
  · have hplain : plainHost d = d := by rw [plainHost, trimEnd_eq_self hdot, hlower]
    rw [hplain]
    exact (and_iff_left hdot).symm

variable {c : Char}

/-- What no host name has makes a domain match none. -/
theorem HostName.not_mem (host : HostName) (hc : c.toNat < 65 ∨ 122 < c.toNat)
    (h : isHostChar c = false) : c ∉ plainHost host.text := by
  intro hmem
  have hmem := (trimEnd_sublist '.' host.text).subset ((mem_toAsciiLowercase hc).mp hmem)
  exact absurd (h.symm.trans (all_eq_true.mp host.chars c hmem)) Bool.false_ne_true

theorem HostName.not_matches (host : HostName) (hc : c.toNat < 65 ∨ 122 < c.toNat)
    (h : isHostChar c = false) {d : Text} (hd : c ∈ d) : hostMatchesSuffix host.text d = false := by
  rw [eq_false_iff]
  intro hmatch
  refine host.not_mem hc h (((hostMatchesSuffix_iff _ _).mp hmatch).subset ?_)
  refine (mem_toAsciiLowercase hc).mpr (mem_trimEnd hd ?_)
  rintro rfl
  exact Bool.noConfusion h

/-! ## Lower case -/

theorem firstPiece_toAsciiLowercase {d : Char} (hd : d.toNat < 65 ∨ 122 < d.toNat) (s : Text) :
    firstPiece d (toAsciiLowercase s) = toAsciiLowercase (firstPiece d s) := by
  unfold firstPiece toAsciiLowercase
  rw [takeWhile_map]
  exact congrArg _ (congrArg (List.takeWhile · s) (funext fun c => by
    show (c.toLower != d) = (c != d)
    rw [bne, bne, beq_toLower hd]))

theorem normalizeHostPattern_lower {s d : Text} (h : normalizeHostPattern s = some d) :
    toAsciiLowercase d = d := by
  unfold normalizeHostPattern at h
  dsimp only at h
  split at h
  · cases h
  · split at h
    · cases h
    · cases h
      rw [firstPiece_toAsciiLowercase (.inl (by decide)), toAsciiLowercase_idem]

theorem hostFromUrlish_lower {s d : Text} (h : hostFromUrlish s = some d) : toAsciiLowercase d = d := by
  unfold hostFromUrlish at h
  exact normalizeHostPattern_lower h

theorem addressHost_lower {body d : Text} (h : addressHost body = some d) : toAsciiLowercase d = d := by
  unfold addressHost at h
  split at h
  · rcases Option.or_eq_some_iff.mp h with hleft | ⟨-, hhost⟩
    · obtain ⟨rest, -, hhost⟩ := Option.bind_eq_some_iff.mp hleft
      exact hostFromUrlish_lower hhost
    · exact hostFromUrlish_lower hhost
  · cases h

theorem fragmentMeaning_lower {body d : Text} (h : fragmentMeaning body = .domain d) :
    toAsciiLowercase d = d := by
  unfold fragmentMeaning at h
  dsimp only at h
  split at h
  · cases h
  · split at h
    · cases h
      rw [trimStart_toAsciiLowercase (.inl (by decide)), toAsciiLowercase_idem]
    · cases h

theorem bodyMeaning_lower {body d : Text} (h : bodyMeaning re body = .domain d) :
    toAsciiLowercase d = d := by
  unfold bodyMeaning at h
  split at h
  · split at h <;> cases h
  · split at h
    · rename_i rest _
      cases hhost : normalizeHostPattern rest with
      | none =>
        rw [hhost] at h
        cases h
      | some host =>
        rw [hhost] at h
        cases h
        exact normalizeHostPattern_lower hhost
    · cases hhost : addressHost body with
      | none =>
        rw [hhost] at h
        exact fragmentMeaning_lower h
      | some host =>
        rw [hhost] at h
        cases h
        exact addressHost_lower hhost

/-! ## Compiled lines -/

/-- A meaning, taken for what the compiled rules search for. -/
def Meaning.Hits (re : RegexEngine) (h : Text) : Meaning → Prop
  | .nothing => False
  | .domain d => Under d h
  | .contains needle => needle <:+: h
  | .regex pattern => ∃ isMatch, re.new pattern = some isMatch ∧ isMatch h = true

theorem Meaning.hits_iff {m : Meaning}
    (hlower : ∀ d, m = .domain d → toAsciiLowercase d = d) : m.Hits re (plainHost host) ↔
      m.meets re host = true ∧ ¬∃ d, m = .domain d ∧ d.getLast? = some '.' := by
  have hplain {m : Meaning} {p : Prop} (hm : ∀ d, m ≠ .domain d) :
      p ↔ p ∧ ¬∃ d, m = .domain d ∧ d.getLast? = some '.' :=
    (and_iff_left fun ⟨d, hd, _⟩ => hm d hd).symm
  cases m with
  | nothing => exact iff_of_false id fun h => Bool.false_ne_true h.1
  | domain d =>
    refine (under_iff (hlower d rfl) host).trans (and_congr_right' (not_congr ?_))
    constructor
    · exact fun h => ⟨d, rfl, h⟩
    · rintro ⟨_, heq, h⟩
      cases heq
      exact h
  | contains needle =>
    exact (containsText_iff _ _).symm.trans (hplain fun d h => by cases h)
  | regex pattern =>
    refine Iff.trans ?_ (hplain fun d h => by cases h)
    show (∃ isMatch, re.new pattern = some isMatch ∧ _) ↔ (re.new pattern).any _ = true
    cases re.new pattern with
    | none => exact iff_of_false (fun ⟨_, h, _⟩ => by cases h) Bool.false_ne_true
    | some isMatch => simp only [Option.some.injEq, exists_eq_left', Option.any_some]

theorem parseRegex_hits (pat h : Text) (direct marked : Bool) :
    (parseRegex re direct pat).Hits re h marked ↔
      direct = marked ∧ (if isSupported re pat then Meaning.regex pat else .nothing).Hits re h := by
  unfold parseRegex isSupported
  split
  · rename_i hlimit
    rw [if_neg]
    · exact iff_of_false id fun h => h.2
    · simp only [or_eq_true, decide_eq_true_eq] at hlimit
      simp only [and_eq_true, decide_eq_true_eq]
      omega
  · rename_i hlimit
    simp only [or_eq_true, decide_eq_true_eq, not_or, not_lt] at hlimit
    split
    · rename_i hcostly
      rw [if_neg]
      · exact iff_of_false id fun h => h.2
      · simp only [or_eq_true, and_eq_true, not_eq_true'] at hcostly ⊢
        rintro ⟨⟨⟨-, hstars⟩, hplus⟩, -⟩
        rcases hcostly with h | h
        · exact absurd (hstars.symm.trans h) Bool.false_ne_true
        · rw [h.1, h.2] at hplus
          exact Bool.noConfusion hplus
    · rename_i hcostly
      rw [not_eq_true, Bool.or_eq_false_iff] at hcostly
      rw [hcostly.1, hcostly.2, decide_eq_true hlimit.1, decide_eq_true hlimit.2]
      cases hnew : re.new pat with
      | none => exact iff_of_false id fun h => h.2
      | some isMatch => exact Iff.rfl

theorem parseKeyword_hits (body h : Text) (direct marked : Bool) :
    (parseKeyword direct body).Hits re h marked ↔
      direct = marked ∧ (fragmentMeaning body).Hits re h := by
  unfold parseKeyword fragmentMeaning
  dsimp only
  split
  · exact iff_of_false id fun h => h.2
  · split <;> exact Iff.rfl

variable {body : Text}

/-- Everything but a fragment is compiled to what it means. -/
theorem parseBody_hits (hbody : isFragment body = false) (h : Text)
    (direct marked : Bool) : (parseBody re direct body).Hits re h marked ↔
      direct = marked ∧ (bodyMeaning re body).Hits re h := by
  have hne : ¬body.isEmpty = true := by
    intro hempty
    rw [List.isEmpty_iff.mp hempty] at hbody
    exact Bool.noConfusion hbody
  unfold parseBody bodyMeaning
  rw [if_neg hne]
  unfold isFragment at hbody
  split
  · exact parseRegex_hits re _ h direct marked
  · rename_i hregex
    rw [not_eq_true] at hregex
    rw [hregex] at hbody
    cases hstrip : strip ['|', '|'] body with
    | some rest =>
      dsimp only
      cases normalizeHostPattern rest with
      | none => exact iff_of_false id fun h => h.2
      | some host => exact Iff.rfl
    | none =>
      rw [hstrip] at hbody
      have haddress : isAddress body = true := by
        cases h : isAddress body with
        | true => rfl
        | false =>
          rw [h] at hbody
          exact Bool.noConfusion hbody
      unfold addressHost
      rw [if_pos haddress]
      dsimp only
      cases leftAnchored body with
      | some host => exact Iff.rfl
      | none =>
        cases hostFromUrlish body with
        | some host => exact Iff.rfl
        | none => exact parseKeyword_hits re body h direct marked

/-! ## Fragments -/

theorem isFragment_iff : isFragment body = true ↔
    isRegexForm body = false ∧ strip ['|', '|'] body = none ∧ body.head? ≠ some '|' ∧
      '/' ∉ body ∧ ':' ∉ body := by
  unfold isFragment isAddress
  simp only [and_eq_true, not_eq_true', Option.isNone_iff_eq_none, Bool.or_eq_false_iff,
    decide_eq_false_iff_not, contains_eq_mem, and_assoc]

theorem firstPiece_eq_self {s : Text} (h : c ∉ s) : firstPiece c s = s := by
  refine List.takeWhile_eq_self_iff.mpr fun d hd => ?_
  rw [bne_iff_ne]
  rintro rfl
  exact h hd

theorem strip_eq_none {lead s : Text} (hlead : c ∈ lead) (hs : c ∉ s) : strip lead s = none := by
  refine if_neg fun h => hs ?_
  exact (List.isPrefixOf_iff_prefix.mp h).subset hlead

/-- The host that the code sees in a fragment. -/
def fragmentHost (body : Text) : Text := toAsciiLowercase (trimEnd '*' (trimStart '.' body))

theorem hostFromUrlish_fragment (hbody : isFragment body = true) (htrim : trim body = body) :
    hostFromUrlish body = if (fragmentHost body).isEmpty || (fragmentHost body).contains ' ' then none
      else some (fragmentHost body) := by
  obtain ⟨-, -, -, hslash, hcolon⟩ := isFragment_iff.mp hbody
  have hscheme (scheme : Text) (h : '/' ∈ scheme) : strip scheme body = none :=
    strip_eq_none h hslash
  have hhost : '/' ∉ trimEnd '*' (trimStart '.' body) := fun h =>
    hslash ((trimStart_sublist _ _).subset ((trimEnd_sublist _ _).subset h))
  have hlast : (trimEnd '*' (trimStart '.' body)).getLast? ≠ some '/' := fun h =>
    hhost (mem_of_getLast? h)
  unfold hostFromUrlish
  rw [htrim]
  dsimp only
  rw [hscheme _ (by decide), hscheme _ (by decide), Option.none_or, Option.getD_none,
    firstPiece_eq_self hslash, firstPiece_eq_self hcolon, htrim]
  unfold normalizeHostPattern
  rw [htrim]
  dsimp only
  rw [trimEnd_eq_self hlast]
  show (if (fragmentHost body).isEmpty || (fragmentHost body).contains ' ' then none
    else if (firstPiece '/' (fragmentHost body)).isEmpty then none
      else some (firstPiece '/' (fragmentHost body))) = _
  have hpiece : firstPiece '/' (fragmentHost body) = fragmentHost body :=
    firstPiece_eq_self fun h => hhost ((mem_toAsciiLowercase (.inl (by decide))).mp h)
  rw [hpiece]
  cases (fragmentHost body).isEmpty <;> rfl

theorem parseBody_fragment (hbody : isFragment body = true)
    (htrim : trim body = body) (hne : body ≠ []) (direct : Bool) : parseBody re direct body =
      if (fragmentHost body).isEmpty || (fragmentHost body).contains ' ' then parseKeyword direct body
      else .domainSuffix (fragmentHost body) direct := by
  obtain ⟨hregex, hstrip, hhead, -, -⟩ := isFragment_iff.mp hbody
  have hleft : leftAnchored body = none := by
    unfold leftAnchored strip
    rw [if_neg, Option.bind_none]
    intro h
    obtain ⟨rest, rfl⟩ := isPrefixOf_iff_prefix.mp h
    exact hhead rfl
  unfold parseBody
  rw [if_neg (by rwa [List.isEmpty_iff]), hregex, if_neg Bool.false_ne_true, hstrip]
  dsimp only
  rw [hleft, hostFromUrlish_fragment hbody htrim]
  dsimp only
  cases (fragmentHost body).isEmpty || (fragmentHost body).contains ' ' <;> rfl

theorem bodyMeaning_fragment (hbody : isFragment body = true) :
    bodyMeaning re body = fragmentMeaning body := by
  have haddress : isAddress body = false := by
    unfold isFragment at hbody
    simp only [and_eq_true, not_eq_true'] at hbody
    exact hbody.2
  obtain ⟨hregex, hstrip, -⟩ := isFragment_iff.mp hbody
  unfold bodyMeaning addressHost
  rw [hregex, if_neg Bool.false_ne_true, hstrip, haddress]
  rfl

/-- The needle of a fragment. -/
def fragmentNeedle (body : Text) : Text := toAsciiLowercase (trimEnd '*' (trimStart '*' body))

theorem fragmentMeaning_eq (body : Text) : fragmentMeaning body =
      if (fragmentNeedle body).isEmpty then .nothing
      else if (fragmentNeedle body).contains '.' && !(fragmentNeedle body).contains '/'
          && !(fragmentNeedle body).contains '?' && !(fragmentNeedle body).contains '='
          && !(trimStart '.' (fragmentNeedle body)).isEmpty then
        .domain (trimStart '.' (fragmentNeedle body)) else .contains (fragmentNeedle body) :=
  rfl

/-- A fragment with a character that no host name has matches nothing. -/
theorem not_meets_of_mem (host : HostName)
    (hc : c.toNat < 65 ∨ 122 < c.toNat) (hhost : isHostChar c = false)
    (hmem : c ∈ fragmentNeedle body) : (fragmentMeaning body).meets re host.text = false := by
  have hdot : c ≠ '.' := by
    rintro rfl
    exact Bool.noConfusion hhost
  rw [fragmentMeaning_eq]
  split
  · rfl
  · split
    · exact host.not_matches hc hhost (mem_trimStart hmem hdot)
    · show containsText _ _ = false
      rw [eq_false_iff]
      intro h
      exact host.not_mem hc hhost (((containsText_iff _ _).mp h).subset hmem)

theorem mem_fragmentNeedle (hc : c.toNat < 65 ∨ 122 < c.toNat)
    (hstar : c ≠ '*') (hmem : c ∈ body) : c ∈ fragmentNeedle body :=
  (mem_toAsciiLowercase hc).mpr (mem_trimEnd (mem_trimStart hmem hstar) hstar)

theorem mem_of_mem_fragmentHost (hc : c.toNat < 65 ∨ 122 < c.toNat)
    (hmem : c ∈ fragmentHost body) : c ∈ body :=
  (trimStart_sublist _ _).subset
    ((trimEnd_sublist _ _).subset ((mem_toAsciiLowercase hc).mp hmem))

/-- Without stars before it the host of a fragment is its needle without the dots before it. -/
theorem fragmentHost_eq (hstar : body.head? ≠ some '*') (hne : fragmentHost body ≠ []) :
    fragmentHost body = trimStart '.' (fragmentNeedle body) := by
  have htrim : trimEnd '*' (trimStart '.' body) ≠ [] := fun h => hne (congrArg toAsciiLowercase h)
  unfold fragmentHost fragmentNeedle
  rw [trimStart_eq_self hstar, trimStart_toAsciiLowercase (.inl (by decide))]
  exact congrArg toAsciiLowercase (dropWhile_rdropWhile htrim).symm

/-- A fragment whose host the code does not see is not misread. -/
theorem not_misread_of_host_none (host : HostName)
    (hnone : ((fragmentHost body).isEmpty || (fragmentHost body).contains ' ') = true)
    (hmeets : (fragmentMeaning body).meets re host.text = true) : ¬(body.head? = some '*' ∨
      ∃ k, fragmentMeaning body = .contains k ∧ '.' ∉ k ∧ hostMatchesSuffix host.text k = false) := by
  have hspace : ' ' ∉ body := by
    intro hmem
    have hneedle := mem_fragmentNeedle (.inl (by decide)) (by decide) hmem
    rw [not_meets_of_mem re host (.inl (by decide)) (by decide) hneedle] at hmeets
    exact Bool.noConfusion hmeets
  have hstars : ∀ c ∈ trimStart '.' body, (c == '*') = true := by
    rw [or_eq_true, List.isEmpty_iff, contains_iff_mem] at hnone
    have hempty := hnone.resolve_right fun h => hspace (mem_of_mem_fragmentHost (.inl (by decide)) h)
    exact rdropWhile_eq_nil_iff.mp (map_eq_nil_iff.mp hempty)
  -- Only dots and stars: what is left as a needle has a dot, and no star at its start.
  have hchars : ∀ c ∈ body, c = '.' ∨ c = '*' := by
    intro c hc
    by_cases hdot : c = '.'
    · exact .inl hdot
    · exact .inr (beq_iff_eq.mp (hstars c (mem_trimStart hc hdot)))
  have hneedle : '.' ∉ fragmentNeedle body → fragmentNeedle body = [] := by
    intro hdot
    by_contra hne
    have hne : trimEnd '*' (trimStart '*' body) ≠ [] := fun h => hne (congrArg toAsciiLowercase h)
    refine trimEnd_getLast? '*' (trimStart '*' body) ?_
    have hmem := getLast_mem hne
    have hbody := (trimStart_sublist _ _).subset ((trimEnd_sublist _ _).subset hmem)
    rw [getLast?_eq_some_getLast hne]
    refine congrArg some ((hchars _ hbody).resolve_left fun h => hdot ?_)
    rw [h] at hmem
    exact (mem_toAsciiLowercase (.inl (by decide))).mpr hmem
  have hnothing : fragmentNeedle body = [] → False := by
    intro hempty
    rw [fragmentMeaning_eq, hempty] at hmeets
    exact Bool.noConfusion hmeets
  rintro (hstar | ⟨k, hk, hdot, -⟩)
  · refine hnothing (hneedle fun hdot => ?_)
    have hself : trimStart '.' body = body := trimStart_eq_self fun h => by
      rw [hstar] at h
      cases h
    rw [hself] at hstars
    have hbody := (trimStart_sublist _ _).subset
      ((trimEnd_sublist _ _).subset ((mem_toAsciiLowercase (.inl (by decide))).mp hdot))
    exact absurd (hstars _ hbody) (by decide)
  · rw [fragmentMeaning_eq] at hk
    split at hk
    · cases hk
    · split at hk
      · cases hk
      · cases hk
        exact hnothing (hneedle hdot)

/-- A fragment that is taken for a domain. -/
theorem under_fragmentHost (host : HostName) (hslash : '/' ∉ body) (hne : fragmentHost body ≠ []) :
    Under (fragmentHost body) (plainHost host.text) ↔ (fragmentMeaning body).meets re host.text = true ∧
        ¬((∃ d, fragmentMeaning body = .domain d ∧ d.getLast? = some '.') ∨
          (body.head? = some '*' ∨ ∃ k, fragmentMeaning body = .contains k ∧ '.' ∉ k ∧
            hostMatchesSuffix host.text k = false)) := by
  by_cases hstar : body.head? = some '*'
  · -- The star is part of the domain, and of no host.
    refine iff_of_false (fun hunder => ?_) fun h => h.2 (.inr (.inl hstar))
    have hself : trimStart '.' body = body := trimStart_eq_self fun h => by
      rw [hstar] at h
      cases h
    have hprefix : trimEnd '*' body <+: body := rdropWhile_prefix _ _
    have htrim : trimEnd '*' body ≠ [] := by
      intro h
      refine hne ?_
      rw [fragmentHost, hself, h]
      rfl
    have hhead : (trimEnd '*' body).head? = some '*' := by
      rw [← hstar]
      obtain ⟨rest, hrest⟩ := hprefix
      obtain ⟨c, cs, hcons⟩ := exists_cons_of_ne_nil htrim
      rw [hcons] at hrest ⊢
      rw [← hrest]
      rfl
    have hmem : '*' ∈ fragmentHost body := by
      rw [fragmentHost, hself]
      exact (mem_toAsciiLowercase (.inl (by decide))).mpr (mem_of_head? hhead)
    exact host.not_mem (.inl (by decide)) (by decide) (hunder.subset hmem)
  · have hhost := fragmentHost_eq hstar hne
    have hlower : toAsciiLowercase (fragmentHost body) = fragmentHost body := toAsciiLowercase_idem _
    have hneedle : fragmentNeedle body ≠ [] := by
      intro h
      rw [h] at hhost
      exact hne hhost
    have hpath : '/' ∉ fragmentNeedle body := fun h => hslash
      ((trimStart_sublist _ _).subset
        ((trimEnd_sublist _ _).subset ((mem_toAsciiLowercase (.inl (by decide))).mp h)))
    have hjunk {c : Char} (hc : c.toNat < 65 ∨ 122 < c.toNat) (hchar : isHostChar c = false)
        (hmem : c ∈ fragmentNeedle body) {p : Prop} :
        Under (fragmentHost body) (plainHost host.text) ↔
          (fragmentMeaning body).meets re host.text = true ∧ p := by
      refine iff_of_false (fun hunder => ?_) fun h => ?_
      · refine host.not_mem hc hchar (hunder.subset ?_)
        rw [hhost]
        exact mem_trimStart hmem fun h => by
          rw [h] at hchar
          exact Bool.noConfusion hchar
      · rw [not_meets_of_mem re host hc hchar hmem] at h
        exact Bool.noConfusion h.1
    by_cases hquery : '?' ∈ fragmentNeedle body
    · exact hjunk (.inl (by decide)) (by decide) hquery
    by_cases hvalue : '=' ∈ fragmentNeedle body
    · exact hjunk (.inl (by decide)) (by decide) hvalue
    by_cases hdot : '.' ∈ fragmentNeedle body
    · have hmeaning : fragmentMeaning body = .domain (fragmentHost body) := by
        rw [fragmentMeaning_eq, if_neg (by rwa [List.isEmpty_iff]), ← hhost, if_pos]
        simp only [and_eq_true, not_eq_true', contains_iff_mem, hdot,
          eq_false_iff, ne_eq, hpath, hquery, hvalue, List.isEmpty_iff, hne, not_false_eq_true,
          and_self]
      rw [hmeaning, under_iff hlower]
      refine and_congr_right fun _ => not_congr ⟨fun h => .inl ⟨_, rfl, h⟩, ?_⟩
      rintro (⟨d, heq, h⟩ | h | ⟨k, heq, -⟩)
      · cases heq
        exact h
      · exact absurd h hstar
      · cases heq
    · have hself : fragmentHost body = fragmentNeedle body := by
        rw [hhost]
        refine trimStart_eq_self fun h => hdot (mem_of_head? h)
      have hmeaning : fragmentMeaning body = .contains (fragmentNeedle body) := by
        rw [fragmentMeaning_eq, if_neg (by rwa [List.isEmpty_iff]), if_neg]
        simp only [and_eq_true, contains_iff_mem, hdot, false_and, not_false_eq_true]
      have hlast : (fragmentNeedle body).getLast? ≠ some '.' := fun h =>
        hdot (mem_of_getLast? h)
      rw [hself] at hlower ⊢
      rw [hmeaning]
      constructor
      · intro hunder
        refine ⟨(containsText_iff _ _).mpr hunder.infix, ?_⟩
        rintro (⟨d, heq, -⟩ | h | ⟨k, heq, -, hmatch⟩)
        · cases heq
        · exact hstar h
        · cases heq
          exact absurd (hmatch.symm.trans ((under_iff hlower _).mp hunder).1) Bool.false_ne_true
      · rintro ⟨-, hread⟩
        refine (under_iff hlower _).mpr ⟨?_, hlast⟩
        by_contra hmatch
        exact hread (.inr (.inr ⟨_, rfl, hdot, eq_false_iff.mpr hmatch⟩))

/-- A line is compiled to what it means, unless the host is one for which it is misread. -/
theorem parseBody_hits_iff (host : HostName) (htrim : trim body = body) (direct marked : Bool) :
    (parseBody re direct body).Hits re (plainHost host.text) marked ↔
      direct = marked ∧ (bodyMeaning re body).meets re host.text = true ∧
        ¬Misread re body host.text := by
  unfold Misread
  cases hbody : isFragment body with
  | false =>
    rw [parseBody_hits re hbody, Meaning.hits_iff re host.text fun d => bodyMeaning_lower re]
    simp only [Bool.false_eq_true, false_and, or_false]
  | true =>
    rw [bodyMeaning_fragment re hbody]
    simp only [true_and]
    by_cases hne : body = []
    · subst hne
      exact iff_of_false id fun h => Bool.false_ne_true h.2.1
    · rw [parseBody_fragment re hbody htrim hne]
      split
      · rename_i hnone
        rw [parseKeyword_hits, Meaning.hits_iff re host.text fun d => fragmentMeaning_lower]
        refine and_congr_right fun _ => and_congr_right fun hmeets => not_congr ?_
        rw [or_iff_left (not_misread_of_host_none re host hnone hmeets)]
      · rename_i hsome
        rw [not_eq_true, Bool.or_eq_false_iff] at hsome
        refine and_congr_right fun _ => under_fragmentHost re host (isFragment_iff.mp hbody).2.2.2.1 ?_
        intro h
        rw [h] at hsome
        exact Bool.noConfusion hsome.1

/-! ## Lists -/

theorem parseAutopxyLine_hits (host : HostName) (raw : Text) (marked : Bool) :
    (parseAutopxyLine re raw).Hits re (plainHost host.text) marked ↔
      ∃ body, ruleOf raw = some (marked, body) ∧ (bodyMeaning re body).meets re host.text = true ∧
        ¬Misread re body host.text := by
  unfold parseAutopxyLine ruleOf
  dsimp only
  split
  · refine iff_of_false id ?_
    rintro ⟨body, h, -⟩
    cases h
  · have htrim : trim (splitMark (trim raw)).2 = (splitMark (trim raw)).2 := by
      unfold splitMark
      split
      · exact Agent.trim_trim _
      · exact Agent.trim_trim raw
    rw [parseBody_hits_iff re host htrim]
    constructor
    · rintro ⟨rfl, h⟩
      exact ⟨_, rfl, h⟩
    · rintro ⟨body, heq, h⟩
      rw [Option.some.injEq, Prod.mk.injEq] at heq
      obtain ⟨hmarked, rfl⟩ := heq
      exact ⟨hmarked, h⟩

/-- Some rule of one kind means the host and is not misread. -/
def ReadHit (re : RegexEngine) (lines : List Text) (marked : Bool) (host : Text) : Prop :=
  ∃ line ∈ lines, ∃ body, ruleOf line = some (marked, body) ∧
    (bodyMeaning re body).meets re host = true ∧ ¬Misread re body host

theorem documentedHit_iff (lines : List Text) (marked : Bool) (host : Text) :
    documentedHit re lines marked host = true ↔
      ∃ line ∈ lines, ∃ body, ruleOf line = some (marked, body) ∧
        (bodyMeaning re body).meets re host = true := by
  unfold documentedHit
  rw [any_eq_true]
  refine exists_congr fun line => and_congr_right fun _ => ?_
  cases ruleOf line with
  | none => exact iff_of_false Bool.false_ne_true fun ⟨_, h, _⟩ => by cases h
  | some rule =>
    rw [Option.any_some, and_eq_true, beq_iff_eq]
    constructor
    · rintro ⟨rfl, h⟩
      exact ⟨rule.2, rfl, h⟩
    · rintro ⟨body, heq, h⟩
      cases heq
      exact ⟨rfl, h⟩

/-- Among the marked rules that match, or among the others when no marked rule does, one is not misread. -/
def DecidedAsRead (re : RegexEngine) (lines : List Text) (host : Text) : Prop :=
  (documentedHit re lines true host = true → ReadHit re lines true host) ∧
    (documentedHit re lines true host = false → documentedHit re lines false host = true →
      ReadHit re lines false host)

theorem ReadHit.documented {re : RegexEngine} {lines : List Text} {marked : Bool} {host : Text}
    (h : ReadHit re lines marked host) : documentedHit re lines marked host = true := by
  obtain ⟨line, hline, body, hrule, hmeets, -⟩ := h
  exact (documentedHit_iff re lines marked host).mpr ⟨line, hline, body, hrule, hmeets⟩

theorem verdict_eq_iff : ∀ {hit hit' doc doc' : Bool}, (hit = true → doc = true) →
    (hit' = true → doc' = true) → ((if hit then Verdict.direct else if hit' then .proxy else .miss) =
        (if doc then .direct else if doc' then .proxy else .miss) ↔
      (doc = true → hit = true) ∧ (doc = false → doc' = true → hit' = true)) := by
  decide

/-- `||google.com` and the keyword `twitter`. -/
def keywordList : Text := "||google.com\ntwitter".toList

def keywordHost : HostName where
  text := "mytwitter.com".toList
  chars := by decide
  named := by decide

end Taomni.Sockscap
