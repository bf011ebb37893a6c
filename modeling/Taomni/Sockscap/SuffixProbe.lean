import Taomni.Sockscap.AutoProxyMeaning

/-!
# The probe of a suffix set

The probe looks up what follows each dot of a host. Next to a scan over all rules it misses the rules that end in
a dot, because a host never does.

Reference: `match_suffix_set` of `src-tauri/src/sockscap/rules/gfwlist.rs`, `host_matches_suffix` of
`src-tauri/src/sockscap/rules/autopxy.rs`.
-/

namespace Taomni.Sockscap

open Agent (Text)

/-! ## The longest rule -/

theorem probeLabels_longest {set : List Text} {h rule : Text} (hprobe : probeLabels set h = some rule) :
    rule ∈ set ∧ '.' :: rule <:+ h ∧ ∀ s ∈ set, '.' :: s <:+ h → s.length ≤ rule.length := by
  induction h with
  | nil => cases hprobe
  | cons c rest ih =>
    rw [probeLabels] at hprobe
    simp only [Bool.and_eq_true, decide_eq_true_eq, List.contains_iff_mem] at hprobe
    split at hprobe
    · next hfound =>
      obtain ⟨rfl, hmem⟩ := hfound
      cases hprobe
      exact ⟨hmem, List.suffix_rfl, fun s _ hs => Nat.le_of_succ_le_succ hs.length_le⟩
    · next hfound =>
      obtain ⟨hmem, hsuffix, hlongest⟩ := ih hprobe
      refine ⟨hmem, hsuffix.trans (List.suffix_cons c rest), fun s hs hunder => ?_⟩
      rcases List.suffix_cons_iff.mp hunder with heq | hunder
      · obtain ⟨rfl, rfl⟩ := List.cons.inj heq
        exact absurd ⟨rfl, hs⟩ hfound
      · exact hlongest s hs hunder

/-- The probe finds the longest rule that the host is or lies under. -/
theorem matchSuffixSet_longest {set : List Text} {h rule : Text} (hmatch : matchSuffixSet h set = some rule) :
    rule ∈ set ∧ Under rule h ∧ ∀ s ∈ set, Under s h → s.length ≤ rule.length := by
  rw [matchSuffixSet] at hmatch
  simp only [List.contains_iff_mem] at hmatch
  split at hmatch
  · cases hmatch
  split at hmatch
  · next hmem =>
    cases hmatch
    refine ⟨hmem, .inl rfl, fun s _ hunder => ?_⟩
    rcases hunder with rfl | hsuffix
    · exact Nat.le_refl _
    · exact Nat.le_of_succ_le hsuffix.length_le
  · next hmem =>
    obtain ⟨hrule, hsuffix, hlongest⟩ := probeLabels_longest hmatch
    refine ⟨hrule, .inr hsuffix, fun s hs hunder => ?_⟩
    rcases hunder with rfl | hunder
    · exact absurd hs hmem
    · exact hlongest s hs hunder

/-! ## Rules of a list -/

/-- A rule that some line of a list gives. -/
def IsParsed (re : RegexEngine) (rule : Text) : Prop :=
  ∃ raw direct, parseAutopxyLine re raw = .domainSuffix rule direct

theorem parseKeyword_lower {direct marked : Bool} {body rule : Text}
    (h : parseKeyword direct body = .domainSuffix rule marked) : toAsciiLowercase rule = rule := by
  unfold parseKeyword at h
  dsimp only at h
  split at h
  · cases h
  split at h
  · cases h
    rw [trimStart_toAsciiLowercase (.inl (by decide)), toAsciiLowercase_idem]
  · cases h

theorem parseBody_lower {re : RegexEngine} {direct marked : Bool} {body rule : Text}
    (h : parseBody re direct body = .domainSuffix rule marked) : toAsciiLowercase rule = rule := by
  unfold parseBody at h
  split at h
  · cases h
  split at h
  · unfold parseRegex at h
    split at h
    · cases h
    split at h
    · cases h
    split at h <;> cases h
  split at h
  · split at h
    · next hhost =>
      cases h
      exact normalizeHostPattern_lower hhost
    · cases h
  split at h
  · next hhost =>
    cases h
    obtain ⟨rest, -, hrest⟩ := Option.bind_eq_some_iff.mp hhost
    exact hostFromUrlish_lower hrest
  split at h
  · next hhost =>
    cases h
    exact hostFromUrlish_lower hhost
  · exact parseKeyword_lower h

theorem IsParsed.lower {re : RegexEngine} {rule : Text} (h : IsParsed re rule) : toAsciiLowercase rule = rule := by
  obtain ⟨raw, direct, hparse⟩ := h
  unfold parseAutopxyLine at hparse
  dsimp only at hparse
  split at hparse
  · cases hparse
  · exact parseBody_lower hparse

theorem plainHost_plainHost (host : Text) : plainHost (plainHost host) = plainHost host := by
  have hlower : toAsciiLowercase (plainHost host) = plainHost host := toAsciiLowercase_idem _
  rw [plainHost, trimEnd_eq_self (plainHost_getLast? host), hlower]

/-! ## The probe and the scan -/

/-- What a scan over all rules would find, and the longest of it. -/
structure ProbeAgrees (host : Text) (set : List Text) : Prop where
  found : (matchSuffixSet host set).isSome ↔ ∃ rule ∈ set, hostMatchesSuffix host rule = true
  longest : ∀ rule, matchSuffixSet host set = some rule → rule ∈ set ∧ hostMatchesSuffix host rule = true ∧
    ∀ other ∈ set, hostMatchesSuffix host other = true → other.length ≤ rule.length

/-- A rule that ends in a dot and matches is no longer than one that does not end in a dot. -/
def DottedRulesCovered (host : Text) (set : List Text) : Prop :=
  ∀ rule ∈ set, rule.getLast? = some '.' → hostMatchesSuffix host rule = true →
    ∃ other ∈ set, other.getLast? ≠ some '.' ∧ hostMatchesSuffix host other = true ∧ rule.length ≤ other.length

theorem probeAgrees_iff {re : RegexEngine} {set : List Text} (hset : ∀ rule ∈ set, IsParsed re rule) (host : Text) :
    ProbeAgrees (plainHost host) set ↔ DottedRulesCovered (plainHost host) set := by
  have hunder {rule : Text} (hrule : rule ∈ set) : Under rule (plainHost host)
      ↔ hostMatchesSuffix (plainHost host) rule = true ∧ rule.getLast? ≠ some '.' := by
    have hiff := under_iff (hset rule hrule).lower (plainHost host)
    rwa [plainHost_plainHost] at hiff
  constructor
  · intro hagrees rule hrule _ hmatches
    obtain ⟨found, hfound⟩ := Option.isSome_iff_exists.mp (hagrees.found.mpr ⟨rule, hrule, hmatches⟩)
    obtain ⟨hmem, hfits, hlongest⟩ := hagrees.longest found hfound
    have hplain := ((hunder hmem).mp (matchSuffixSet_longest hfound).2.1).2
    exact ⟨found, hmem, hplain, hfits, hlongest rule hrule hmatches⟩
  · intro hcovered
    -- Every rule that matches has one beside it that the probe can find.
    have hreach {rule : Text} (hrule : rule ∈ set) (hmatches : hostMatchesSuffix (plainHost host) rule = true) :
        ∃ other ∈ set, Under other (plainHost host) ∧ rule.length ≤ other.length := by
      by_cases hdot : rule.getLast? = some '.'
      · obtain ⟨other, hother, hplain, hfits, hlength⟩ := hcovered rule hrule hdot hmatches
        exact ⟨other, hother, (hunder hother).mpr ⟨hfits, hplain⟩, hlength⟩
      · exact ⟨rule, hrule, (hunder hrule).mpr ⟨hmatches, hdot⟩, Nat.le_refl _⟩
    refine ⟨?_, fun rule hfound => ?_⟩
    · rw [matchSuffixSet_isSome]
      constructor
      · rintro ⟨rule, hrule, hin⟩
        exact ⟨rule, hrule, ((hunder hrule).mp hin).1⟩
      · rintro ⟨rule, hrule, hmatches⟩
        obtain ⟨other, hother, hin, -⟩ := hreach hrule hmatches
        exact ⟨other, hother, hin⟩
    · obtain ⟨hrule, hin, hlongest⟩ := matchSuffixSet_longest hfound
      refine ⟨hrule, ((hunder hrule).mp hin).1, fun other hother hmatches => ?_⟩
      obtain ⟨reached, hreached, hin', hlength⟩ := hreach hother hmatches
      exact hlength.trans (hlongest reached hreached hin')

/-- An engine that compiles no expression. -/
def noRegex : RegexEngine := ⟨fun _ => none⟩

theorem isParsed_anchor : IsParsed noRegex "example.com".toList := ⟨"||example.com".toList, false, by decide⟩

theorem probeAgrees_iff_anchor : ProbeAgrees (plainHost "www.example.com.".toList) ["example.com".toList]
      ↔ DottedRulesCovered (plainHost "www.example.com.".toList) ["example.com".toList] :=
  probeAgrees_iff (List.forall_mem_singleton.mpr isParsed_anchor) "www.example.com.".toList

/-- An anchor that is written with the dot of the root. -/
theorem probeAgrees_wrong : IsParsed noRegex "example.com.".toList ∧
    ¬ProbeAgrees (plainHost "example.com".toList) ["example.com.".toList] := by
  refine ⟨⟨"||example.com.".toList, false, by decide⟩, fun hagrees => ?_⟩
  have hnone : (matchSuffixSet (plainHost "example.com".toList) ["example.com.".toList]).isSome = false := by decide
  have hfound := hagrees.found.mpr ⟨"example.com.".toList, List.mem_cons_self, by decide⟩
  exact Bool.false_ne_true (hnone.symm.trans hfound)

end Taomni.Sockscap
