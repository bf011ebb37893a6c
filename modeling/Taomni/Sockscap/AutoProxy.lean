import Taomni.Agent.CommandLine
import Taomni.Encoding.Workspace

/-!
# AutoProxy rule lists

Reference: `src-tauri/src/sockscap/rules/autopxy.rs` and `gfwlist.rs`.

Texts are lists of characters, and the hash sets of compiled rules lists without repetitions. The regular
expressions and the base64 decoder come from outside the repository and are parameters.
-/

namespace Taomni.Sockscap

open List
open Agent (Text isWhitespace trim containsText)

/-! ## Text -/

/-- `str::len`. -/
def byteLen (s : Text) : ℕ := (String.ofList s).utf8ByteSize

/-- `trim_start_matches` of a character. -/
def trimStart (c : Char) (s : Text) : Text := s.dropWhile (· == c)

/-- `trim_end_matches` of a character. -/
def trimEnd (c : Char) (s : Text) : Text := s.rdropWhile (· == c)

/-- `to_ascii_lowercase`. -/
def toAsciiLowercase (s : Text) : Text := s.map Char.toLower

/-- The first piece of `split(sep)`. -/
def firstPiece (sep : Char) (s : Text) : Text := s.takeWhile (· != sep)

/-- `strip_prefix`. -/
def strip (lead s : Text) : Option Text :=
  if lead.isPrefixOf s then some (s.drop lead.length) else none

/-- `line.strip_suffix('\r')`. -/
def stripReturn (line : Text) : Text := if line.getLast? = some '\r' then line.dropLast else line

/-- `str::lines`: the last piece counts as a line when it is not empty, and has no line end to lose. -/
def textLines (s : Text) : List Text :=
  let pieces := s.splitOn '\n'
  pieces.dropLast.map stripReturn ++ pieces.getLast?.toList.filter fun last => !last.isEmpty

/-! ### Lower case and trimmed characters -/

variable {c : Char}

theorem toLower_val (h : c.isUpper = true) : c.toLower.val.toNat = c.val.toNat + 32 := by
  have h : c.val ≥ 'A'.val ∧ c.val ≤ 'Z'.val := of_decide_eq_true h
  have h1 : 65 ≤ c.val.toNat := h.1
  have h2 : c.val.toNat ≤ 90 := h.2
  have h3 : ('a'.val - 'A'.val).toNat = 32 := rfl
  unfold Char.toLower
  rw [dif_pos h, UInt32.toNat_add, h3]
  omega

theorem toLower_of_not_upper (h : c.isUpper = false) : c.toLower = c := by
  unfold Char.toLower
  exact dif_neg (of_decide_eq_false h)

variable {d : Char}

/-- Characters that are no letters are left alone, and come from themselves only. -/
theorem toLower_eq_iff (hd : d.toNat < 65 ∨ 122 < d.toNat) : c.toLower = d ↔ c = d := by
  cases h : c.isUpper with
  | false => rw [toLower_of_not_upper h]
  | true =>
    have hval := toLower_val h
    have hc : c.val ≥ 'A'.val ∧ c.val ≤ 'Z'.val := of_decide_eq_true h
    have h1 : 65 ≤ c.val.toNat := hc.1
    have h2 : c.val.toNat ≤ 90 := hc.2
    constructor
    · rintro rfl
      have : c.toLower.toNat = c.toLower.val.toNat := rfl
      omega
    · rintro rfl
      have : c.toNat = c.val.toNat := rfl
      omega

theorem toLower_toLower (c : Char) : c.toLower.toLower = c.toLower := by
  cases h : c.isUpper with
  | false => rw [toLower_of_not_upper h, toLower_of_not_upper h]
  | true =>
    have hval := toLower_val h
    have hc : c.val ≥ 'A'.val ∧ c.val ≤ 'Z'.val := of_decide_eq_true h
    have h1 : 65 ≤ c.val.toNat := hc.1
    refine toLower_of_not_upper (decide_eq_false ?_)
    rintro ⟨-, h2⟩
    have h2 : c.toLower.val.toNat ≤ 90 := h2
    omega

theorem toAsciiLowercase_idem (s : Text) :
    toAsciiLowercase (toAsciiLowercase s) = toAsciiLowercase s := by
  unfold toAsciiLowercase
  rw [map_map]
  exact map_congr_left fun c _ => toLower_toLower c

variable {s : Text}

/-- The separators of hosts, addresses and patterns. -/
theorem mem_toAsciiLowercase (hd : d.toNat < 65 ∨ 122 < d.toNat) : d ∈ toAsciiLowercase s ↔ d ∈ s := by
  unfold toAsciiLowercase
  rw [mem_map]
  constructor
  · rintro ⟨c, hc, heq⟩
    rwa [(toLower_eq_iff hd).mp heq] at hc
  · exact fun h => ⟨d, h, (toLower_eq_iff hd).mpr rfl⟩

theorem beq_toLower (hd : d.toNat < 65 ∨ 122 < d.toNat) (c : Char) : (c.toLower == d) = (c == d) := by
  rw [Bool.eq_iff_iff, beq_iff_eq, beq_iff_eq]
  exact toLower_eq_iff hd

theorem trimStart_toAsciiLowercase (hd : d.toNat < 65 ∨ 122 < d.toNat) (s : Text) :
    trimStart d (toAsciiLowercase s) = toAsciiLowercase (trimStart d s) := by
  unfold trimStart toAsciiLowercase
  rw [dropWhile_map]
  exact congrArg _ (congrArg (List.dropWhile · s) (funext fun c => beq_toLower hd c))

theorem trimEnd_toAsciiLowercase (hd : d.toNat < 65 ∨ 122 < d.toNat) (s : Text) :
    trimEnd d (toAsciiLowercase s) = toAsciiLowercase (trimEnd d s) := by
  have h := congrArg List.reverse (trimStart_toAsciiLowercase hd s.reverse)
  unfold trimStart toAsciiLowercase at h
  unfold trimEnd toAsciiLowercase List.rdropWhile
  rw [← map_reverse, h, map_reverse]

theorem trimEnd_sublist (c : Char) (s : Text) : (trimEnd c s).Sublist s :=
  rdropWhile_prefix _ s |>.sublist

theorem trimStart_sublist (c : Char) (s : Text) : (trimStart c s).Sublist s :=
  dropWhile_sublist _

theorem mem_trimStart (h : d ∈ s) (hne : d ≠ c) : d ∈ trimStart c s := by
  rw [← takeWhile_append_dropWhile (p := (· == c)) (l := s), mem_append] at h
  refine h.resolve_left fun htake => hne ?_
  have hd := mem_takeWhile_imp (p := (· == c)) htake
  exact beq_iff_eq.mp hd

theorem mem_trimEnd (h : d ∈ s) (hne : d ≠ c) : d ∈ trimEnd c s :=
  mem_rdropWhile h (by rwa [beq_iff_eq])

theorem trimEnd_append_self (c : Char) (s : Text) : trimEnd c (s ++ [c]) = trimEnd c s :=
  rdropWhile_concat_pos _ _ _ (beq_self_eq_true c)

theorem trimEnd_eq_self (h : s.getLast? ≠ some c) : trimEnd c s = s := by
  refine rdropWhile_eq_self_iff.mpr fun hne heq => h ?_
  rw [getLast?_eq_some_getLast hne, beq_iff_eq.mp heq]

theorem trimEnd_getLast? (c : Char) (s : Text) : (trimEnd c s).getLast? ≠ some c := by
  intro h
  obtain ⟨ys, hys⟩ := List.getLast?_eq_some_iff.mp h
  have hidem : trimEnd c (trimEnd c s) = trimEnd c s := rdropWhile_idempotent _ _
  rw [hys, trimEnd_append_self] at hidem
  have hlength := (trimEnd_sublist c ys).length_le
  rw [hidem, length_append, length_singleton] at hlength
  omega

theorem trimStart_eq_self (h : s.head? ≠ some c) : trimStart c s = s := by
  cases s with
  | nil => rfl
  | cons d s =>
    unfold trimStart
    rw [dropWhile_cons, if_neg]
    rw [beq_iff_eq]
    rintro rfl
    exact h rfl

/-! ## One line -/

/-- `ParsedRule`. -/
inductive ParsedRule where
  | domainSuffix (host : Text) (direct : Bool)
  | contains (needle : Text) (direct : Bool)
  | regex (pattern : Text) (direct : Bool)
  | skip (reason : String)
deriving DecidableEq

/-- `Regex::new`, with `is_match` of what it compiles. -/
structure RegexEngine where
  new : Text → Option (Text → Bool)

def normalizeHostPattern (s : Text) : Option Text :=
  let s := toAsciiLowercase (trimEnd '/' (trimEnd '*' (trimStart '.' (trim s))))
  if s.isEmpty || s.contains ' ' then none
  else
    -- Drop path leftovers.
    let s := firstPiece '/' s
    if s.isEmpty then none else some s

def hostFromUrlish (s : Text) : Option Text :=
  let s := trim s
  let withoutScheme :=
    ((strip "https://".toList s).or (strip "http://".toList s)).getD s
  normalizeHostPattern (trim (firstPiece ':' (firstPiece '/' withoutScheme)))

/-- The form `/…/`. -/
def isRegexForm (body : Text) : Bool :=
  body.head? = some '/' && body.getLast? = some '/' && 2 < body.length

def parseRegex (re : RegexEngine) (direct : Bool) (pat : Text) : ParsedRule :=
  if 256 < byteLen pat || 8 < pat.count '*' then .skip "regex too complex"
  else if containsText ".*.*".toList pat || (containsText ".+".toList pat && 64 < byteLen pat) then
    .skip "regex rejected"
  else if (re.new pat).isNone then .skip "invalid regex"
  else .regex pat direct

/-- The host of `|http://…`, and of whatever else follows a single `|`. -/
def leftAnchored (body : Text) : Option Text := (strip ['|'] body).bind hostFromUrlish

/-- The last branch of `parse_autopxy_line`. -/
def parseKeyword (direct : Bool) (body : Text) : ParsedRule :=
  let needle := toAsciiLowercase (trimEnd '*' (trimStart '*' body))
  if needle.isEmpty then .skip "empty needle"
  else
    let host := trimStart '.' needle
    if needle.contains '.' && !needle.contains '/' && !needle.contains '?' && !needle.contains '='
        && !host.isEmpty then
      .domainSuffix host direct
    else .contains needle direct

/-- `parse_autopxy_line` after the whitelist mark. -/
def parseBody (re : RegexEngine) (direct : Bool) (body : Text) : ParsedRule :=
  if body.isEmpty then .skip "empty"
  else if isRegexForm body then parseRegex re direct body.tail.dropLast
  else
    match strip ['|', '|'] body with
    | some rest =>
      match normalizeHostPattern rest with
      | some host => .domainSuffix host direct
      | none => .skip "bad || host"
    | none =>
      match leftAnchored body with
      | some host => .domainSuffix host direct
      | none =>
        match hostFromUrlish body with
        | some host => .domainSuffix host direct
        | none => parseKeyword direct body

/-- Empty lines, comments and headers. -/
def isComment (line : Text) : Bool :=
  line.isEmpty || line.head? = some '!' || line.head? = some '['

/-- Whether a line is marked `@@`, and the rest of it. -/
def splitMark (line : Text) : Bool × Text :=
  match strip ['@', '@'] line with
  | some rest => (true, trim rest)
  | none => (false, line)

def parseAutopxyLine (re : RegexEngine) (raw : Text) : ParsedRule :=
  let line := trim raw
  if isComment line then .skip "comment"
  else
    let (direct, body) := splitMark line
    parseBody re direct body

/-- A host in lower case, without dots at its end. -/
def plainHost (host : Text) : Text := toAsciiLowercase (trimEnd '.' host)

def hostMatchesSuffix (host suffix : Text) : Bool :=
  let h := plainHost host
  let s := plainHost suffix
  h == s || ('.' :: s).isSuffixOf h

/-! ## Compiled rules -/

inductive RuleMatch where
  | proxy (rule : Text)
  | direct (rule : Text)
  | miss
deriving DecidableEq

/-- `CompiledRules` without its meta data other than the counts. -/
structure CompiledRules where
  ruleCount : ℕ := 0
  skipped : ℕ := 0
  proxySuffixes : List Text := []
  directSuffixes : List Text := []
  proxyContains : List Text := []
  directContains : List Text := []
  proxyRegex : List (Text × (Text → Bool)) := []
  directRegex : List (Text × (Text → Bool)) := []

namespace CompiledRules

/-- The loop body of `compile`. -/
def add (re : RegexEngine) (rules : CompiledRules) (rule : ParsedRule) : CompiledRules :=
  let counted := { rules with ruleCount := rules.ruleCount + 1 }
  match rule with
  | .skip _ => { rules with skipped := rules.skipped + 1 }
  | .domainSuffix host true =>
    { counted with directSuffixes := rules.directSuffixes.insert host }
  | .domainSuffix host false =>
    { counted with proxySuffixes := rules.proxySuffixes.insert host }
  | .contains needle true =>
    { counted with directContains := rules.directContains ++ [needle] }
  | .contains needle false =>
    { counted with proxyContains := rules.proxyContains ++ [needle] }
  | .regex pattern direct =>
    match re.new pattern, direct with
    | none, _ => { rules with skipped := rules.skipped + 1 }
    | some isMatch, true =>
      { counted with directRegex := rules.directRegex ++ [(pattern, isMatch)] }
    | some isMatch, false =>
      { counted with proxyRegex := rules.proxyRegex ++ [(pattern, isMatch)] }

/-- The rules of the lines of a text. -/
def ofText (re : RegexEngine) (text : Text) : CompiledRules :=
  (textLines text).foldl (fun rules line => rules.add re (parseAutopxyLine re line)) {}

end CompiledRules

/-- The loop of `match_suffix_set`: what follows each dot of the host, the longest first. -/
def probeLabels (set : List Text) : Text → Option Text
  | [] => none
  | c :: rest =>
    if c = '.' && set.contains rest then some rest else probeLabels set rest

def matchSuffixSet (host : Text) (set : List Text) : Option Text :=
  if set.isEmpty then none else if set.contains host then some host else probeLabels set host

namespace CompiledRules

/-- The three searches for one kind of rules. -/
def search (suffixes needles : List Text) (regexes : List (Text × (Text → Bool))) (h : Text) :
    Option Text :=
  match matchSuffixSet h suffixes with
  | some s => some ("||".toList ++ s)
  | none =>
    match needles.find? fun n => containsText n h with
    | some n => some ("*".toList ++ n ++ "*".toList)
    | none => (regexes.find? fun r => r.2 h).map fun r => "/".toList ++ r.1 ++ "/".toList

def matchHost (rules : CompiledRules) (host : Text) : RuleMatch :=
  let h := plainHost host
  if h.isEmpty then .miss
  else
    match search rules.directSuffixes rules.directContains rules.directRegex h with
    | some rule => .direct ("@@".toList ++ rule)
    | none =>
      match search rules.proxySuffixes rules.proxyContains rules.proxyRegex h with
      | some rule => .proxy rule
      | none => .miss

end CompiledRules

/-! ## Lists -/

/-- `STANDARD.decode` of the base64 decoder: the bytes, or the text of the error. -/
abbrev Base64Decode := List UInt8 → Except Text (List UInt8)

/-- A line that only a list in plain text has. -/
def looksLikeAutoProxy (line : Text) : Bool :=
  let l := trim line
  "||".toList.isPrefixOf l || "@@".toList.isPrefixOf l || "!".toList.isPrefixOf l ||
    "[Auto".toList.isPrefixOf l

/-- `decode_gfwlist_payload`. The second parameter is the text of a `FromUtf8Error`. -/
def decodeGfwlistPayload (decode : Base64Decode) (utf8Error : List UInt8 → Text) (raw : Text) :
    Except Text Text :=
  let trimmed := trim raw
  if trimmed.isEmpty then .error "empty gfwlist payload".toList
  else if (textLines trimmed).any looksLikeAutoProxy then .ok trimmed
  else
    let compact := trimmed.filter fun c => !isWhitespace c
    match decode (Encoding.utf8Bytes (String.ofList compact)) with
    | .error e => .error ("gfwlist base64 decode: ".toList ++ e)
    | .ok bytes =>
      match Encoding.fromUtf8 bytes with
      | some text => .ok text.toList
      | none => .error ("gfwlist utf8: ".toList ++ utf8Error bytes)

/-- `CompiledRules::compile`. -/
def compile (re : RegexEngine) (decode : Base64Decode) (utf8Error : List UInt8 → Text) (raw : Text) :
    Except Text CompiledRules :=
  (decodeGfwlistPayload decode utf8Error raw).map (CompiledRules.ofText re)

end Taomni.Sockscap
