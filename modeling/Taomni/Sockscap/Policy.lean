import Mathlib.Data.List.Find
import Taomni.Common.IpAddr
import Taomni.Dap.Codec
import Taomni.Sockscap.AutoProxy

/-!
# Routing policy

The profiles are tried in order of priority, and the first one in scope decides. A decision that is made
without a hostname is the one that any hostname leads to (`decideWithoutHostname_agrees`).

Reference: `src-tauri/src/sockscap/policy.rs`, `paths.rs` and `config.rs`.

Component-wise `Path::ends_with` depends on the platform and is a parameter.
-/

namespace Taomni.Sockscap

open Agent (Text trim containsText)
open Dap (splitOnce)

/-! ## Configuration -/

inductive ScopeMode where
  | global
  | apps

inductive RuleMode where
  | gfwList
  | proxyAll
  | off

inductive Decision where
  | direct
  | proxy
  | block
deriving DecidableEq

inductive UserRuleAction where
  | direct
  | proxy
  | block
deriving DecidableEq

structure UserRule where
  pattern : Text
  action : UserRuleAction

/-- `SocksCapProfile`, with the paths of its applications. -/
structure SocksCapProfile where
  id : Text
  name : Text
  enabled : Bool := true
  priority : ℤ := 0
  mode : ScopeMode := .global
  apps : List Text := []
  ruleMode : RuleMode := .gfwList
  userRules : List UserRule := []
  defaultAction : Decision := .direct

structure SocksCapConfig where
  profiles : List SocksCapProfile
  activeProfileIds : List Text
  bypassCidrs : List Text

/-- The list is sorted by priority, and profiles of one priority stay in their order. -/
def SocksCapConfig.activeProfiles (cfg : SocksCapConfig) : List SocksCapProfile :=
  (cfg.profiles.filter fun p => p.enabled && cfg.activeProfileIds.contains p.id).mergeSort
    fun p q => p.priority ≤ q.priority

/-! ## Networks -/

structure IpNetwork where
  addr : IpAddr
  prefixLen : ℕ

/-- `str::parse::<u8>`. -/
def parseU8 (s : Text) : Option ℕ := (Dap.parseUsize s).filter (· < 256)

namespace IpNetwork

def parse (s : Text) : Option IpNetwork :=
  let s := trim s
  match splitOnce '/' s with
  | some (a, p) => do
    let addr ← IpAddr.parse a
    let prefixLen ← parseU8 p
    some ⟨addr, prefixLen⟩
  | none => do
    let addr ← IpAddr.parse s
    some ⟨addr, match addr with | .v4 _ => 32 | .v6 _ => 128⟩

/-- The addresses agree in their first bits. -/
def agree {w : ℕ} (prefixLen : ℕ) (n a : BitVec w) : Bool :=
  let shift := w - prefixLen
  let mask : BitVec w := if w ≤ shift then 0 else BitVec.allOnes w <<< shift
  n &&& mask == a &&& mask

def contains (net : IpNetwork) (ip : IpAddr) : Bool :=
  match net.addr, ip with
  | .v4 n, .v4 a => agree net.prefixLen n a
  | .v6 n, .v6 a => agree net.prefixLen n a
  | _, _ => false

def display (net : IpNetwork) : Text := net.addr.display ++ ['/'] ++ Nat.toDigits 10 net.prefixLen

end IpNetwork

/-! ## Paths of applications -/

/-- `normalize_exe_path`. -/
def normalizeExePath (p : Text) : Text :=
  let s := trimEnd '\\' (toAsciiLowercase ((trim p).map fun c => if c = '/' then '\\' else c))
  (strip ['\\', '\\', '?', '\\'] s).getD s

/-- `paths_match_exe`. -/
def pathsMatchExe (endsWith : Text → Text → Bool) (processPath selector : Text) : Bool :=
  let p := normalizeExePath processPath
  let s := normalizeExePath selector
  if p.isEmpty || s.isEmpty then false else p == s || s.isSuffixOf p || endsWith p s

/-! ## The engine -/

structure PolicyInput where
  host : Option Text
  ip : Option IpAddr
  processPath : Option Text

structure MatchTrace where
  decision : Decision
  reason : Text
  matchedRule : Option Text := none
  profileId : Option Text := none
  profileName : Option Text := none
deriving DecidableEq

structure ActiveProfileEngine where
  id : Text
  name : Text
  mode : ScopeMode
  apps : List Text
  ruleMode : RuleMode
  userRules : List UserRule
  defaultAction : Decision

structure PolicyEngine where
  profiles : List ActiveProfileEngine
  bypassCidrs : List IpNetwork
  rules : Option CompiledRules

def PolicyEngine.fromConfig (cfg : SocksCapConfig) (rules : Option CompiledRules) : PolicyEngine where
  profiles := cfg.activeProfiles.map fun p =>
    { id := p.id
      name := p.name
      mode := p.mode
      apps := (p.apps.map normalizeExePath).filter fun s => !s.isEmpty
      ruleMode := p.ruleMode
      userRules := p.userRules
      defaultAction := p.defaultAction }
  bypassCidrs := cfg.bypassCidrs.filterMap IpNetwork.parse
  rules := rules

/-! ## Rules of the user -/

def userRuleMatches (r : UserRule) (host : Option Text) (ip : Option IpAddr) : Bool :=
  let pat := trim r.pattern
  if pat.isEmpty then false
  else
    let byName := host.any fun h =>
      let p := toAsciiLowercase (trimStart '.' pat)
      h == p || ('.' :: p).isSuffixOf h || containsText p h
    match IpNetwork.parse pat, ip with
    | some net, some ip => net.contains ip
    | _, _ => byName

/-- The `Debug` form. -/
def UserRuleAction.debug : UserRuleAction → Text
  | .direct => "Direct".toList
  | .proxy => "Proxy".toList
  | .block => "Block".toList

def UserRuleAction.decision : UserRuleAction → Decision
  | .direct => .direct
  | .proxy => .proxy
  | .block => .block

namespace ActiveProfileEngine

variable (prof : ActiveProfileEngine)

/-- A trace of this profile, whose reason starts with its name. -/
def trace (decision : Decision) (reason : String) (matchedRule : Option Text := none) : MatchTrace where
  decision := decision
  reason := "profile '".toList ++ prof.name ++ "' ".toList ++ reason.toList
  matchedRule := matchedRule
  profileId := some prof.id
  profileName := some prof.name

def matchUserRules (host : Option Text) (ip : Option IpAddr) (action : UserRuleAction) :
    Option MatchTrace :=
  (prof.userRules.find? fun r => r.action = action && userRuleMatches r host ip).map fun r =>
    prof.trace r.action.decision ("user rule (" ++ String.ofList r.action.debug ++ ")")
      (some r.pattern)

/-- What the rule mode decides. -/
def byRuleMode (rules : Option CompiledRules) (host : Option Text) : MatchTrace :=
  match prof.ruleMode with
  | .off => prof.trace .direct "rule_mode=off"
  | .proxyAll => prof.trace .proxy "rule_mode=proxyAll"
  | .gfwList =>
    match host with
    | none => prof.trace prof.defaultAction "no hostname; default_action"
    | some h =>
      match (rules.map fun r => r.matchHost h : Option RuleMatch) with
      | some (.proxy rule) => prof.trace .proxy "gfwlist proxy" (some rule)
      | some (.direct rule) => prof.trace .direct "gfwlist whitelist" (some rule)
      | _ => prof.trace prof.defaultAction "gfwlist miss; default_action"

/-- The decision of a profile in scope: rules of the user first, and blocking ones before the others. -/
def outcome (rules : Option CompiledRules) (host : Option Text) (ip : Option IpAddr) : MatchTrace :=
  (((prof.matchUserRules host ip .block).or (prof.matchUserRules host ip .proxy)).or
    (prof.matchUserRules host ip .direct)).getD (prof.byRuleMode rules host)

/-- The hint names the profile, or the process is one of its applications. -/
def inScope (endsWith : Text → Text → Bool) (input : PolicyInput) (hint : Option Text) : Bool :=
  match prof.mode with
  | .global => true
  | .apps =>
    match hint with
    | some profileId => profileId == prof.id
    | none =>
      input.processPath.any fun p =>
        let norm := normalizeExePath p
        prof.apps.any fun a => pathsMatchExe endsWith norm a

/-- Some pattern is neither blank nor a network. -/
def hasDomainRule : Bool :=
  prof.userRules.any fun rule =>
    let pattern := trim rule.pattern
    !pattern.isEmpty && (IpNetwork.parse pattern).isNone

end ActiveProfileEngine

/-! ## Decisions -/

namespace PolicyEngine

variable (engine : PolicyEngine) (endsWith : Text → Text → Bool)

def noMatch : MatchTrace where
  decision := .direct
  reason := "no matching active profile".toList

def bypass (ip : IpAddr) (net : IpNetwork) : MatchTrace where
  decision := .direct
  reason := "bypass CIDR (".toList ++ ip.display ++ [')']
  matchedRule := some net.display

/-- The network that an address bypasses the profiles with. -/
def bypassed (ip : IpAddr) : Option IpNetwork := engine.bypassCidrs.find? fun net => net.contains ip

/-- The loop over the profiles. -/
def decideIn (input : PolicyInput) (hint host : Option Text) :
    List ActiveProfileEngine → MatchTrace
  | [] => noMatch
  | prof :: profiles =>
    if prof.inScope endsWith input hint then prof.outcome engine.rules host input.ip
    else decideIn input hint host profiles

/-- The host that the rules see. -/
def plainInputHost (input : PolicyInput) : Option Text :=
  (input.host.map plainHost).filter fun h => !h.isEmpty

def decideWithProfileHint (input : PolicyInput) (hint : Option Text) : MatchTrace :=
  let host := plainInputHost input
  match input.ip.bind fun ip => (engine.bypassed ip).map fun net => (ip, net) with
  | some (ip, net) => bypass ip net
  | none => engine.decideIn endsWith input hint host engine.profiles

/-- The first profile in scope, if it decides without a hostname, or no profile. -/
def isFinal (input : PolicyInput) (hint : Option Text) : List ActiveProfileEngine → Bool
  | [] => true
  | prof :: profiles =>
    if prof.inScope endsWith input hint then
      !(prof.hasDomainRule || match prof.ruleMode with | .gfwList => true | _ => false)
    else isFinal input hint profiles

def decideWithoutHostname (input : PolicyInput) (hint : Option Text) : Option MatchTrace :=
  let decided := some (engine.decideWithProfileHint endsWith input hint)
  if input.host.isSome then decided
  else if input.ip.any fun ip => engine.bypassCidrs.any fun net => net.contains ip then decided
  else if isFinal endsWith input hint engine.profiles then decided
  else none

/-! ## Agreement -/

theorem userRuleMatches_of_network {r : UserRule} {ip : IpAddr}
    (h : ((trim r.pattern).isEmpty || (IpNetwork.parse (trim r.pattern)).isSome) = true)
    (host host' : Option Text) : userRuleMatches r host (some ip) = userRuleMatches r host' (some ip) := by
  unfold userRuleMatches
  dsimp only
  cases hempty : (trim r.pattern).isEmpty with
  | true => rfl
  | false =>
    rw [hempty, Bool.false_or] at h
    obtain ⟨net, hnet⟩ := Option.isSome_iff_exists.mp h
    rw [hnet]

/-- Without domain rules the host does not matter to the rules of the user. -/
theorem matchUserRules_host {prof : ActiveProfileEngine} (h : prof.hasDomainRule = false)
    (host host' : Option Text) (ip : IpAddr) (action : UserRuleAction) :
    prof.matchUserRules host (some ip) action = prof.matchUserRules host' (some ip) action := by
  unfold ActiveProfileEngine.matchUserRules
  refine congrArg (Option.map _) (List.find?_congr fun r hr => congrArg _ ?_)
  refine userRuleMatches_of_network ?_ host host'
  have hrule := List.any_eq_false.mp h r hr
  dsimp only at hrule
  cases hempty : (trim r.pattern).isEmpty with
  | true => rfl
  | false =>
    rw [hempty] at hrule
    cases hnet : IpNetwork.parse (trim r.pattern) with
    | some net => rfl
    | none =>
      rw [hnet] at hrule
      exact absurd rfl hrule

theorem outcome_host {prof : ActiveProfileEngine} (hrules : prof.hasDomainRule = false)
    (hmode : prof.ruleMode ≠ .gfwList) (rules : Option CompiledRules) (host host' : Option Text)
    (ip : IpAddr) : prof.outcome rules host (some ip) = prof.outcome rules host' (some ip) := by
  have hbyMode : prof.byRuleMode rules host = prof.byRuleMode rules host' := by
    unfold ActiveProfileEngine.byRuleMode
    cases h : prof.ruleMode with
    | gfwList => exact absurd h hmode
    | proxyAll => rfl
    | off => rfl
  unfold ActiveProfileEngine.outcome
  rw [hbyMode, matchUserRules_host hrules host host', matchUserRules_host hrules host host',
    matchUserRules_host hrules host host']

/-- The first profile in scope decides, so that later ones may have any rules. -/
theorem decideIn_host {input : PolicyInput} {ip : IpAddr} (hip : input.ip = some ip)
    {hint : Option Text} {profiles : List ActiveProfileEngine}
    (hfinal : isFinal endsWith input hint profiles = true) (host host' : Option Text) :
    engine.decideIn endsWith input hint host profiles =
      engine.decideIn endsWith input hint host' profiles := by
  induction profiles with
  | nil => rfl
  | cons prof profiles ih =>
    unfold decideIn
    unfold isFinal at hfinal
    cases hscope : prof.inScope endsWith input hint with
    | false =>
      rw [hscope] at hfinal
      exact ih hfinal
    | true =>
      rw [hscope, if_pos rfl, Bool.not_eq_true', Bool.or_eq_false_iff] at hfinal
      rw [if_pos rfl, if_pos rfl, hip]
      refine outcome_host hfinal.1 (fun hmode => ?_) engine.rules host host' ip
      rw [hmode] at hfinal
      exact Bool.noConfusion hfinal.2

theorem decideIn_input (input : PolicyInput) (hint name host : Option Text)
    (profiles : List ActiveProfileEngine) :
    engine.decideIn endsWith { input with host := name } hint host profiles =
      engine.decideIn endsWith input hint host profiles := by
  induction profiles with
  | nil => rfl
  | cons prof profiles ih =>
    unfold decideIn
    rw [ih]
    rfl

/-- A decision made without a hostname is the decision for every hostname. -/
theorem decideWithoutHostname_agrees {input : PolicyInput} {hint : Option Text} {ip : IpAddr}
    {trace : MatchTrace} (hip : input.ip = some ip) (hhost : input.host = none)
    (h : engine.decideWithoutHostname endsWith input hint = some trace) (host : Option Text) :
    engine.decideWithProfileHint endsWith { input with host := host } hint = trace := by
  have hagree : isFinal endsWith input hint engine.profiles = true ∨ (engine.bypassed ip).isSome →
      engine.decideWithProfileHint endsWith { input with host := host } hint =
        engine.decideWithProfileHint endsWith input hint := by
    intro hcase
    unfold decideWithProfileHint
    dsimp only
    rw [hip, Option.bind_some]
    cases hbypass : engine.bypassed ip with
    | some net => rfl
    | none =>
      rw [hbypass] at hcase
      have hfinal := hcase.resolve_right Bool.false_ne_true
      dsimp only [Option.map_none]
      rw [← hip]
      exact (engine.decideIn_input endsWith input hint host _ _).trans
        (engine.decideIn_host endsWith hip hfinal _ _)
  unfold decideWithoutHostname at h
  dsimp only at h
  rw [hhost, hip, Option.any_some] at h
  split at h
  · rename_i hsome
    exact Bool.noConfusion hsome
  · split at h
    · rename_i hbypass
      rw [hagree (.inr (List.find?_isSome.mpr (List.any_eq_true.mp hbypass)))]
      exact Option.some.inj h
    · split at h
      · rename_i hfinal
        rw [hagree (.inl hfinal)]
        exact Option.some.inj h
      · cases h

/-! ## Priorities -/

/-- A profile as the engine takes it. -/
def compile (p : SocksCapProfile) : ActiveProfileEngine where
  id := p.id
  name := p.name
  mode := p.mode
  apps := (p.apps.map normalizeExePath).filter fun s => !s.isEmpty
  ruleMode := p.ruleMode
  userRules := p.userRules
  defaultAction := p.defaultAction

/-- The loop stops at the first profile in scope. -/
theorem decideIn_map_compile (input : PolicyInput) (hint host : Option Text) (profiles : List SocksCapProfile) :
    engine.decideIn endsWith input hint host (profiles.map compile) =
      ((profiles.find? fun p => (compile p).inScope endsWith input hint).map fun p =>
        (compile p).outcome engine.rules host input.ip).getD noMatch := by
  induction profiles with
  | nil => rfl
  | cons p profiles ih =>
    rw [List.map_cons, decideIn, List.find?_cons, ih]
    cases (compile p).inScope endsWith input hint <;> rfl

/-- A bypass network goes first; else a profile of the least priority, among the active ones in scope. -/
theorem decide_fromConfig (cfg : SocksCapConfig) (rules : Option CompiledRules) (input : PolicyInput)
    (hint : Option Text) :
    let Takes := fun p : SocksCapProfile => p ∈ cfg.profiles ∧ p.enabled = true ∧ p.id ∈ cfg.activeProfileIds ∧
      (compile p).inScope endsWith input hint = true
    let engine := fromConfig cfg rules
    let trace := engine.decideWithProfileHint endsWith input hint
    (∀ ip ∈ input.ip, ∀ net ∈ engine.bypassed ip, trace = bypass ip net) ∧
      (input.ip.bind engine.bypassed = none → (∀ p, ¬Takes p) ∧ trace = noMatch ∨
        ∃ p, Takes p ∧ (∀ q, Takes q → p.priority ≤ q.priority) ∧
          trace = (compile p).outcome rules (plainInputHost input) input.ip) := by
  intro Takes engine trace
  refine ⟨fun ip hip net hnet => ?_, fun hfree => ?_⟩
  -- A bypass network answers before any profile is looked at.
  · simp [trace, decideWithProfileHint, Option.mem_def.mp hip, Option.mem_def.mp hnet]
  have hmem : ∀ p, Takes p ↔ p ∈ cfg.activeProfiles ∧ (compile p).inScope endsWith input hint = true := fun p => by
    simp [Takes, SocksCapConfig.activeProfiles, and_assoc]
  have hnone : (input.ip.bind fun ip => (engine.bypassed ip).map fun net => (ip, net)) = none := by
    simpa [Option.bind_eq_none_iff] using hfree
  have htrace : trace = engine.decideIn endsWith input hint (plainInputHost input) engine.profiles := by
    simp only [trace, decideWithProfileHint, hnone]
  rw [htrace.trans (decideIn_map_compile engine endsWith input hint _ cfg.activeProfiles)]
  cases hfirst : cfg.activeProfiles.find? fun p => (compile p).inScope endsWith input hint with
  | none => exact .inl ⟨fun p hp => List.find?_eq_none.mp hfirst p ((hmem p).mp hp).1 hp.2.2.2, rfl⟩
  | some p =>
    obtain ⟨hscope, before, after, hlist, hbefore⟩ := List.find?_eq_some_iff_append.mp hfirst
    have hsorted : cfg.activeProfiles.Pairwise fun p q => decide (p.priority ≤ q.priority) = true :=
      List.pairwise_mergeSort (by simpa using fun p q r => le_trans)
        (by simpa using fun p q : SocksCapProfile => le_total p.priority q.priority) _
    refine .inr ⟨p, (hmem p).mpr ⟨List.mem_of_find?_eq_some hfirst, hscope⟩, fun q hq => ?_, rfl⟩
    obtain ⟨hq, hin⟩ := (hmem q).mp hq
    rw [hlist] at hq hsorted
    -- What stands before `p` is not in scope, and what stands behind it has no lower priority.
    rcases List.mem_append.mp hq with hq | hq
    · simpa [hin] using hbefore q hq
    rcases List.mem_cons.mp hq with rfl | hq
    · exact le_rfl
    · exact of_decide_eq_true (List.rel_of_pairwise_cons (List.pairwise_append.mp hsorted).2.1 hq)

/-- One profile that proxies everything but a network, which is blocked. -/
def networkEngine : PolicyEngine where
  profiles := [
    { id := "work".toList, name := "Work".toList, mode := .global, apps := [], ruleMode := .proxyAll
      userRules := [⟨" 10.0.0.0/8".toList, .block⟩], defaultAction := .direct }]
  bypassCidrs := []
  rules := none

def networkInput : PolicyInput where
  host := none
  ip := IpAddr.parse "10.1.2.3".toList
  processPath := none

theorem decideWithoutHostname_agrees_networkEngine :
    (networkEngine.decideWithProfileHint (fun _ _ => false)
        { networkInput with host := some "example.com".toList } none).decision = .block :=
  congrArg MatchTrace.decision
    (decideWithoutHostname_agrees networkEngine (fun _ _ => false)
      (show networkInput.ip = some (.v4 0x0A010203#32) by decide) rfl
      (show networkEngine.decideWithoutHostname (fun _ _ => false) networkInput none =
        some (networkEngine.decideWithProfileHint (fun _ _ => false) networkInput none) from rfl)
      (some "example.com".toList))

end PolicyEngine

end Taomni.Sockscap
