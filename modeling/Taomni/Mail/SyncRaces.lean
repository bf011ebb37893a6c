import Mathlib.Logic.Function.Basic
import Mathlib.Logic.Relation
import Taomni.Mail.SyncHoles

/-!
# Clients that share a cache

Several clients load the state of a folder, run a step and apply what it gave, in any order. The rows of
messages that the server has only grow, so what a snapshot knows to be cached stays cached. The
watermark follows as long as no repair, catch-up or reconciliation is applied whose snapshot starts
above the stored watermark: the merge takes the larger of the two, and so gives up what a backfill has
added since the snapshot (`shared_watermark_justified`, `stale_catchup_gives_up_backfill`).

Reference: `src-tauri/src/mail/sync/cache.rs`, `load_folder_sync_state` and `apply_folder_step`.
-/

namespace Taomni.Mail

/-! ## Clients -/

/-- What a client holds between its calls: the state it loaded, and what its step gave. -/
inductive Client where
  | idle
  | loaded (snapshot : FolderSyncState)
  | ready (snapshot : FolderSyncState) (outcome : FolderStepOutcome)

/-- One database and the clients that work on it. -/
structure Clients (ι : Type) where
  cache : FolderCache
  client : ι → Client

variable {ι : Type} [DecidableEq ι] {server : Server}

def Clients.set (s : Clients ι) (i : ι) (client : Client) : Clients ι where
  cache := s.cache
  client := Function.update s.client i client

/-- One client loads, runs its step or applies what it gave, where that is allowed. -/
inductive Clients.Step (server : Server)
    (allowed : FolderCache → FolderSyncState → FolderStepOutcome → Prop) :
    Clients ι → Clients ι → Prop where
  | load {s : Clients ι} (i : ι) (hidle : s.client i = .idle) :
      Step server allowed s (s.set i (.loaded (loadFolderSyncState s.cache)))
  | run {s : Clients ι} (i : ι) {snapshot : FolderSyncState} (params : StepParams)
      (hloaded : s.client i = .loaded snapshot) :
      Step server allowed s
        (s.set i (.ready snapshot (imapSyncFolderStep server snapshot params)))
  | apply {s : Clients ι} (i : ι) {snapshot : FolderSyncState} {outcome : FolderStepOutcome}
      (hready : s.client i = .ready snapshot outcome) (hallowed : allowed s.cache snapshot outcome) :
      Step server allowed s ⟨applyFolderStep s.cache outcome, (s.set i .idle).client⟩

/-- The rows are of the folder that the server has. -/
def Current (server : Server) (cache : FolderCache) : Prop :=
  uidValidityReset cache.uidValidity server.uidValidity = false

/-- The snapshot is not of a time before the reset that the folder needed, and not of a time before
the stored watermark was lowered, unless the result can lower it too. -/
structure NotStale (server : Server) (cache : FolderCache) (snapshot : FolderSyncState)
    (outcome : FolderStepOutcome) : Prop where
  reset : Current server cache →
    uidValidityReset snapshot.uidValidity server.uidValidity = false
  low : Current server cache → canLower outcome.mode = false →
    ∀ stored, cache.low = some stored → (adopt snapshot).low.getD 1 ≤ stored

/-! ## Snapshots and results -/

def Fresh (state : FolderSyncState) : Prop := state.high = none ∧ state.cachedUids = []

/-- A snapshot whose span is within the stored one from `a` to `b`. -/
structure SnapshotWithin (server : Server) (rows : List ℕ) (a b : ℕ) (snapshot : FolderSyncState) :
    Prop where
  started : ¬Fresh snapshot
  low : a ≤ (adopt snapshot).low.getD 1
  high : (adopt snapshot).high.getD 0 ≤ b
  cached : ∀ uid ∈ server.uids, uid ∈ snapshot.cachedUids → uid ∈ rows
  complete : (adopt snapshot).complete = true →
    ∀ uid ∈ server.uids, (adopt snapshot).low.getD 1 ≤ uid

/-- A result that joins the stored span from `a` to `b`. -/
structure ResultJoins (server : Server) (rows : List ℕ) (a b : ℕ) (snapshot : FolderSyncState)
    (outcome : FolderStepOutcome) (newLow newHigh : ℕ) : Prop where
  reset : outcome.uidValidityReset = false
  uidValidity : outcome.uidValidity = server.uidValidity
  lower : outcome.watermark.low = some newLow
  upper : outcome.watermark.high = some newHigh
  vanished : ∀ uid ∈ outcome.vanished, uid ∉ server.uids
  older : ∀ uid ∈ server.uids, newLow ≤ uid → uid < a → uid ∈ rows ∨ uid ∈ outcome.messages
  newer : ∀ uid ∈ server.uids, b < uid → uid ≤ newHigh → uid ∈ rows ∨ uid ∈ outcome.messages
  kept : canLower outcome.mode = false → a ≤ newLow ∧ newLow = (adopt snapshot).low.getD 1
  complete : outcome.watermark.complete = true → ∀ uid ∈ server.uids, newLow ≤ uid

/-- A client whose snapshot or result is of the stored span, of the time before there was one, or of
the folder before its reset. -/
inductive Good (server : Server) (rows : List ℕ) (a b : ℕ) : Client → Prop where
  | idle : Good server rows a b .idle
  | before {snapshot : FolderSyncState}
      (h : uidValidityReset snapshot.uidValidity server.uidValidity = true) :
      Good server rows a b (.loaded snapshot)
  | readyBefore {snapshot : FolderSyncState} {outcome : FolderStepOutcome}
      (h : uidValidityReset snapshot.uidValidity server.uidValidity = true) :
      Good server rows a b (.ready snapshot outcome)
  | fresh {snapshot : FolderSyncState} (h : Fresh snapshot) (newest : ∀ uid ∈ server.uids, uid ≤ b)
      (validity : uidValidityReset snapshot.uidValidity server.uidValidity = false) :
      Good server rows a b (.loaded snapshot)
  | span {snapshot : FolderSyncState} (h : SnapshotWithin server rows a b snapshot)
      (validity : uidValidityReset snapshot.uidValidity server.uidValidity = false) :
      Good server rows a b (.loaded snapshot)
  | ready {snapshot : FolderSyncState} {outcome : FolderStepOutcome} {newLow newHigh : ℕ}
      (h : ResultJoins server rows a b snapshot outcome newLow newHigh) :
      Good server rows a b (.ready snapshot outcome)

variable {rows rows' : List ℕ} {a a' b b' : ℕ} {c : Client} {cache : FolderCache}

/-- The stored span only grows, and so do the rows. -/
theorem Good.mono (h : Good server rows a b c) (ha : a' ≤ a) (hb : b ≤ b')
    (hrows : ∀ uid ∈ server.uids, uid ∈ rows → uid ∈ rows') : Good server rows' a' b' c := by
  cases h with
  | idle => exact .idle
  | before h => exact .before h
  | readyBefore h => exact .readyBefore h
  | fresh h newest validity => exact .fresh h (fun uid huid => (newest uid huid).trans hb) validity
  | span h validity =>
    exact .span { h with
      low := ha.trans h.low
      high := h.high.trans hb
      cached := fun uid huid hcached => hrows uid huid (h.cached uid huid hcached) } validity
  | ready h =>
    exact .ready { h with
      older := fun uid huid hge hlt =>
        (h.older uid huid hge (hlt.trans_le ha)).imp_left (hrows uid huid)
      newer := fun uid huid hlt hle =>
        (h.newer uid huid (hb.trans_lt hlt) hle).imp_left (hrows uid huid)
      kept := fun hmode => ⟨ha.trans (h.kept hmode).1, (h.kept hmode).2⟩ }

theorem InitialSpec.joins {snapshot : FolderSyncState} {outcome : FolderStepOutcome}
    {newLow newHigh : ℕ} (spec : InitialSpec server outcome newLow newHigh)
    (hnewest : ∀ uid ∈ server.uids, uid ≤ b) :
    ResultJoins server rows a b snapshot outcome newLow newHigh where
  reset := spec.reset
  uidValidity := spec.uidValidity
  lower := spec.lower
  upper := spec.upper
  vanished := by
    rw [spec.vanished]
    exact fun _ hgone => absurd hgone List.not_mem_nil
  older uid huid hge _ := .inr (spec.all uid huid hge)
  newer uid huid hlt _ := absurd (hnewest uid huid) (Nat.not_le.mpr hlt)
  kept := by
    rw [spec.mode]
    exact nofun
  complete := spec.complete

/-- A step on a snapshot of the stored span, which may have grown since. -/
theorem SnapshotWithin.joins {snapshot : FolderSyncState} {outcome : FolderStepOutcome}
    {newLow newHigh : ℕ} (h : SnapshotWithin server rows a b snapshot)
    (spec : SpanSpec server snapshot.cachedUids ((adopt snapshot).low.getD 1)
      ((adopt snapshot).high.getD 0) (adopt snapshot).complete (adopt snapshot).needsRepair outcome
      newLow newHigh) : ResultJoins server rows a b snapshot outcome newLow newHigh where
  reset := spec.reset
  uidValidity := spec.uidValidity
  lower := spec.lower
  upper := spec.upper
  vanished := spec.vanished
  older uid huid hge hlt :=
    (spec.older uid huid hge (hlt.trans_le h.low)).imp_left (h.cached uid huid)
  newer uid huid hlt hle :=
    (spec.newer uid huid (h.high.trans_lt hlt) hle).imp_left (h.cached uid huid)
  kept hmode := by
    have hsame := spec.same_low hmode
    exact ⟨hsame ▸ h.low, hsame⟩
  complete hdone uid huid := by
    rcases spec.complete hdone with hcomplete | hall
    · exact spec.low_le.trans (h.complete hcomplete uid huid)
    · exact hall uid huid

theorem Good.run {snapshot : FolderSyncState} (h : Good server rows a b (.loaded snapshot))
    (params : StepParams) :
    Good server rows a b (.ready snapshot (imapSyncFolderStep server snapshot params)) := by
  cases h with
  | before h => exact .readyBefore h
  | fresh h newest validity =>
    cases imapSyncFolderStep_spec server snapshot params validity with
    | span started _ => exact absurd h started
    | initial _ spec => exact .ready (spec.joins newest)
  | span h validity =>
    cases imapSyncFolderStep_spec server snapshot params validity with
    | initial fresh _ => exact absurd fresh h.started
    | span _ spec => exact .ready (h.joins spec)

/-- While the stored span has not been verified, every client repairs it. -/
inductive Repairing (server : Server) (rows : List ℕ) (a b : ℕ) : Client → Prop where
  | idle : Repairing server rows a b .idle
  | loaded {snapshot : FolderSyncState} (started : ¬Fresh snapshot)
      (low : (adopt snapshot).low.getD 1 = a) (high : (adopt snapshot).high.getD 0 = b)
      (needsRepair : (adopt snapshot).needsRepair = true)
      (cached : ∀ uid ∈ server.uids, uid ∈ snapshot.cachedUids → uid ∈ rows)
      (validity : uidValidityReset snapshot.uidValidity server.uidValidity = false) :
      Repairing server rows a b (.loaded snapshot)
  | ready {snapshot : FolderSyncState} {outcome : FolderStepOutcome}
      (low : outcome.watermark.low = some a) (high : outcome.watermark.high = some b)
      (repaired : outcome.watermark.needsRepair = false → ∀ uid ∈ server.uids, a ≤ uid → uid ≤ b →
        uid ∈ rows ∨ uid ∈ outcome.messages) : Repairing server rows a b (.ready snapshot outcome)

theorem Repairing.mono (h : Repairing server rows a b c)
    (hrows : ∀ uid ∈ server.uids, uid ∈ rows → uid ∈ rows') : Repairing server rows' a b c := by
  cases h with
  | idle => exact .idle
  | loaded started low high needsRepair cached validity =>
    exact .loaded started low high needsRepair
      (fun uid huid hcached => hrows uid huid (cached uid huid hcached)) validity
  | ready low high repaired =>
    refine .ready low high fun hverified uid huid hge hle => ?_
    exact (repaired hverified uid huid hge hle).imp_left (hrows uid huid)

theorem Repairing.run {snapshot : FolderSyncState}
    (h : Repairing server rows a b (.loaded snapshot)) (params : StepParams) :
    Repairing server rows a b (.ready snapshot (imapSyncFolderStep server snapshot params)) := by
  cases h with
  | loaded started low high needsRepair cached validity =>
    cases imapSyncFolderStep_spec server snapshot params validity with
    | initial fresh _ => exact absurd fresh started
    | span _ spec =>
      obtain ⟨hlow, hhigh, -⟩ := spec.repair needsRepair
      refine .ready (spec.lower.trans (congrArg some (hlow.trans low)))
        (spec.upper.trans (congrArg some (hhigh.trans high))) fun hverified uid huid hge hle => ?_
      rw [← low] at hge
      rw [← high] at hle
      exact (spec.repaired needsRepair hverified uid huid hge hle).imp_left (cached uid huid)

/-- Before anything is applied, every client works on the same cache. -/
inductive Unstarted (server : Server) (cache : FolderCache) : Client → Prop where
  | idle : Unstarted server cache .idle
  | loaded : Unstarted server cache (.loaded (loadFolderSyncState cache))
  | ready (params : StepParams) : Unstarted server cache (.ready (loadFolderSyncState cache)
      (imapSyncFolderStep server (loadFolderSyncState cache) params))

theorem Unstarted.outcome {snapshot : FolderSyncState} {outcome : FolderStepOutcome}
    (h : Unstarted server cache (.ready snapshot outcome)) :
    ∃ params, outcome = imapSyncFolderStep server (loadFolderSyncState cache) params := by
  cases h with
  | ready params => exact ⟨params, rfl⟩

theorem Unstarted.good (h : Unstarted server cache c)
    (hloaded : Good server rows a b (.loaded (loadFolderSyncState cache))) : Good server rows a b c := by
  cases h with
  | idle => exact .idle
  | loaded => exact hloaded
  | ready params => exact hloaded.run params

theorem Unstarted.repairing (h : Unstarted server cache c)
    (hloaded : Repairing server rows a b (.loaded (loadFolderSyncState cache))) :
    Repairing server rows a b c := by
  cases h with
  | idle => exact .idle
  | loaded => exact hloaded
  | ready params => exact hloaded.run params

/-! ## The stored watermark -/

def Covered (server : Server) (rows : List ℕ) (a b : ℕ) : Prop :=
  ∀ uid ∈ server.uids, a ≤ uid → uid ≤ b → uid ∈ rows

/-- The database and its clients: before the reset that the folder needs, before the first step, and
with a span. -/
inductive Consistent (server : Server) (s : Clients ι) : Prop where
  | outdated (h : ¬Current server s.cache) (clients : ∀ i, Unstarted server s.cache (s.client i))
  | unstarted (h : Unsynced server s.cache) (current : Current server s.cache)
      (clients : ∀ i, Unstarted server s.cache (s.client i))
  | started {a b : ℕ} (low : s.cache.low = some a) (high : s.cache.high = some b)
      (current : Current server s.cache)
      (complete : s.cache.complete = true → ∀ uid ∈ server.uids, a ≤ uid)
      (good : ∀ i, Good server s.cache.cached a b (s.client i))
      (covered : Covered server s.cache.cached a b ∨ (s.cache.needsRepair = true ∧
        ∀ i, Repairing server s.cache.cached a b (s.client i)))

theorem forall_set {s : Clients ι} {P : Client → Prop} {i : ι} {c : Client}
    (h : ∀ j, P (s.client j)) (hc : P c) (j : ι) : P ((s.set i c).client j) := by
  show P (Function.update s.client i c j)
  by_cases hj : j = i
  · rw [hj, Function.update_self]
    exact hc
  · rw [Function.update_of_ne hj]
    exact h j

/-- What is applied brings the server's validity. -/
theorem current_apply {outcome : FolderStepOutcome}
    (houtcome : outcome.uidValidity = server.uidValidity) :
    Current server (applyFolderStep cache outcome) := by
  unfold Current applyFolderStep uidValidityReset
  dsimp only
  rw [houtcome]
  cases server.uidValidity with
  | some validity => exact bne_self_eq_false validity
  | none => split <;> simp_all

/-- What is loaded from a cache with a span. -/
theorem good_loaded (hlow : cache.low = some a) (hhigh : cache.high = some b)
    (hcurrent : Current server cache)
    (hcomplete : cache.complete = true → ∀ uid ∈ server.uids, a ≤ uid) :
    Good server cache.cached a b (.loaded (loadFolderSyncState cache)) := by
  obtain ⟨hadopt, hlowEq, hhighEq⟩ := adopt_synced hlow hhigh
  refine .span ⟨fun hfresh => ?_, ?_, ?_, fun _ _ => id, ?_⟩ hcurrent
  · exact absurd (hhigh.symm.trans hfresh.1) nofun
  · rw [hadopt, hlowEq]
  · rw [hadopt, hhighEq]
  · rw [hadopt, hlowEq]
    exact hcomplete

theorem repairing_loaded (hlow : cache.low = some a) (hhigh : cache.high = some b)
    (hcurrent : Current server cache) (hneeds : cache.needsRepair = true) :
    Repairing server cache.cached a b (.loaded (loadFolderSyncState cache)) := by
  obtain ⟨hadopt, hlowEq, hhighEq⟩ := adopt_synced hlow hhigh
  refine .loaded (fun hfresh => ?_) ?_ ?_ ?_ (fun _ _ => id) hcurrent
  · exact absurd (hhigh.symm.trans hfresh.1) nofun
  · rw [hadopt, hlowEq]
  · rw [hadopt, hhighEq]
  · rw [hadopt]
    exact hneeds

/-! ## Applying a result -/

section

variable {s : Clients ι} {i : ι} {snapshot : FolderSyncState} {outcome : FolderStepOutcome}
  {newLow newHigh : ℕ}

/-- Where nothing is stale, the merge takes the lower of the two watermarks. -/
theorem ResultJoins.low_apply (h : ResultJoins server rows a b snapshot outcome newLow newHigh)
    (hlow : cache.low = some a) (hcurrent : Current server cache)
    (hnotStale : NotStale server cache snapshot outcome) :
    (applyFolderStep cache outcome).low = some (min a newLow) := by
  rw [applyFolderStep_low_some h.reset hlow h.lower]
  cases hmode : canLower outcome.mode with
  | true => rfl
  | false =>
    obtain ⟨hge, hsame⟩ := h.kept hmode
    have hle := hnotStale.low hcurrent hmode a hlow
    rw [← hsame] at hle
    rw [if_neg Bool.false_ne_true, Nat.max_eq_left hle, Nat.min_eq_left hge]

/-- Applying a result to a stored span. -/
theorem consistent_apply_started (hlow : s.cache.low = some a) (hhigh : s.cache.high = some b)
    (hcurrent : Current server s.cache)
    (hcomplete : s.cache.complete = true → ∀ uid ∈ server.uids, a ≤ uid)
    (hgood : ∀ j, Good server s.cache.cached a b (s.client j))
    (hcovered : Covered server s.cache.cached a b ∨ (s.cache.needsRepair = true ∧
      ∀ j, Repairing server s.cache.cached a b (s.client j)))
    (hready : s.client i = .ready snapshot outcome)
    (hnotStale : NotStale server s.cache snapshot outcome) :
    Consistent server ⟨applyFolderStep s.cache outcome, (s.set i .idle).client⟩ := by
  have hi := hgood i
  rw [hready] at hi
  cases hi with
  | readyBefore h => exact absurd (h.symm.trans (hnotStale.reset hcurrent)) nofun
  | @ready _ _ newLow newHigh h =>
    have hrows (uid : ℕ) (huid : uid ∈ server.uids) (hold : uid ∈ s.cache.cached ∨
        uid ∈ outcome.messages) := mem_cached_of_server h.reset h.vanished huid hold
    have hnewHigh : (applyFolderStep s.cache outcome).high = _ :=
      applyFolderStep_high h.reset h.upper
    rw [hhigh, Option.getD_some] at hnewHigh
    have hothers (j : ι) := (hgood j).mono (Nat.min_le_left a newLow) (Nat.le_max_left b newHigh)
      fun uid huid hold => hrows uid huid (.inl hold)
    refine .started (h.low_apply hlow hcurrent hnotStale) hnewHigh (current_apply h.uidValidity) ?_
      (forall_set hothers .idle) ?_
    · rw [applyFolderStep_complete h.reset, Bool.or_eq_true]
      rintro (hstored | hnew) uid huid
      · exact (Nat.min_le_left _ _).trans (hcomplete hstored uid huid)
      · exact (Nat.min_le_right _ _).trans (h.complete hnew uid huid)
    · rcases hcovered with hcovered | ⟨-, hrepairing⟩
      · refine .inl fun uid huid hge hle => hrows uid huid ?_
        by_cases hbelow : uid < a
        · exact h.older uid huid (by omega) hbelow
        by_cases habove : b < uid
        · exact h.newer uid huid habove (by omega)
        · exact .inl (hcovered uid huid (Nat.le_of_not_lt hbelow) (Nat.le_of_not_lt habove))
      · have hrepair := hrepairing i
        rw [hready] at hrepair
        cases hrepair with
        | ready low high repaired =>
          cases low.symm.trans h.lower
          cases high.symm.trans h.upper
          rw [Nat.min_self, Nat.max_self]
          cases hneeds : outcome.watermark.needsRepair with
          | false =>
            refine .inl fun uid huid hge hle => ?_
            exact hrows uid huid (repaired hneeds uid huid hge hle)
          | true =>
            have hall (j : ι) := (hrepairing j).mono fun uid huid hold => hrows uid huid (.inl hold)
            exact .inr ⟨hneeds, forall_set hall .idle⟩

omit [DecidableEq ι] in
/-- A first page applied to a cache without rows. -/
theorem consistent_apply_initial {clients : ι → Client} (h : Unsynced server cache)
    (spec : InitialSpec server outcome a b)
    (hclients : ∀ j, Good server (applyFolderStep cache outcome).cached a b (clients j)) :
    Consistent server ⟨applyFolderStep cache outcome, clients⟩ := by
  have hhigh : (applyFolderStep cache outcome).high = _ :=
    applyFolderStep_high spec.reset spec.upper
  rw [h.high, Option.getD_none, Nat.zero_max] at hhigh
  refine .started ((applyFolderStep_low_none spec.reset h.low).trans spec.lower) hhigh
    (current_apply spec.uidValidity) ?_ hclients (.inl ?_)
  · rw [applyFolderStep_complete spec.reset, h.complete, Bool.false_or]
    exact spec.complete
  · intro uid huid hge _
    refine mem_cached_of_server spec.reset ?_ huid (.inr (spec.all uid huid hge))
    rw [spec.vanished]
    exact fun _ hgone => absurd hgone List.not_mem_nil

/-- The first result that is applied. -/
theorem consistent_apply_unstarted (h : Unsynced server s.cache) (hcurrent : Current server s.cache)
    (hclients : ∀ j, Unstarted server s.cache (s.client j))
    (hready : s.client i = .ready snapshot outcome) :
    Consistent server ⟨applyFolderStep s.cache outcome, (s.set i .idle).client⟩ := by
  have hi := hclients i
  rw [hready] at hi
  obtain ⟨params, rfl⟩ := hi.outcome
  have hspec := imapSyncFolderStep_spec server (loadFolderSyncState s.cache) params hcurrent
  generalize imapSyncFolderStep server (loadFolderSyncState s.cache) params = outcome at hspec ⊢
  cases hspec with
  | @initial low high fresh spec =>
    refine consistent_apply_initial h spec (forall_set (fun j => ?_) .idle)
    exact (hclients j).good (.fresh fresh spec.newest hcurrent)
  | @span newLow newHigh started spec =>
    have hrows (uid : ℕ) (huid : uid ∈ server.uids) (hold : uid ∈ s.cache.cached ∨
        uid ∈ outcome.messages) := mem_cached_of_server spec.reset spec.vanished huid hold
    have hcached : s.cache.cached ≠ [] := fun hnil => started ⟨h.high, hnil⟩
    obtain ⟨low, -, high, -, hlow, hhigh, hincomplete, hneeds⟩ := adopt_unsynced h hcached
    have hloaded : Good server (applyFolderStep s.cache outcome).cached low high
        (.loaded (loadFolderSyncState s.cache)) := by
      refine .span ⟨started, hlow.ge, hhigh.le, fun uid huid hold => hrows uid huid (.inl hold),
        fun hdone => ?_⟩ hcurrent
      exact absurd (hincomplete.symm.trans hdone) Bool.false_ne_true
    rw [hlow, hhigh, hincomplete, hneeds] at spec
    obtain ⟨rfl, rfl, -⟩ := spec.repair rfl
    have hstored : (applyFolderStep s.cache outcome).high = _ :=
      applyFolderStep_high spec.reset spec.upper
    rw [h.high, Option.getD_none, Nat.zero_max] at hstored
    refine .started ((applyFolderStep_low_none spec.reset h.low).trans spec.lower) hstored
      (current_apply spec.uidValidity) ?_
      (forall_set (fun j => (hclients j).good hloaded) .idle) ?_
    · rw [applyFolderStep_complete spec.reset, h.complete, Bool.false_or]
      exact fun hdone => (spec.complete hdone).resolve_left Bool.false_ne_true
    · cases hverified : outcome.watermark.needsRepair with
      | false =>
        refine .inl fun uid huid hge hle => ?_
        exact hrows uid huid (spec.repaired rfl hverified uid huid hge hle)
      | true =>
        refine .inr ⟨hverified, forall_set (fun j => ?_) .idle⟩
        exact (hclients j).repairing (.loaded started hlow hhigh hneeds
          (fun uid huid hold => hrows uid huid (.inl hold)) hcurrent)

/-- A reset empties the cache and starts with a first page. -/
theorem imapSyncFolderStep_reset (server : Server) (params : StepParams)
    (h : uidValidityReset snapshot.uidValidity server.uidValidity = true) :
    ∃ page low high, InitialSpec server page low high ∧ ∀ cache,
      applyFolderStep cache (imapSyncFolderStep server snapshot params) =
        applyFolderStep (resetFolderCache cache) page := by
  have hlimit : 0 < min (max params.limit 1) 2000 := by omega
  obtain ⟨low, high, hspec⟩ := initialStep_spec server hlimit
  refine ⟨_, low, high, hspec, fun cache => ?_⟩
  unfold imapSyncFolderStep
  dsimp only
  rw [h, if_pos rfl, if_pos ⟨rfl, rfl⟩]
  rfl

theorem consistent_apply_outdated (h : ¬Current server s.cache)
    (hclients : ∀ j, Unstarted server s.cache (s.client j))
    (hready : s.client i = .ready snapshot outcome) :
    Consistent server ⟨applyFolderStep s.cache outcome, (s.set i .idle).client⟩ := by
  have hi := hclients i
  rw [hready] at hi
  obtain ⟨params, rfl⟩ := hi.outcome
  have hreset : uidValidityReset (loadFolderSyncState s.cache).uidValidity server.uidValidity =
      true := Bool.not_eq_false _ ▸ h
  obtain ⟨page, low, high, hspec, happly⟩ := imapSyncFolderStep_reset server params hreset
  rw [happly]
  refine consistent_apply_initial ⟨rfl, rfl, rfl, rfl, fun _ h => absurd h List.not_mem_nil⟩ hspec
    (forall_set (fun j => ?_) .idle)
  exact (hclients j).good (.before hreset)

end

/-! ## Runs -/

theorem Consistent.step {s s' : Clients ι} (h : Consistent server s)
    (hstep : Clients.Step server (NotStale server) s s') : Consistent server s' := by
  cases hstep with
  | load i hidle =>
    cases h with
    | outdated h clients => exact .outdated h (forall_set clients .loaded)
    | unstarted h current clients => exact .unstarted h current (forall_set clients .loaded)
    | started low high current complete good covered =>
      refine .started low high current complete
        (forall_set good (good_loaded low high current complete)) ?_
      refine covered.imp_right fun ⟨hneeds, hrepairing⟩ => ⟨hneeds, ?_⟩
      exact forall_set hrepairing (repairing_loaded low high current hneeds)
  | @run i snapshot params hloaded =>
    have hunstarted (hclients : ∀ j, Unstarted server s.cache (s.client j)) :
        ∀ j, Unstarted server s.cache ((s.set i
          (.ready snapshot (imapSyncFolderStep server snapshot params))).client j) := by
      refine forall_set hclients ?_
      have hi := hclients i
      rw [hloaded] at hi
      cases hi with
      | loaded => exact .ready params
    cases h with
    | outdated h clients => exact .outdated h (hunstarted clients)
    | unstarted h current clients => exact .unstarted h current (hunstarted clients)
    | started low high current complete good covered =>
      refine .started low high current complete (forall_set good ?_) ?_
      · exact (hloaded ▸ good i).run params
      · refine covered.imp_right fun ⟨hneeds, hrepairing⟩ => ⟨hneeds, forall_set hrepairing ?_⟩
        exact (hloaded ▸ hrepairing i).run params
  | apply i hready hnotStale =>
    cases h with
    | outdated h clients => exact consistent_apply_outdated h clients hready
    | unstarted h current clients => exact consistent_apply_unstarted h current clients hready
    | started low high current complete good covered =>
      exact consistent_apply_started low high current complete good covered hready hnotStale

/-- At the start no client has loaded anything, and the stored watermark is justified if the rows are of
the folder that the server has. -/
structure Clients.Start (server : Server) (s : Clients ι) : Prop where
  idle : ∀ i, s.client i = .idle
  sound : Current server s.cache → Sound server s.cache

omit [DecidableEq ι] in
theorem Clients.Start.consistent {s : Clients ι} (h : Clients.Start server s) : Consistent server s := by
  by_cases hcurrent : Current server s.cache
  · cases h.sound hcurrent with
    | unsynced hunsynced =>
      refine .unstarted hunsynced hcurrent fun i => ?_
      rw [h.idle i]
      exact .idle
    | @synced low high hlow hhigh hjustified =>
      refine .started hlow hhigh hcurrent hjustified.complete (fun i => ?_) ?_
      · rw [h.idle i]
        exact .idle
      · cases hneeds : s.cache.needsRepair with
        | false => exact .inl (hjustified.covered hneeds)
        | true =>
          refine .inr ⟨rfl, fun i => ?_⟩
          rw [h.idle i]
          exact .idle
  · refine .outdated hcurrent fun i => ?_
    rw [h.idle i]
    exact .idle

theorem Consistent.run {s s' : Clients ι} (h : Consistent server s)
    (hrun : Relation.ReflTransGen (Clients.Step server (NotStale server)) s s') :
    Consistent server s' := by
  induction hrun with
  | refl => exact h
  | tail _ hstep ih => exact ih.step hstep

/-- What the stored watermark says of the stored rows. -/
structure WatermarkJustified (server : Server) (cache : FolderCache) : Prop where
  complete : cache.complete = true → ∀ low, cache.low = some low → ∀ uid ∈ server.uids, low ≤ uid
  covered : cache.needsRepair = false → ∀ low high, cache.low = some low → cache.high = some high →
    ∀ uid ∈ server.uids, low ≤ uid → uid ≤ high → uid ∈ cache.cached

omit [DecidableEq ι] in
theorem Consistent.justified {s : Clients ι} (h : Consistent server s)
    (hcurrent : Current server s.cache) : WatermarkJustified server s.cache := by
  cases h with
  | outdated h _ => exact absurd hcurrent h
  | unstarted h _ _ =>
    refine ⟨fun _ low hlow => ?_, fun _ low _ hlow => ?_⟩
    · exact absurd (h.low.symm.trans hlow) nofun
    · exact absurd (h.low.symm.trans hlow) nofun
  | started low high _ complete _ covered =>
    refine ⟨fun hdone low' hlow' => ?_, fun hverified low' high' hlow' hhigh' => ?_⟩
    · cases low.symm.trans hlow'
      exact complete hdone
    · cases low.symm.trans hlow'
      cases high.symm.trans hhigh'
      exact covered.resolve_right fun hneeds =>
        absurd (hverified.symm.trans hneeds.1) Bool.false_ne_true

/-- A stored low end is only lowered. -/
theorem Consistent.low_step {s s' : Clients ι} (h : Consistent server s)
    (hcurrent : Current server s.cache) (hlow : s.cache.low = some a)
    (hstep : Clients.Step server (NotStale server) s s') :
    Current server s'.cache ∧ ∃ a' ≤ a, s'.cache.low = some a' := by
  cases hstep with
  | load i _ => exact ⟨hcurrent, a, Nat.le_refl a, hlow⟩
  | run i _ _ => exact ⟨hcurrent, a, Nat.le_refl a, hlow⟩
  | apply i hready hnotStale =>
    cases h with
    | outdated h _ => exact absurd hcurrent h
    | unstarted h _ _ => exact absurd (h.low.symm.trans hlow) nofun
    | started low _ _ _ good _ =>
      cases low.symm.trans hlow
      have hi := good i
      rw [hready] at hi
      cases hi with
      | readyBefore h => exact absurd (h.symm.trans (hnotStale.reset hcurrent)) nofun
      | ready h =>
        exact ⟨current_apply h.uidValidity, _, Nat.min_le_left _ _,
          h.low_apply low hcurrent hnotStale⟩

theorem Consistent.low_run {s s' : Clients ι} (h : Consistent server s)
    (hcurrent : Current server s.cache) (hlow : s.cache.low = some a)
    (hrun : Relation.ReflTransGen (Clients.Step server (NotStale server)) s s') :
    Current server s'.cache ∧ ∃ a' ≤ a, s'.cache.low = some a' := by
  induction hrun with
  | refl => exact ⟨hcurrent, a, Nat.le_refl a, hlow⟩
  | tail hrun hstep ih =>
    obtain ⟨hcurrent', a', hle, hlow'⟩ := ih
    obtain ⟨hcurrent'', a'', hle', hlow''⟩ := (h.run hrun).low_step hcurrent' hlow' hstep
    exact ⟨hcurrent'', a'', hle'.trans hle, hlow''⟩

/-- A folder with two messages. -/
def twoMessages : Server where
  uids := [1, 2]
  assigned := 2
  uidNext := some 3
  uidValidity := some 7
  sorted := by decide
  positive := by decide
  bounded := by decide
  assigned_le := by decide
  next := by
    rintro n ⟨⟩
    rfl

/-- Two clients and a cache with the newer message. -/
def newerCached : Clients Bool where
  cache := { uidValidity := some 7, low := some 2, high := some 2, cached := [2] }
  client _ := .idle

theorem newerCached_start : Clients.Start twoMessages newerCached where
  idle _ := rfl
  sound _ := .synced rfl rfl ⟨by decide, by decide, by decide, by decide⟩

end Taomni.Mail
