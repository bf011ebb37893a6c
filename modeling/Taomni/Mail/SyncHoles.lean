import Taomni.Mail.FolderStepSpec

/-!
# One client's synchronisation

The stored watermark stays justified by the rows while the server appends and expunges: the span from
`low` to `high` has no holes once it needs no repair, ends below what the server has assigned, and
starts at the oldest message once it is complete (`sync_no_holes`).

Reference: `src-tauri/src/mail/sync/folder_step.rs` and `cache.rs`.
-/

namespace Taomni.Mail

open List

variable {server : Server} {cache : FolderCache} {outcome : FolderStepOutcome}

/-! ## Rows -/

variable {uid : ℕ}

theorem mem_upsertMessage {cached : List ℕ} {uid' : ℕ} :
    uid' ∈ upsertMessage cached uid ↔ uid' = uid ∨ uid' ∈ cached := by
  unfold upsertMessage
  split
  · rename_i hmem
    exact ⟨.inr, fun h => h.elim (fun heq => heq ▸ hmem) id⟩
  · rw [mem_orderedInsert]

theorem mem_foldl_upsertMessage {messages cached : List ℕ} :
    uid ∈ messages.foldl upsertMessage cached ↔ uid ∈ cached ∨ uid ∈ messages := by
  induction messages generalizing cached with
  | nil => simp
  | cons message messages ih =>
    rw [foldl_cons, ih, mem_upsertMessage, mem_cons, or_assoc, or_left_comm]

theorem mem_cached_applyFolderStep (hreset : outcome.uidValidityReset = false) :
    uid ∈ (applyFolderStep cache outcome).cached ↔
      (uid ∈ cache.cached ∨ uid ∈ outcome.messages) ∧ uid ∉ outcome.vanished := by
  unfold applyFolderStep
  rw [hreset]
  show uid ∈ List.filter _ _ ↔ _
  rw [mem_filter, decide_eq_true_iff]
  exact and_congr_left fun _ => mem_foldl_upsertMessage

/-- A row of a message that the server has is only ever added. -/
theorem mem_cached_of_server (hreset : outcome.uidValidityReset = false)
    (hvanished : ∀ uid ∈ outcome.vanished, uid ∉ server.uids) (huid : uid ∈ server.uids)
    (h : uid ∈ cache.cached ∨ uid ∈ outcome.messages) : uid ∈ (applyFolderStep cache outcome).cached :=
  (mem_cached_applyFolderStep hreset).mpr ⟨h, fun hgone => hvanished uid hgone huid⟩

section

variable (hreset : outcome.uidValidityReset = false)

include hreset

theorem applyFolderStep_low_none (hlow : cache.low = none) :
    (applyFolderStep cache outcome).low = outcome.watermark.low := by
  unfold applyFolderStep
  simp only [hreset, Bool.false_eq_true, if_false, hlow]

theorem applyFolderStep_low_some {low newLow : ℕ} (hlow : cache.low = some low)
    (hnew : outcome.watermark.low = some newLow) : (applyFolderStep cache outcome).low =
      some (if canLower outcome.mode then min low newLow else max low newLow) := by
  unfold applyFolderStep
  simp only [hreset, Bool.false_eq_true, if_false, hlow, hnew, Option.getD_some]

theorem applyFolderStep_high {newHigh : ℕ} (hnew : outcome.watermark.high = some newHigh) :
    (applyFolderStep cache outcome).high = some (max (cache.high.getD 0) newHigh) := by
  unfold applyFolderStep
  simp only [hreset, Bool.false_eq_true, if_false, hnew]

theorem applyFolderStep_complete : (applyFolderStep cache outcome).complete =
      (cache.complete || outcome.watermark.complete) := by
  unfold applyFolderStep
  rw [hreset]
  rfl

end

/-! ## The watermark -/

/-- What a watermark says of the rows. -/
structure Justified (server : Server) (cached : List ℕ) (low high : ℕ) (complete needsRepair : Bool) :
    Prop where
  high_le : high ≤ server.assigned
  low_le : low ≤ server.assigned + 1
  complete : complete = true → ∀ uid ∈ server.uids, low ≤ uid
  covered : needsRepair = false → ∀ uid ∈ server.uids, low ≤ uid → uid ≤ high → uid ∈ cached

/-- Without watermark, there may be rows from before there were watermarks. -/
structure Unsynced (server : Server) (cache : FolderCache) : Prop where
  low : cache.low = none
  high : cache.high = none
  complete : cache.complete = false
  needsRepair : cache.needsRepair = false
  cached : ∀ uid ∈ cache.cached, uid ≤ server.assigned

inductive Sound (server : Server) (cache : FolderCache) : Prop where
  | unsynced (h : Unsynced server cache)
  | synced {low high : ℕ} (hlow : cache.low = some low) (hhigh : cache.high = some high)
      (h : Justified server cache.cached low high cache.complete cache.needsRepair)

/-- The cache is of this incarnation of the folder. -/
def SameValidity (server : Server) (cache : FolderCache) : Prop :=
  cache.uidValidity = none ∨ cache.uidValidity = server.uidValidity

theorem SameValidity.noReset (h : SameValidity server cache) :
    uidValidityReset cache.uidValidity server.uidValidity = false := by
  unfold uidValidityReset
  rcases h with h | h <;> rw [h]
  cases server.uidValidity with
  | none => rfl
  | some validity => exact bne_self_eq_false validity

theorem adopt_synced {low high : ℕ} (hlow : cache.low = some low) (hhigh : cache.high = some high) :
    adopt (loadFolderSyncState cache) = loadFolderSyncState cache ∧
      (loadFolderSyncState cache).low.getD 1 = low ∧ (loadFolderSyncState cache).high.getD 0 = high := by
  unfold adopt loadFolderSyncState
  rw [if_neg (by rw [hhigh]; exact nofun), hlow, hhigh]
  exact ⟨rfl, rfl, rfl⟩

/-- An adopted span ends at rows. -/
theorem adopt_unsynced (h : Unsynced server cache) (hcached : cache.cached ≠ []) :
    ∃ low ∈ cache.cached, ∃ high ∈ cache.cached, (adopt (loadFolderSyncState cache)).low.getD 1 = low ∧
      (adopt (loadFolderSyncState cache)).high.getD 0 = high ∧
      (adopt (loadFolderSyncState cache)).complete = false ∧
      (adopt (loadFolderSyncState cache)).needsRepair = true := by
  unfold adopt loadFolderSyncState
  rw [if_pos h.high]
  refine ⟨cache.cached.head hcached, head_mem hcached, cache.cached.getLast hcached,
    getLast_mem hcached, ?_, ?_, rfl, rfl⟩
  · dsimp only
    rw [head?_eq_some_head hcached]
    rfl
  · dsimp only
    rw [getLast?_eq_some_getLast hcached]
    rfl

/-- A step on a span that the watermark justifies leaves one that it justifies. -/
theorem SpanSpec.justified {cached cached' : List ℕ} {low high newLow newHigh : ℕ}
    {complete complete' needsRepair : Bool}
    (hspec : SpanSpec server cached low high complete needsRepair outcome newLow newHigh)
    (h : Justified server cached low high complete needsRepair)
    (hcomplete : complete' = true → complete = true ∨ outcome.watermark.complete = true)
    (hrows : ∀ uid ∈ server.uids, uid ∈ cached ∨ uid ∈ outcome.messages → uid ∈ cached') :
    Justified server cached' newLow newHigh complete' outcome.watermark.needsRepair where
  high_le := hspec.high_le.trans (Nat.max_le.mpr ⟨h.high_le, Nat.le_refl _⟩)
  low_le := hspec.low_le.trans h.low_le
  complete hdone uid huid := by
    rcases hcomplete hdone with hstored | hstep
    · exact hspec.low_le.trans (h.complete hstored uid huid)
    · rcases hspec.complete hstep with hstored | hall
      · exact hspec.low_le.trans (h.complete hstored uid huid)
      · exact hall uid huid
  covered hverified uid huid hge hle := by
    apply hrows uid huid
    cases needsRepair with
    | true =>
      obtain ⟨rfl, rfl, -⟩ := hspec.repair rfl
      exact hspec.repaired rfl hverified uid huid hge hle
    | false =>
      by_cases hbelow : uid < low
      · exact hspec.older uid huid hge hbelow
      by_cases habove : high < uid
      · exact hspec.newer uid huid habove hle
      · exact .inl (h.covered rfl uid huid (Nat.le_of_not_lt hbelow) (Nat.le_of_not_lt habove))

theorem Sound.step (h : Sound server cache) (hvalidity : SameValidity server cache)
    (params : StepParams) : Sound server
      (applyFolderStep cache (imapSyncFolderStep server (loadFolderSyncState cache) params)) := by
  have hspec := imapSyncFolderStep_spec server (loadFolderSyncState cache) params hvalidity.noReset
  generalize imapSyncFolderStep server (loadFolderSyncState cache) params = outcome at hspec
  cases hspec with
  | @initial low high fresh spec =>
    cases h with
    | synced hlow hhigh _ => exact absurd (fresh.1.symm.trans hhigh) nofun
    | unsynced h =>
      have hcomplete : (applyFolderStep cache outcome).complete = _ :=
        applyFolderStep_complete spec.reset
      rw [h.complete, Bool.false_or] at hcomplete
      refine .synced ((applyFolderStep_low_none spec.reset h.low).trans spec.lower)
        (applyFolderStep_high spec.reset spec.upper) ⟨?_, spec.low_le, ?_, ?_⟩
      · rw [h.high]
        exact Nat.max_le.mpr ⟨Nat.zero_le _, spec.high_le⟩
      · rw [hcomplete]
        exact spec.complete
      · intro _ uid huid hge _
        refine mem_cached_of_server spec.reset ?_ huid (.inr (spec.all uid huid hge))
        rw [spec.vanished]
        exact fun _ hgone => absurd hgone not_mem_nil
  | @span newLow newHigh started spec =>
    have hcomplete : (applyFolderStep cache outcome).complete = _ :=
      applyFolderStep_complete spec.reset
    have hrows (uid : ℕ) (huid : uid ∈ server.uids) (hold : uid ∈ cache.cached ∨
        uid ∈ outcome.messages) := mem_cached_of_server spec.reset spec.vanished huid hold
    cases h with
    | unsynced h =>
      have hcached : cache.cached ≠ [] := fun hnil => started ⟨h.high, hnil⟩
      obtain ⟨low, hlow, high, hhigh, hlowEq, hhighEq, hincomplete, hneeds⟩ :=
        adopt_unsynced h hcached
      rw [hlowEq, hhighEq, hincomplete, hneeds] at spec
      refine .synced ((applyFolderStep_low_none spec.reset h.low).trans spec.lower)
        (applyFolderStep_high spec.reset spec.upper) ?_
      rw [h.high, Option.getD_none, Nat.zero_max]
      refine spec.justified ⟨h.cached high hhigh, (h.cached low hlow).trans (Nat.le_succ _), nofun,
        nofun⟩ (fun hdone => ?_) hrows
      rw [hcomplete, h.complete, Bool.false_or] at hdone
      exact .inr hdone
    | @synced low high hlow hhigh h =>
      obtain ⟨hadopt, hlowEq, hhighEq⟩ := adopt_synced hlow hhigh
      rw [hadopt, hlowEq, hhighEq] at spec
      have hnewLow : (if canLower outcome.mode then min low newLow else max low newLow) =
          newLow := by
        have hle := spec.low_le
        cases hmode : canLower outcome.mode with
        | true => exact Nat.min_eq_right hle
        | false => rw [spec.same_low hmode, if_neg Bool.false_ne_true, Nat.max_self]
      refine .synced ((applyFolderStep_low_some spec.reset hlow spec.lower).trans
        (congrArg some hnewLow)) (applyFolderStep_high spec.reset spec.upper) ?_
      rw [hhigh, Option.getD_some, Nat.max_eq_right spec.le_high]
      refine spec.justified h (fun hdone => ?_) hrows
      rwa [hcomplete, Bool.or_eq_true] at hdone

/-! ## Runs -/

/-- The server expunges messages and appends ones with larger UIDs. -/
structure Server.Evolves (server after : Server) : Prop where
  uidValidity : after.uidValidity = server.uidValidity
  assigned : server.assigned ≤ after.assigned
  appended : ∀ uid ∈ after.uids, uid ∈ server.uids ∨ server.assigned < uid

theorem Sound.evolves {after : Server} (h : Sound server cache) (hevolves : server.Evolves after) :
    Sound after cache := by
  have hassigned := hevolves.assigned
  cases h with
  | unsynced h =>
    exact .unsynced { h with cached := fun uid huid => (h.cached uid huid).trans hassigned }
  | @synced low high hlow hhigh h =>
    have hhighLe := h.high_le
    have hlowLe := h.low_le
    refine .synced hlow hhigh ⟨hhighLe.trans hassigned, by omega, fun hdone uid huid => ?_,
      fun hverified uid huid hge hle => ?_⟩
    · rcases hevolves.appended uid huid with hold | hnew
      · exact h.complete hdone uid hold
      · omega
    · refine h.covered hverified uid ((hevolves.appended uid huid).resolve_right ?_) hge hle
      omega

theorem SameValidity.apply (h : SameValidity server cache)
    (houtcome : outcome.uidValidity = server.uidValidity) :
    SameValidity server (applyFolderStep cache outcome) := by
  unfold SameValidity applyFolderStep
  dsimp only
  rw [houtcome]
  cases hserver : server.uidValidity with
  | some validity => exact .inr rfl
  | none =>
    left
    rw [Option.none_or]
    have hcache : cache.uidValidity = none := h.elim id (·.trans hserver)
    split <;> exact hcache

theorem SameValidity.step (h : SameValidity server cache) (params : StepParams) : SameValidity server
      (applyFolderStep cache (imapSyncFolderStep server (loadFolderSyncState cache) params)) := by
  apply h.apply
  cases imapSyncFolderStep_spec server (loadFolderSyncState cache) params h.noReset with
  | initial _ spec => exact spec.uidValidity
  | span _ spec => exact spec.uidValidity

/-- The states of one client and a server that changes between its steps. -/
inductive Reachable : Server → FolderCache → Prop where
  | start {server : Server} {cache : FolderCache} (hnew : Unsynced server cache)
      (hvalidity : SameValidity server cache) : Reachable server cache
  | evolves {server after : Server} {cache : FolderCache} (h : Reachable server cache)
      (hevolves : server.Evolves after) : Reachable after cache
  | step {server : Server} {cache : FolderCache} (h : Reachable server cache)
      (params : StepParams) : Reachable server
        (applyFolderStep cache (imapSyncFolderStep server (loadFolderSyncState cache) params))

theorem Reachable.sound (h : Reachable server cache) :
    Sound server cache ∧ SameValidity server cache := by
  induction h with
  | start hnew hvalidity => exact ⟨.unsynced hnew, hvalidity⟩
  | evolves h hevolves ih =>
    refine ⟨ih.1.evolves hevolves, ?_⟩
    unfold SameValidity
    rw [hevolves.uidValidity]
    exact ih.2
  | step h params ih => exact ⟨ih.1.step ih.2 params, ih.2.step params⟩

/-! ## Progress -/

theorem missing_length_lt {lo : ℕ} {hi : Option ℕ} (hreset : outcome.uidValidityReset = false)
    (hvanished : ∀ uid ∈ outcome.vanished, uid ∉ server.uids)
    (huid : uid ∈ missing server cache.cached lo hi) (hfetched : uid ∈ outcome.messages) :
    (missing server (applyFolderStep cache outcome).cached lo hi).length <
      (missing server cache.cached lo hi).length := by
  have hrows {uid : ℕ} (h : uid ∈ server.uids) (hold : uid ∈ cache.cached ∨
      uid ∈ outcome.messages) := mem_cached_of_server hreset hvanished h hold
  have hless : missing server (applyFolderStep cache outcome).cached lo hi =
      (missing server cache.cached lo hi).filter
        (· ∉ (applyFolderStep cache outcome).cached) := by
    unfold missing
    rw [filter_filter]
    refine filter_congr fun uid huid => ?_
    rw [Bool.eq_iff_iff]
    simp only [Bool.and_eq_true, decide_eq_true_iff]
    exact ⟨fun h => ⟨h.2, h.1, fun hold => h.2 (hrows huid (.inl hold))⟩, fun h => ⟨h.2.1, h.1⟩⟩
  rw [hless, length_filter_lt_length_iff_exists]
  refine ⟨uid, huid, ?_⟩
  rw [decide_eq_true_iff, not_not]
  exact hrows (mem_missing.mp huid).1 (.inr hfetched)

/-- The span that a step of the client works on. -/
def stepRange (cache : FolderCache) (mode : MailSyncMode) : ℕ × Option ℕ :=
  fillRange cache.cached ((adopt (loadFolderSyncState cache)).low.getD 1)
    ((adopt (loadFolderSyncState cache)).high.getD 0) mode

/-- What a client has of the folder. -/
structure NoHoles (server : Server) (cache : FolderCache) : Prop where
  covered : cache.needsRepair = false → ∀ low high, cache.low = some low → cache.high = some high →
    ∀ uid ∈ server.uids, low ≤ uid → uid ≤ high → uid ∈ cache.cached
  high : ∀ high, cache.high = some high → high ≤ server.assigned
  complete : cache.complete = true → ∀ low, cache.low = some low → ∀ uid ∈ server.uids, low ≤ uid

theorem Sound.noHoles (h : Sound server cache) : NoHoles server cache := by
  cases h with
  | unsynced h =>
    refine ⟨fun _ low _ hlow => ?_, fun high hhigh => ?_, fun hdone => ?_⟩
    · exact absurd (h.low.symm.trans hlow) nofun
    · exact absurd (h.high.symm.trans hhigh) nofun
    · exact absurd (h.complete.symm.trans hdone) nofun
  | synced hlow hhigh h =>
    refine ⟨fun hverified low high hlow' hhigh' => ?_, fun high hhigh' => ?_,
      fun hdone low hlow' => ?_⟩
    · cases hlow.symm.trans hlow'
      cases hhigh.symm.trans hhigh'
      exact h.covered hverified
    · cases hhigh.symm.trans hhigh'
      exact h.high_le
    · cases hlow.symm.trans hlow'
      exact h.complete hdone

/-- Every run keeps the folder without holes, and a step that leaves messages for later makes fewer of
them missing: a catch-up or a reconciliation that reports more, or a repair with some remaining. -/
theorem sync_no_holes (server : Server) (cache : FolderCache) (h : Reachable server cache) :
    NoHoles server cache ∧ ∀ params,
      let outcome := imapSyncFolderStep server (loadFolderSyncState cache) params
      let range := stepRange cache outcome.mode
      (0 < outcome.remaining ∨
        (outcome.more = true ∧ outcome.mode ≠ .repair ∧ outcome.mode ≠ .backfill)) →
      (missing server (applyFolderStep cache outcome).cached range.1 range.2).length <
        (missing server cache.cached range.1 range.2).length := by
  obtain ⟨hsound, hvalidity⟩ := h.sound
  refine ⟨hsound.noHoles, fun params => ?_⟩
  have hspec := imapSyncFolderStep_spec server (loadFolderSyncState cache) params hvalidity.noReset
  intro outcome range hmore
  cases hspec with
  | initial _ spec =>
    rcases hmore with hremaining | ⟨hmore, -, -⟩
    · exact absurd hremaining (spec.remaining ▸ Nat.lt_irrefl 0)
    · exact absurd (spec.more.symm.trans hmore) Bool.false_ne_true
  | span _ spec =>
    have hremaining : 0 < outcome.remaining := by
      rcases hmore with hremaining | ⟨hmore, hrepair, hbackfill⟩
      · exact hremaining
      · exact ((spec.more hmore).resolve_left hrepair).resolve_left hbackfill
    obtain ⟨uid, hfetched, hmissing⟩ := spec.fills hremaining
    exact missing_length_lt spec.reset spec.vanished hmissing hfetched

/-- A folder with one message. -/
def oneMessage : Server where
  uids := [1]
  assigned := 1
  uidNext := some 2
  uidValidity := some 7
  sorted := pairwise_singleton _ 1
  positive := by decide
  bounded := by decide
  assigned_le := by decide
  next := by
    rintro n ⟨⟩
    rfl

theorem sync_no_holes_oneMessage : NoHoles oneMessage
      (applyFolderStep {} (imapSyncFolderStep oneMessage (loadFolderSyncState {}) ⟨.auto, 1⟩)) :=
  (sync_no_holes oneMessage _ (.step (.start ⟨rfl, rfl, rfl, rfl, by decide⟩ (.inl rfl)) _)).1

/-- The repair of a cache that has all messages reports more work and has nothing to fetch. -/
theorem repair_reports_more_without_progress : let cache : FolderCache := { cached := [1] }
    let outcome := imapSyncFolderStep oneMessage (loadFolderSyncState cache) ⟨.auto, 1⟩
    let range := stepRange cache outcome.mode
    Reachable oneMessage cache ∧ outcome.mode = .repair ∧ outcome.more = true ∧
      ¬(missing oneMessage (applyFolderStep cache outcome).cached range.1 range.2).length <
        (missing oneMessage cache.cached range.1 range.2).length :=
  ⟨.start ⟨rfl, rfl, rfl, rfl, by decide⟩ (.inl rfl), by decide, by decide, by decide⟩

end Taomni.Mail
