import Mathlib.Data.List.Sort

/-!
# Synchronisation of a mail folder

One step of the synchronisation of a folder with its server, and its application to the cache. Messages
are their UIDs; flags, bodies and modification sequences are left out, on which neither the cached
rows nor the watermark depend. A fetch returns every message that is asked for.

Reference: `src-tauri/src/mail/sync/planning.rs`, `imap_protocol.rs`, `folder_step.rs` and `cache.rs`,
and `imap_page_uids_newest_first` of `src-tauri/src/mail/imap_messages.rs`.
-/

namespace Taomni.Mail

def u32Max : ℕ := 4294967295

def saturatingAdd (a b : ℕ) : ℕ := min (a + b) u32Max

/-! ## The server -/

/-- A folder on the server. Not every server reports `uidNext`. -/
structure Server where
  uids : List ℕ
  assigned : ℕ
  uidNext : Option ℕ
  uidValidity : Option ℕ
  sorted : uids.Pairwise (· < ·)
  positive : ∀ uid ∈ uids, 0 < uid
  bounded : ∀ uid ∈ uids, uid ≤ assigned
  assigned_le : assigned ≤ u32Max
  next : ∀ n, uidNext = some n → n = assigned + 1

/-- `UID SEARCH UID lo:*`, which finds the newest message even where it is below `lo`. -/
def Server.uidSearchFrom (server : Server) (lo : ℕ) : List ℕ :=
  server.uids.filter fun uid => lo ≤ uid || server.uids.getLast? == some uid

/-- `UID SEARCH UID lo:hi`. -/
def Server.uidSearch (server : Server) (lo hi : ℕ) : List ℕ :=
  server.uids.filter fun uid => lo ≤ uid && uid ≤ hi

def inRange (lo : ℕ) (hi : Option ℕ) (uid : ℕ) : Bool :=
  lo ≤ uid && hi.all fun hi => uid ≤ hi

def imapSearchUidRange (server : Server) (lo : ℕ) (hi : Option ℕ) : List ℕ :=
  let lo := max lo 1
  match hi with
  | some hi =>
      if hi < lo then [] else (server.uidSearch lo hi).filter (inRange lo (some hi))
  | none => (server.uidSearchFrom lo).filter (inRange lo none)

/-- The loop of `imap_search_older`: the window reaches UID 1 before the fuel is used up. -/
def searchOlder (server : Server) (top need : ℕ) : ℕ → ℕ → List ℕ × Bool
  | 0, _ => ([], false)
  | fuel + 1, window =>
      let start := max (top - (window - 1)) 1
      let uids := imapSearchUidRange server start (some top)
      if need ≤ uids.length ∨ start = 1 then (uids, start == 1)
      else searchOlder server top need fuel (min (window * 4) u32Max)

def imapSearchOlder (server : Server) (below need : ℕ) : List ℕ × Bool :=
  if below ≤ 1 then ([], true)
  else searchOlder server (below - 1) need 17 (max (min (max (need * 4) (need + 64)) 50000) 1)

/-- The last `n` of a sorted list. -/
def newest (n : ℕ) (uids : List ℕ) : List ℕ := uids.drop (uids.length - n)

/-- The windows of `imap_page_uids_newest_first`. -/
def searchPage (server : Server) (uidNext limit : ℕ) : ℕ → ℕ → Option (List ℕ × Bool)
  | 0, _ => none
  | tries + 1, window =>
      let start := max (uidNext - window) 1
      let uids := server.uidSearchFrom start
      if limit ≤ uids.length ∨ start = 1 then
        let page := newest limit uids
        let hasMore := !page.isEmpty && (page.length < uids.length ||
          (start != 1 && page.length < server.uids.length))
        some (page, hasMore)
      else searchPage server uidNext limit tries (min (window * 2) 50000)

/-- `imap_page_uids_newest_first` from the newest message on. -/
def imapPageUidsNewestFirst (server : Server) (limit : ℕ) : List ℕ × Bool :=
  if server.uids.length = 0 ∨ limit = 0 then ([], false)
  else
    let windowed := (server.uidNext.filter fun next => 1 < next).bind fun next =>
      searchPage server next limit 4 (min (max (limit * 4) (limit + 64)) 10000)
    windowed.getD (newest limit server.uids, (newest limit server.uids).length < server.uids.length)

/-! ## Plans -/

structure FillPlan where
  fetch : List ℕ
  vanished : List ℕ
  remaining : ℕ
  serverMax : Option ℕ

/-- The result of a search comes sorted and without duplicates. -/
def planFillRange (server cached : List ℕ) (lo : ℕ) (hi : Option ℕ) (limit : ℕ) : FillPlan :=
  let server := server.filter (inRange lo hi)
  let cachedSet := cached.filter (inRange lo hi)
  let missing := server.filter (· ∉ cachedSet)
  let take := min (max limit 1) missing.length
  { fetch := newest take missing
    vanished := cachedSet.filter (· ∉ server)
    remaining := missing.length - take
    serverMax := server.max? }

structure BackfillPlan where
  fetch : List ℕ
  newLow : Option ℕ
  complete : Bool

def planBackfill (older cached : List ℕ) (reachedStart : Bool) (limit : ℕ) : BackfillPlan :=
  let take := min (max limit 1) older.length
  let block := newest take older
  { fetch := block.filter (· ∉ cached)
    newLow := block.head?
    complete := reachedStart && older.length ≤ take }

def recentWindowStart (cached : List ℕ) (low window : ℕ) : ℕ :=
  if window < cached.length then max (cached.getD (cached.length - window) low) low else low

/-! ## Steps -/

inductive MailSyncRequestMode where
  | auto | catchup | backfill | reconcile | reconcileFull
deriving DecidableEq

inductive MailSyncMode where
  | initial | repair | catchup | backfill | reconcile | reconcileFull
deriving DecidableEq

structure FolderSyncState where
  uidValidity : Option ℕ := none
  low : Option ℕ := none
  high : Option ℕ := none
  complete : Bool := false
  needsRepair : Bool := false
  cachedUids : List ℕ := []

structure Watermark where
  low : Option ℕ
  high : Option ℕ
  complete : Bool
  needsRepair : Bool

structure StepParams where
  request : MailSyncRequestMode
  limit : ℕ

structure FolderStepOutcome where
  uidValidity : Option ℕ
  mode : MailSyncMode
  messages : List ℕ := []
  vanished : List ℕ := []
  watermark : Watermark
  uidValidityReset : Bool
  remaining : ℕ := 0
  more : Bool := false

def flagReconcileWindow : ℕ := 500

section

variable (server : Server) (reset : Bool) (limit : ℕ)

/-- Never synced: the newest page. -/
def initialStep : FolderStepOutcome :=
  let page := imapPageUidsNewestFirst server limit
  let emptyHigh := (server.uidNext.map (· - 1)).getD 0
  { uidValidity := server.uidValidity
    mode := .initial
    messages := page.1
    watermark := {
      low := some (page.1.head?.getD (saturatingAdd emptyHigh 1))
      high := some (page.1.getLast?.getD emptyHigh)
      complete := !page.2
      needsRepair := false }
    uidValidityReset := reset }

variable (cached : List ℕ) (low high : ℕ) (complete needsRepair : Bool)

/-- A cache without watermark has its span adopted and verified. -/
def adopt (state : FolderSyncState) : FolderSyncState :=
  if state.high = none then
    { state with
      low := state.cachedUids.head?
      high := state.cachedUids.getLast?
      complete := false
      needsRepair := true }
  else state

def repairStep : FolderStepOutcome :=
  let plan := planFillRange (imapSearchUidRange server low (some high)) cached low (some high) limit
  { uidValidity := server.uidValidity
    mode := .repair
    messages := plan.fetch
    vanished := plan.vanished
    watermark := ⟨some low, some high, complete, 0 < plan.remaining⟩
    uidValidityReset := reset
    remaining := plan.remaining
    more := true }

def catchupStep : FolderStepOutcome :=
  let start := saturatingAdd high 1
  let plan := planFillRange (imapSearchUidRange server start none) cached start none limit
  let newHigh := if plan.remaining = 0 then (plan.serverMax.map (max · high)).getD high else high
  { uidValidity := server.uidValidity
    mode := .catchup
    messages := plan.fetch
    vanished := plan.vanished
    watermark := ⟨some low, some newHigh, complete, needsRepair⟩
    uidValidityReset := reset
    remaining := plan.remaining
    more := 0 < plan.remaining }

def backfillStep : FolderStepOutcome :=
  if complete then
    { uidValidity := server.uidValidity
      mode := .backfill
      watermark := ⟨some low, some high, complete, needsRepair⟩
      uidValidityReset := reset }
  else
    let older := imapSearchOlder server low limit
    let plan := planBackfill older.1 cached older.2 limit
    { uidValidity := server.uidValidity
      mode := .backfill
      messages := plan.fetch
      watermark := ⟨some ((plan.newLow.map (min · low)).getD low), some high, plan.complete,
        needsRepair⟩
      uidValidityReset := reset
      more := !plan.complete }

def reconcileStep (full : Bool) : FolderStepOutcome :=
  let mode := if full then .reconcileFull else .reconcile
  if high < low then
    { uidValidity := server.uidValidity
      mode := mode
      watermark := ⟨some low, some high, complete, needsRepair⟩
      uidValidityReset := reset }
  else
    let lo := if full then low else recentWindowStart cached low flagReconcileWindow
    let plan := planFillRange (imapSearchUidRange server lo (some high)) cached lo (some high) limit
    { uidValidity := server.uidValidity
      mode := mode
      messages := plan.fetch
      vanished := plan.vanished
      watermark := ⟨some low, some high, complete, needsRepair⟩
      uidValidityReset := reset
      remaining := plan.remaining
      more := 0 < plan.remaining }

end

def uidValidityReset (stored remote : Option ℕ) : Bool :=
  match stored, remote with
  | some old, some new => old != new
  | _, _ => false

def imapSyncFolderStep (server : Server) (stored : FolderSyncState) (params : StepParams) :
    FolderStepOutcome :=
  let limit := min (max params.limit 1) 2000
  let reset := uidValidityReset stored.uidValidity server.uidValidity
  let state := if reset then { uidValidity := server.uidValidity } else stored
  if state.high = none ∧ state.cachedUids = [] then initialStep server reset limit
  else
    let state := adopt state
    let low := state.low.getD 1
    let high := state.high.getD 0
    if state.needsRepair then
      repairStep server reset limit state.cachedUids low high state.complete
    else
      match params.request with
      | .auto | .catchup =>
          catchupStep server reset limit state.cachedUids low high state.complete state.needsRepair
      | .backfill =>
          backfillStep server reset limit state.cachedUids low high state.complete state.needsRepair
      | .reconcile =>
          reconcileStep server reset limit state.cachedUids low high state.complete
            state.needsRepair false
      | .reconcileFull =>
          reconcileStep server reset limit state.cachedUids low high state.complete
            state.needsRepair true

/-! ## The cache -/

/-- The row of a folder in `mail_folders` and the UIDs of its rows in `mail_messages`. -/
structure FolderCache where
  uidValidity : Option ℕ := none
  low : Option ℕ := none
  high : Option ℕ := none
  complete : Bool := false
  needsRepair : Bool := false
  cached : List ℕ := []

def loadFolderSyncState (cache : FolderCache) : FolderSyncState where
  uidValidity := cache.uidValidity
  low := cache.low
  high := cache.high
  complete := cache.complete
  needsRepair := cache.needsRepair
  cachedUids := cache.cached

def resetFolderCache (cache : FolderCache) : FolderCache :=
  { uidValidity := cache.uidValidity }

/-- The rows are read in the order of their UIDs. -/
def upsertMessage (cached : List ℕ) (uid : ℕ) : List ℕ :=
  if uid ∈ cached then cached else cached.orderedInsert (· ≤ ·) uid

def canLower (mode : MailSyncMode) : Bool := mode == .initial || mode == .backfill

def applyFolderStep (cache : FolderCache) (outcome : FolderStepOutcome) : FolderCache :=
  let cache := if outcome.uidValidityReset then resetFolderCache cache else cache
  let wm := outcome.watermark
  { uidValidity := outcome.uidValidity.or cache.uidValidity
    low :=
      match cache.low with
      | none => wm.low
      | some low =>
          some (if canLower outcome.mode then min low (wm.low.getD low)
            else max low (wm.low.getD 0))
    high :=
      match wm.high with
      | none => cache.high
      | some high => some (max (cache.high.getD 0) high)
    complete := cache.complete || wm.complete
    needsRepair := wm.needsRepair
    cached := (outcome.messages.foldl upsertMessage cache.cached).filter
      fun uid => uid ∉ outcome.vanished }

end Taomni.Mail
