import Taomni.Mail.FolderSync

/-!
# What a step of the folder synchronisation does

A search gives the messages of its range. A fill plan fetches messages that are missing, all of them if
nothing remains; a backfill plan fetches the newest block below the span; the first page is the
newest part of the folder. `StepSpec` collects what follows for a whole step.

Reference: `src-tauri/src/mail/sync/folder_step.rs` and `planning.rs`.
-/

namespace Taomni.Mail

open List

variable {server : Server} {lo low high limit : ℕ} {hi : Option ℕ} {cached : List ℕ}

variable {uid : ℕ}

theorem inRange_iff : inRange lo hi uid = true ↔ lo ≤ uid ∧ ∀ h, hi = some h → uid ≤ h := by
  unfold inRange
  rw [Bool.and_eq_true, decide_eq_true_iff]
  cases hi <;> simp

/-! ## Searches -/

/-- Clamped, a search gives exactly the messages of its range. -/
theorem imapSearchUidRange_eq (server : Server) (lo : ℕ) (hi : Option ℕ) :
    imapSearchUidRange server lo hi = server.uids.filter (inRange lo hi) := by
  have hpositive {uid : ℕ} (huid : uid ∈ server.uids) : max lo 1 ≤ uid ↔ lo ≤ uid := by
    have := server.positive uid huid
    omega
  unfold imapSearchUidRange Server.uidSearch Server.uidSearchFrom
  cases hi with
  | none =>
    simp only [filter_filter]
    refine filter_congr fun uid huid => ?_
    rw [Bool.eq_iff_iff, Bool.and_eq_true, inRange_iff, inRange_iff, Bool.or_eq_true,
      decide_eq_true_iff, hpositive huid]
    exact ⟨fun h => h.1, fun h => ⟨h, .inl h.1⟩⟩
  | some hi =>
    dsimp only
    split
    · rename_i hempty
      symm
      rw [filter_eq_nil_iff]
      intro uid huid hrange
      obtain ⟨hlo, hhi⟩ := inRange_iff.mp hrange
      have := hhi hi rfl
      have := (hpositive huid).mpr hlo
      omega
    · rw [filter_filter]
      refine filter_congr fun uid huid => ?_
      rw [Bool.eq_iff_iff, Bool.and_eq_true, inRange_iff, inRange_iff, Bool.and_eq_true,
        decide_eq_true_iff, decide_eq_true_iff, hpositive huid]
      exact ⟨fun h => h.1, fun h => ⟨h, h.1, h.2 hi rfl⟩⟩

theorem mem_imapSearchUidRange : uid ∈ imapSearchUidRange server lo hi ↔
      uid ∈ server.uids ∧ lo ≤ uid ∧ ∀ h, hi = some h → uid ≤ h := by
  rw [imapSearchUidRange_eq, mem_filter, inRange_iff]

/-- The messages of a range, up to the end of which the search has gone. -/
theorem searchOlder_spec (server : Server) (top need fuel window : ℕ) :
    ∃ start, (searchOlder server top need fuel window).1 = imapSearchUidRange server start (some top) ∧
      ((searchOlder server top need fuel window).2 = true → start = 1) := by
  induction fuel generalizing window with
  | zero =>
    refine ⟨top + 1, ?_, nofun⟩
    symm
    rw [imapSearchUidRange_eq, searchOlder, filter_eq_nil_iff]
    intro uid _ hrange
    obtain ⟨hlo, hhi⟩ := inRange_iff.mp hrange
    have := hhi top rfl
    omega
  | succ fuel ih =>
    unfold searchOlder
    dsimp only
    split
    · exact ⟨_, rfl, beq_iff_eq.mp⟩
    · exact ih _

theorem imapSearchOlder_spec (server : Server) (below need : ℕ) :
    ∃ start, (∀ uid, uid ∈ (imapSearchOlder server below need).1 ↔
        uid ∈ server.uids ∧ start ≤ uid ∧ uid < below) ∧
      (imapSearchOlder server below need).1.Pairwise (· < ·) ∧
      ((imapSearchOlder server below need).2 = true → start ≤ 1) := by
  unfold imapSearchOlder
  by_cases hbelow : below ≤ 1
  · rw [if_pos hbelow]
    refine ⟨1, fun uid => iff_of_false not_mem_nil fun h => ?_, List.Pairwise.nil,
      fun _ => Nat.le_refl 1⟩
    have := h.2.1
    have := h.2.2
    omega
  · rw [if_neg hbelow]
    obtain ⟨start, heq, hreached⟩ := searchOlder_spec server (below - 1) need 17
      (max (min (max (need * 4) (need + 64)) 50000) 1)
    refine ⟨start, fun uid => ?_, ?_, fun h => (hreached h).le⟩
    · rw [heq, mem_imapSearchUidRange]
      constructor
      · rintro ⟨huid, hlo, hhi⟩
        have := hhi _ rfl
        exact ⟨huid, hlo, by omega⟩
      · rintro ⟨huid, hlo, hlt⟩
        refine ⟨huid, hlo, ?_⟩
        rintro h ⟨⟩
        omega
    · rw [heq, imapSearchUidRange_eq]
      exact server.sorted.filter _

/-! ## The newest part of a list -/

theorem newest_sublist (n : ℕ) (uids : List ℕ) : (newest n uids).Sublist uids :=
  drop_sublist _ _

variable {uids : List ℕ}

theorem newest_eq_self {n : ℕ} (h : uids.length ≤ n) : newest n uids = uids := by
  unfold newest
  rw [Nat.sub_eq_zero_of_le h, drop_zero]

theorem newest_ne_nil {n : ℕ} (hn : 0 < n) (h : uids ≠ []) : newest n uids ≠ [] := by
  have hlength := length_pos_of_ne_nil h
  unfold newest
  rw [Ne, drop_eq_nil_iff]
  omega

/-- With a message, the newest part has all the newer ones. -/
theorem newest_upper {n : ℕ} (hsorted : uids.Pairwise (· < ·)) {uid' : ℕ}
    (huid : uid ∈ newest n uids) (huid' : uid' ∈ uids) (hle : uid ≤ uid') : uid' ∈ newest n uids := by
  unfold newest at huid ⊢
  rw [← take_append_drop (uids.length - n) uids, mem_append] at huid'
  rw [← take_append_drop (uids.length - n) uids, pairwise_append] at hsorted
  refine huid'.resolve_left fun hold => ?_
  have := hsorted.2.2 uid' hold uid huid
  omega

/-! ## Plans -/

/-- The messages of a range that are not cached. -/
def missing (server : Server) (cached : List ℕ) (lo : ℕ) (hi : Option ℕ) : List ℕ :=
  server.uids.filter fun uid => inRange lo hi uid && uid ∉ cached

theorem mem_missing : uid ∈ missing server cached lo hi ↔
    uid ∈ server.uids ∧ inRange lo hi uid = true ∧ uid ∉ cached := by
  unfold missing
  rw [mem_filter, Bool.and_eq_true, decide_eq_true_iff]

theorem planFillRange_missing (server : Server) (cached : List ℕ) (lo : ℕ) (hi : Option ℕ) :
    ((imapSearchUidRange server lo hi).filter (inRange lo hi)).filter
      (fun uid => uid ∉ cached.filter (inRange lo hi)) = missing server cached lo hi := by
  unfold missing
  rw [imapSearchUidRange_eq, filter_filter, filter_filter]
  refine filter_congr fun uid _ => ?_
  rw [Bool.eq_iff_iff]
  simp only [Bool.and_eq_true, decide_eq_true_iff, mem_filter]
  constructor
  · rintro ⟨⟨hnot, hrange⟩, -⟩
    exact ⟨hrange, fun hcached => hnot ⟨hcached, hrange⟩⟩
  · rintro ⟨hrange, hnot⟩
    exact ⟨⟨fun h => hnot h.1, hrange⟩, hrange⟩

/-- What a plan for a range does. -/
structure FillSpec (server : Server) (cached : List ℕ) (lo : ℕ) (hi : Option ℕ) (plan : FillPlan) :
    Prop where
  fetch : ∀ uid ∈ plan.fetch, uid ∈ missing server cached lo hi
  all : plan.remaining = 0 → ∀ uid ∈ missing server cached lo hi, uid ∈ plan.fetch
  some : 0 < plan.remaining → ∃ uid, uid ∈ plan.fetch
  vanished : ∀ uid ∈ plan.vanished, uid ∉ server.uids
  serverMax_mem : ∀ m, plan.serverMax = .some m → m ∈ server.uids
  serverMax_le : ∀ m, plan.serverMax = .some m → ∀ uid ∈ server.uids, inRange lo hi uid = true → uid ≤ m

theorem planFillRange_spec (server : Server) (cached : List ℕ) (lo : ℕ) (hi : Option ℕ) (limit : ℕ) :
    FillSpec server cached lo hi
      (planFillRange (imapSearchUidRange server lo hi) cached lo hi limit) := by
  have hmissing := planFillRange_missing server cached lo hi
  have hrange {uid : ℕ} : uid ∈ (imapSearchUidRange server lo hi).filter (inRange lo hi) ↔
      uid ∈ server.uids ∧ inRange lo hi uid = true := by
    rw [imapSearchUidRange_eq, filter_filter, mem_filter, Bool.and_self]
  unfold planFillRange
  dsimp only
  rw [hmissing]
  refine ⟨fun uid => (newest_sublist _ _).mem, fun hremaining uid huid => ?_, fun hremaining => ?_,
    fun uid huid hserver => ?_, fun m hm => ?_, fun m hm uid huid hin => ?_⟩ <;> dsimp only at *
  · rwa [newest_eq_self (by omega)]
  · refine exists_mem_of_ne_nil _ (newest_ne_nil (by omega) fun hnil => ?_)
    rw [hnil, length_nil, Nat.zero_sub] at hremaining
    exact Nat.lt_irrefl 0 hremaining
  · simp only [mem_filter, decide_eq_true_iff] at huid
    exact huid.2 (mem_filter.mp (hrange.mpr ⟨hserver, huid.1.2⟩))
  · exact (hrange.mp (List.max?_eq_some_iff.mp hm).1).1
  · exact (List.max?_eq_some_iff.mp hm).2 uid (hrange.mpr ⟨huid, hin⟩)

/-- The block below a span joins it, and is the last one when nothing is below it. -/
structure BackfillSpec (server : Server) (cached : List ℕ) (low newLow : ℕ) (block : List ℕ)
    (reached : Bool) : Prop where
  le : newLow ≤ low
  fetch : ∀ uid ∈ block, uid ∈ server.uids
  all : ∀ uid ∈ server.uids, newLow ≤ uid → uid < low → uid ∈ cached ∨ uid ∈ block
  complete : reached = true → ∀ uid ∈ server.uids, newLow ≤ uid

theorem planBackfill_spec (server : Server) (cached : List ℕ) (low limit : ℕ) :
    BackfillSpec server cached low (((planBackfill (imapSearchOlder server low limit).1 cached
        (imapSearchOlder server low limit).2 limit).newLow.map (min · low)).getD low)
      (planBackfill (imapSearchOlder server low limit).1 cached
        (imapSearchOlder server low limit).2 limit).fetch
      (planBackfill (imapSearchOlder server low limit).1 cached
        (imapSearchOlder server low limit).2 limit).complete := by
  obtain ⟨start, hmem, hsorted, hreached⟩ := imapSearchOlder_spec server low limit
  generalize imapSearchOlder server low limit = older at hmem hsorted hreached ⊢
  have hfetch : ∀ uid ∈ (planBackfill older.1 cached older.2 limit).fetch, uid ∈ server.uids := by
    intro uid huid
    exact ((hmem uid).mp ((newest_sublist _ _).mem (mem_of_mem_filter huid))).1
  have hcomplete : (planBackfill older.1 cached older.2 limit).complete = true →
      (∀ uid ∈ server.uids, uid < low → uid ∈ older.1) ∧
        newest (min (max limit 1) older.1.length) older.1 = older.1 := by
    intro hdone
    unfold planBackfill at hdone
    rw [Bool.and_eq_true, decide_eq_true_iff] at hdone
    refine ⟨fun uid huid hlt => (hmem uid).mpr ⟨huid, ?_, hlt⟩, newest_eq_self hdone.2⟩
    have := hreached hdone.1
    have := server.positive uid huid
    omega
  cases hblock : (newest (min (max limit 1) older.1.length) older.1).head? with
  | none =>
    -- nothing is below the span
    have hnone : older.1 = [] := by
      by_contra hne
      refine newest_ne_nil ?_ hne (head?_eq_none_iff.mp hblock)
      have := length_pos_of_ne_nil hne
      omega
    have hlow : ((planBackfill older.1 cached older.2 limit).newLow.map (min · low)).getD low =
        low := by
      unfold planBackfill
      dsimp only
      rw [hblock]
      rfl
    rw [hlow]
    refine ⟨Nat.le_refl _, hfetch, fun uid _ hge hlt => absurd hlt (Nat.not_lt.mpr hge),
      fun hdone uid huid => ?_⟩
    by_contra hlt
    have := (hcomplete hdone).1 uid huid (Nat.lt_of_not_le hlt)
    rw [hnone] at this
    exact not_mem_nil this
  | some first =>
    have hfirst := mem_of_mem_head? (Option.mem_def.mpr hblock)
    have hlt : first < low := ((hmem first).mp ((newest_sublist _ _).mem hfirst)).2.2
    have hlow : ((planBackfill older.1 cached older.2 limit).newLow.map (min · low)).getD low =
        first := by
      unfold planBackfill
      dsimp only
      rw [hblock]
      exact Nat.min_eq_left hlt.le
    have hstart : start ≤ first := ((hmem first).mp ((newest_sublist _ _).mem hfirst)).2.1
    rw [hlow]
    refine ⟨hlt.le, hfetch, fun uid huid hge hbelow => ?_, fun hdone uid huid => ?_⟩
    · have holder := (hmem uid).mpr ⟨huid, hstart.trans hge, hbelow⟩
      by_cases hcached : uid ∈ cached
      · exact .inl hcached
      · refine .inr (mem_filter.mpr ⟨newest_upper hsorted hfirst holder hge, ?_⟩)
        exact decide_eq_true hcached
    · by_cases hbelow : uid < low
      · obtain ⟨hall, hwhole⟩ := hcomplete hdone
        have holder := hall uid huid hbelow
        rw [hwhole] at hblock
        obtain ⟨rest, hrest⟩ := List.head?_eq_some_iff.mp hblock
        rw [hrest] at holder hsorted
        obtain rfl | hin := mem_cons.mp holder
        · exact Nat.le_refl _
        · exact ((List.pairwise_cons.mp hsorted).1 uid hin).le
      · exact hlt.le.trans (Nat.le_of_not_lt hbelow)

/-! ## The first page -/

/-- With a message, the list has all the newer ones on the server. -/
structure Newest (server : Server) (uids : List ℕ) : Prop where
  sublist : uids.Sublist server.uids
  upper : ∀ uid ∈ uids, ∀ uid' ∈ server.uids, uid ≤ uid' → uid' ∈ uids

theorem uidSearchFrom_newest (server : Server) (lo : ℕ) : Newest server (server.uidSearchFrom lo) := by
  refine ⟨filter_sublist, fun uid huid uid' huid' hle => ?_⟩
  unfold Server.uidSearchFrom at huid ⊢
  rw [mem_filter, Bool.or_eq_true, decide_eq_true_iff, beq_iff_eq] at huid ⊢
  refine ⟨huid', huid.2.imp hle.trans' fun hlast => ?_⟩
  -- nothing on the server is newer than its last message
  rw [hlast, Option.some_inj]
  obtain ⟨front, hfront⟩ := List.getLast?_eq_some_iff.mp hlast
  have hsorted := server.sorted
  rw [hfront, mem_append, mem_singleton] at huid'
  rw [hfront, pairwise_append] at hsorted
  obtain hin | rfl := huid'
  · have := hsorted.2.2 uid' hin uid (mem_singleton_self _)
    omega
  · rfl

theorem Newest.newest {server : Server} (h : Newest server uids) (n : ℕ) :
    Newest server (newest n uids) := by
  refine ⟨(newest_sublist n uids).trans h.sublist, fun uid huid uid' huid' hle => ?_⟩
  have hin := h.upper uid ((newest_sublist n uids).mem huid) uid' huid' hle
  exact newest_upper (server.sorted.sublist h.sublist) huid hin hle

/-- The first page is the newest part of the folder, and all of it when there is no more. -/
structure PageSpec (server : Server) (page : List ℕ × Bool) : Prop where
  newest : Newest server page.1
  nonempty : server.uids ≠ [] → page.1 ≠ []
  all : page.2 = false → page.1 = server.uids

theorem searchPage_spec {next tries window : ℕ} {page : List ℕ × Bool} (hlimit : 0 < limit)
    (h : searchPage server next limit tries window = some page) : PageSpec server page := by
  induction tries generalizing window with
  | zero => cases h
  | succ tries ih =>
    unfold searchPage at h
    dsimp only at h
    have hsegment := uidSearchFrom_newest server (max (next - window) 1)
    have hwhole : max (next - window) 1 = 1 →
        server.uidSearchFrom (max (next - window) 1) = server.uids := by
      intro hstart
      rw [hstart]
      refine filter_eq_self.mpr fun uid huid => ?_
      rw [Bool.or_eq_true, decide_eq_true_iff]
      exact .inl (server.positive uid huid)
    generalize max (next - window) 1 = start at h hsegment hwhole
    split at h
    · cases h
      have hpage := hsegment.newest limit
      have hnonempty : server.uids ≠ [] → newest limit (server.uidSearchFrom start) ≠ [] := by
        intro hne
        refine newest_ne_nil hlimit fun hnil => ?_
        have hlast := getLast?_eq_some_getLast hne
        refine not_mem_nil (a := server.uids.getLast hne) (hnil ▸ ?_)
        refine mem_filter.mpr ⟨getLast_mem hne, ?_⟩
        rw [hlast, Bool.or_eq_true]
        exact .inr (beq_self_eq_true _)
      refine ⟨hpage, hnonempty, fun hmore => ?_⟩
      dsimp only at hmore ⊢
      by_cases hempty : server.uids = []
      · rw [hempty]
        exact List.sublist_nil.mp (hempty ▸ hpage.sublist)
      have hne : (newest limit (server.uidSearchFrom start)).isEmpty = false :=
        isEmpty_eq_false_iff.mpr (hnonempty hempty)
      rw [hne, Bool.not_false, Bool.true_and, Bool.or_eq_false_iff, decide_eq_false_iff_not,
        Nat.not_lt] at hmore
      by_cases hstart : start = 1
      · have hsame := (newest_sublist limit _).eq_of_length_le hmore.1
        rw [hsame, hwhole hstart]
      · have hlength := hmore.2
        rw [bne_iff_ne.mpr hstart, Bool.true_and, decide_eq_false_iff_not, Nat.not_lt] at hlength
        exact hpage.sublist.eq_of_length_le hlength
    · exact ih h

theorem imapPageUidsNewestFirst_spec (server : Server) (hlimit : 0 < limit) :
    PageSpec server (imapPageUidsNewestFirst server limit) := by
  unfold imapPageUidsNewestFirst
  split
  · rename_i hempty
    have hnil := length_eq_zero_iff.mp (hempty.resolve_right hlimit.ne')
    exact ⟨⟨nil_sublist _, fun _ h => absurd h not_mem_nil⟩, fun hne => absurd hnil hne,
      fun _ => hnil.symm⟩
  · dsimp only
    generalize hwindowed : Option.bind _ _ = windowed
    cases windowed with
    | none =>
      have hall : Newest server server.uids := ⟨List.Sublist.refl _, fun _ _ uid' huid' _ => huid'⟩
      refine ⟨hall.newest limit, newest_ne_nil hlimit, fun hmore => ?_⟩
      exact (newest_sublist limit _).eq_of_length_le
        (Nat.le_of_not_lt (of_decide_eq_false hmore))
    | some page =>
      obtain ⟨next, -, hsearch⟩ := Option.bind_eq_some_iff.mp hwindowed
      exact searchPage_spec hlimit hsearch

/-! ## Steps -/

/-- The step that starts a span has the newest messages, down to its low end. -/
structure InitialSpec (server : Server) (outcome : FolderStepOutcome) (low high : ℕ) : Prop where
  reset : outcome.uidValidityReset = false
  uidValidity : outcome.uidValidity = server.uidValidity
  mode : outcome.mode = .initial
  lower : outcome.watermark.low = some low
  upper : outcome.watermark.high = some high
  verified : outcome.watermark.needsRepair = false
  fetch : ∀ uid ∈ outcome.messages, uid ∈ server.uids
  vanished : outcome.vanished = []
  all : ∀ uid ∈ server.uids, low ≤ uid → uid ∈ outcome.messages
  newest : ∀ uid ∈ server.uids, uid ≤ high
  high_le : high ≤ server.assigned
  low_le : low ≤ server.assigned + 1
  complete : outcome.watermark.complete = true → ∀ uid ∈ server.uids, low ≤ uid
  remaining : outcome.remaining = 0
  more : outcome.more = false

theorem initialStep_spec (server : Server) (hlimit : 0 < limit) :
    ∃ low high, InitialSpec server (initialStep server false limit) low high := by
  have hpage := imapPageUidsNewestFirst_spec server hlimit
  have hsorted := server.sorted.sublist hpage.newest.sublist
  unfold initialStep
  generalize imapPageUidsNewestFirst server limit = page at hpage hsorted
  rcases page with ⟨page, more⟩
  dsimp only at hpage hsorted ⊢
  cases page with
  | nil =>
    have hempty : server.uids = [] := by
      by_contra hne
      exact hpage.nonempty hne rfl
    have hhigh : (server.uidNext.map (· - 1)).getD 0 ≤ server.assigned := by
      cases hnext : server.uidNext with
      | none => exact Nat.zero_le _
      | some next =>
        rw [server.next next hnext]
        exact Nat.le_refl _
    generalize (server.uidNext.map (· - 1)).getD 0 = emptyHigh at hhigh
    have hnone {uid : ℕ} (huid : uid ∈ server.uids) : False := by
      rw [hempty] at huid
      exact not_mem_nil huid
    refine ⟨_, _, rfl, rfl, rfl, rfl, rfl, rfl, fun _ h => absurd h not_mem_nil, rfl,
      fun uid huid => (hnone huid).elim, fun uid huid => (hnone huid).elim, hhigh, ?_,
      fun _ uid huid => (hnone huid).elim, rfl, rfl⟩
    show saturatingAdd emptyHigh 1 ≤ _
    unfold saturatingAdd
    omega
  | cons first rest =>
    have hlast := getLast?_eq_some_getLast (cons_ne_nil first rest)
    have hmem := getLast_mem (cons_ne_nil first rest)
    generalize (first :: rest).getLast (cons_ne_nil first rest) = last at hlast hmem
    have hnewest : ∀ uid ∈ server.uids, uid ≤ last := by
      intro uid huid
      by_contra hlt
      obtain ⟨front, hfront⟩ := List.getLast?_eq_some_iff.mp hlast
      have hin := hpage.newest.upper last hmem uid huid (Nat.le_of_not_le hlt)
      rw [hfront] at hin hsorted
      rcases mem_append.mp hin with hold | hsame
      · have := (pairwise_append.mp hsorted).2.2 uid hold last (mem_singleton_self _)
        omega
      · exact hlt (mem_singleton.mp hsame).le
    refine ⟨first, last, rfl, rfl, rfl, rfl, ?_, rfl, fun uid => hpage.newest.sublist.mem, rfl,
      hpage.newest.upper first mem_cons_self, hnewest, ?_, ?_, fun hdone uid huid => ?_,
      rfl, rfl⟩
    · dsimp only
      rw [hlast]
      rfl
    · exact server.bounded last (hpage.newest.sublist.mem hmem)
    · exact (server.bounded first (hpage.newest.sublist.mem mem_cons_self)).trans
        (Nat.le_succ _)
    · have hall : first :: rest = server.uids := hpage.all (by simpa using hdone)
      rw [← hall] at huid
      obtain rfl | hin := mem_cons.mp huid
      · exact Nat.le_refl _
      · exact ((List.pairwise_cons.mp hsorted).1 uid hin).le

/-- The range that a step fills. -/
def fillRange (cached : List ℕ) (low high : ℕ) : MailSyncMode → ℕ × Option ℕ
  | .catchup => (saturatingAdd high 1, none)
  | .reconcile => (recentWindowStart cached low flagReconcileWindow, some high)
  | _ => (low, some high)

/-- A step that works on the span from `low` to `high` extends it by messages that are cached or
fetched. -/
structure SpanSpec (server : Server) (cached : List ℕ) (low high : ℕ) (complete needsRepair : Bool)
    (outcome : FolderStepOutcome) (newLow newHigh : ℕ) : Prop where
  reset : outcome.uidValidityReset = false
  uidValidity : outcome.uidValidity = server.uidValidity
  lower : outcome.watermark.low = some newLow
  upper : outcome.watermark.high = some newHigh
  fetch : ∀ uid ∈ outcome.messages, uid ∈ server.uids
  vanished : ∀ uid ∈ outcome.vanished, uid ∉ server.uids
  low_le : newLow ≤ low
  same_low : canLower outcome.mode = false → newLow = low
  le_high : high ≤ newHigh
  high_le : newHigh ≤ max high server.assigned
  older : ∀ uid ∈ server.uids, newLow ≤ uid → uid < low → uid ∈ cached ∨ uid ∈ outcome.messages
  newer : ∀ uid ∈ server.uids, high < uid → uid ≤ newHigh → uid ∈ cached ∨ uid ∈ outcome.messages
  verified : needsRepair = false → outcome.watermark.needsRepair = false
  repair : needsRepair = true → newLow = low ∧ newHigh = high ∧ canLower outcome.mode = false
  repaired : needsRepair = true → outcome.watermark.needsRepair = false →
    ∀ uid ∈ server.uids, low ≤ uid → uid ≤ high → uid ∈ cached ∨ uid ∈ outcome.messages
  complete : outcome.watermark.complete = true →
    complete = true ∨ ∀ uid ∈ server.uids, newLow ≤ uid
  fills : 0 < outcome.remaining → ∃ uid ∈ outcome.messages,
    uid ∈ missing server cached (fillRange cached low high outcome.mode).1
      (fillRange cached low high outcome.mode).2
  more : outcome.more = true → outcome.mode = .repair ∨ outcome.mode = .backfill ∨
    0 < outcome.remaining

section

variable {complete needsRepair : Bool}

/-- A step that neither fetches beyond the span nor moves its ends. -/
theorem SpanSpec.unmoved {outcome : FolderStepOutcome} (hreset : outcome.uidValidityReset = false)
    (hwatermark : outcome.watermark = ⟨some low, some high, complete, false⟩)
    (huidValidity : outcome.uidValidity = server.uidValidity)
    (hfetch : ∀ uid ∈ outcome.messages, uid ∈ server.uids)
    (hvanished : ∀ uid ∈ outcome.vanished, uid ∉ server.uids)
    (hfills : 0 < outcome.remaining → ∃ uid ∈ outcome.messages,
      uid ∈ missing server cached (fillRange cached low high outcome.mode).1
        (fillRange cached low high outcome.mode).2)
    (hmore : outcome.more = true → outcome.mode = .repair ∨ outcome.mode = .backfill ∨
      0 < outcome.remaining) : SpanSpec server cached low high complete false outcome low high where
  reset := hreset
  uidValidity := huidValidity
  lower := by rw [hwatermark]
  upper := by rw [hwatermark]
  fetch := hfetch
  vanished := hvanished
  low_le := Nat.le_refl _
  same_low _ := rfl
  le_high := Nat.le_refl _
  high_le := Nat.le_max_left _ _
  older _ _ hge hlt := absurd hlt (Nat.not_lt.mpr hge)
  newer _ _ hlt hle := absurd hlt (Nat.not_lt.mpr hle)
  verified _ := by rw [hwatermark]
  repair := nofun
  repaired := nofun
  complete h := by
    rw [hwatermark] at h
    exact .inl h
  fills := hfills
  more := hmore

variable {plan : FillPlan}

theorem FillSpec.fetch_server {lo : ℕ} {hi : Option ℕ}
    (h : FillSpec server cached lo hi plan) : ∀ uid ∈ plan.fetch, uid ∈ server.uids :=
  fun uid huid => (mem_missing.mp (h.fetch uid huid)).1

theorem FillSpec.fills {lo : ℕ} {hi : Option ℕ}
    (h : FillSpec server cached lo hi plan) (hremaining : 0 < plan.remaining) :
    ∃ uid ∈ plan.fetch, uid ∈ missing server cached lo hi := by
  obtain ⟨uid, huid⟩ := h.some hremaining
  exact ⟨uid, huid, h.fetch uid huid⟩

theorem FillSpec.covers {lo : ℕ} {hi : Option ℕ}
    (h : FillSpec server cached lo hi plan) (hremaining : plan.remaining = 0)
    (huid : uid ∈ server.uids) (hrange : inRange lo hi uid = true) :
    uid ∈ cached ∨ uid ∈ plan.fetch := by
  by_cases hcached : uid ∈ cached
  · exact .inl hcached
  · exact .inr (h.all hremaining uid (mem_missing.mpr ⟨huid, hrange, hcached⟩))

theorem repairStep_spec (server : Server) (limit : ℕ) (cached : List ℕ) (low high : ℕ)
    (complete : Bool) : SpanSpec server cached low high complete true
      (repairStep server false limit cached low high complete) low high := by
  have hplan := planFillRange_spec server cached low (some high) limit
  unfold repairStep
  dsimp only
  generalize planFillRange _ _ _ _ _ = plan at hplan
  refine ⟨rfl, rfl, rfl, rfl, hplan.fetch_server, hplan.vanished, Nat.le_refl _, fun _ => rfl,
    Nat.le_refl _, Nat.le_max_left _ _, fun _ _ hge hlt => absurd hlt (Nat.not_lt.mpr hge),
    fun _ _ hlt hle => absurd hlt (Nat.not_lt.mpr hle), nofun, fun _ => ⟨rfl, rfl, rfl⟩,
    fun _ hdone uid huid hlow hhigh => ?_, fun h => .inl h, hplan.fills, fun _ => .inl rfl⟩
  refine hplan.covers (Nat.eq_zero_of_not_pos (of_decide_eq_false hdone)) huid ?_
  rw [inRange_iff]
  exact ⟨hlow, fun h heq => (Option.some.inj heq) ▸ hhigh⟩

theorem catchupStep_spec (server : Server) (limit : ℕ) (cached : List ℕ) (low high : ℕ)
    (complete : Bool) : ∃ newHigh, SpanSpec server cached low high complete false
      (catchupStep server false limit cached low high complete false) low newHigh := by
  have hplan := planFillRange_spec server cached (saturatingAdd high 1) none limit
  unfold catchupStep
  dsimp only
  generalize planFillRange _ _ _ _ _ = plan at hplan
  by_cases hremaining : plan.remaining = 0
  · rw [if_pos hremaining]
    refine ⟨_, rfl, rfl, rfl, rfl, hplan.fetch_server, hplan.vanished, Nat.le_refl _, fun _ => rfl,
      ?_, ?_, fun _ _ hge hlt => absurd hlt (Nat.not_lt.mpr hge), fun uid huid hlt _ => ?_,
      fun _ => rfl, nofun, nofun, fun h => .inl h, hplan.fills,
      fun h => .inr (.inr (of_decide_eq_true h))⟩
    · cases plan.serverMax with
      | none => exact Nat.le_refl _
      | some m => exact Nat.le_max_right _ _
    · cases hmax : plan.serverMax with
      | none => exact Nat.le_max_left _ _
      | some m =>
        have hbounded := server.bounded m (hplan.serverMax_mem m hmax)
        show max m high ≤ _
        omega
    · refine hplan.covers hremaining huid ?_
      rw [inRange_iff]
      refine ⟨?_, nofun⟩
      unfold saturatingAdd
      omega
  · rw [if_neg hremaining]
    exact ⟨high, .unmoved rfl rfl rfl hplan.fetch_server hplan.vanished hplan.fills
      fun h => .inr (.inr (of_decide_eq_true h))⟩

theorem backfillStep_spec (server : Server) (limit : ℕ) (cached : List ℕ) (low high : ℕ)
    (complete : Bool) : ∃ newLow, SpanSpec server cached low high complete false
      (backfillStep server false limit cached low high complete false) newLow high := by
  unfold backfillStep
  cases complete with
  | true =>
    exact ⟨low, .unmoved rfl rfl rfl (fun _ h => absurd h not_mem_nil)
      (fun _ h => absurd h not_mem_nil) (fun h => absurd h (Nat.lt_irrefl 0)) nofun⟩
  | false =>
    have hplan := planBackfill_spec server cached low limit
    rw [if_neg Bool.false_ne_true]
    dsimp only
    exact ⟨_, rfl, rfl, rfl, rfl, hplan.fetch, fun _ h => absurd h not_mem_nil, hplan.le,
      nofun, Nat.le_refl _, Nat.le_max_left _ _, hplan.all,
      fun _ _ hlt hle => absurd hlt (Nat.not_lt.mpr hle), fun _ => rfl, nofun, nofun,
      fun h => .inr (hplan.complete h), fun h => absurd h (Nat.lt_irrefl 0),
      fun _ => .inr (.inl rfl)⟩

theorem reconcileStep_spec (server : Server) (limit : ℕ) (cached : List ℕ) (low high : ℕ)
    (complete full : Bool) : SpanSpec server cached low high complete false
      (reconcileStep server false limit cached low high complete false full) low high := by
  unfold reconcileStep
  dsimp only
  by_cases hempty : high < low
  · rw [if_pos hempty]
    exact .unmoved rfl rfl rfl (fun _ h => absurd h not_mem_nil)
      (fun _ h => absurd h not_mem_nil) (fun h => absurd h (Nat.lt_irrefl 0)) nofun
  · rw [if_neg hempty]
    have hplan := planFillRange_spec server cached
      (if full then low else recentWindowStart cached low flagReconcileWindow) (some high) limit
    refine .unmoved rfl rfl rfl hplan.fetch_server hplan.vanished (fun h => ?_)
      fun h => .inr (.inr (of_decide_eq_true h))
    cases full <;> exact hplan.fills h

end

/-- What a whole step does: it starts a span, or works on the stored or the adopted one. -/
inductive StepSpec (server : Server) (state : FolderSyncState) (outcome : FolderStepOutcome) :
    Prop where
  | initial {low high : ℕ} (fresh : state.high = none ∧ state.cachedUids = [])
      (spec : InitialSpec server outcome low high)
  | span {newLow newHigh : ℕ} (started : ¬(state.high = none ∧ state.cachedUids = []))
      (spec : SpanSpec server state.cachedUids ((adopt state).low.getD 1)
        ((adopt state).high.getD 0) (adopt state).complete (adopt state).needsRepair outcome newLow
        newHigh)

theorem imapSyncFolderStep_spec (server : Server) (state : FolderSyncState) (params : StepParams)
    (hreset : uidValidityReset state.uidValidity server.uidValidity = false) :
    StepSpec server state (imapSyncFolderStep server state params) := by
  have hcached : (adopt state).cachedUids = state.cachedUids := by
    unfold adopt
    split <;> rfl
  unfold imapSyncFolderStep
  dsimp only
  rw [hreset, if_neg Bool.false_ne_true]
  generalize hlimit : min (max params.limit 1) 2000 = limit
  by_cases hfresh : state.high = none ∧ state.cachedUids = []
  · rw [if_pos hfresh]
    have hpositive : 0 < limit := by omega
    obtain ⟨low, high, hspec⟩ := initialStep_spec server hpositive
    exact .initial hfresh hspec
  rw [if_neg hfresh, hcached]
  refine (?_ : ∃ newLow newHigh, SpanSpec server state.cachedUids ((adopt state).low.getD 1)
    ((adopt state).high.getD 0) (adopt state).complete (adopt state).needsRepair _ newLow
    newHigh).elim fun newLow h => h.elim fun newHigh hspec => .span hfresh hspec
  generalize (adopt state).low.getD 1 = low
  generalize (adopt state).high.getD 0 = high
  generalize (adopt state).complete = complete
  cases (adopt state).needsRepair with
  | true => exact ⟨low, high, repairStep_spec server limit _ low high complete⟩
  | false =>
    rw [if_neg Bool.false_ne_true]
    have hcatchup := catchupStep_spec server limit state.cachedUids low high complete
    cases params.request with
    | auto => exact ⟨low, hcatchup⟩
    | catchup => exact ⟨low, hcatchup⟩
    | backfill =>
      obtain ⟨newLow, hspec⟩ := backfillStep_spec server limit state.cachedUids low high complete
      exact ⟨newLow, high, hspec⟩
    | reconcile => exact ⟨low, high, reconcileStep_spec server limit _ low high complete false⟩
    | reconcileFull => exact ⟨low, high, reconcileStep_spec server limit _ low high complete true⟩

end Taomni.Mail
