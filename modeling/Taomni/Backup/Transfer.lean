import Taomni.Backup.RestorePaths
import Taomni.Common.Interruptible
import Taomni.Dap.Codec

/-!
# Downloads that are resumed

`download_with_refresh` as a program over the three files it has: the partial file, its checkpoint and
the published file. The answer of the server comes with all that happens while its body arrives.

Reference: `src-tauri/src/backup/transfer.rs`.
-/

namespace Taomni.Backup

open Dap (splitOnce parseUsize)

abbrev Bytes := List UInt8

structure Checkpoint where
  locator : Text
  etag : Text
  total : Option ℕ
deriving DecidableEq

def contentRange (value : Text) (offset : ℕ) : Except Text (ℕ × ℕ) := do
  let some (range, total) :=
      (if "bytes ".toList.isPrefixOf value then splitOnce '/' (value.drop 6) else none)
    | throw "Invalid Content-Range".toList
  let some (start, last) := splitOnce '-' range | throw "Invalid Content-Range".toList
  let some start := parseUsize start | throw "Invalid Content-Range".toList
  let some last := parseUsize last | throw "Invalid Content-Range".toList
  let some total := parseUsize total | throw "Unknown range total".toList
  if start ≠ offset ∨ last < start ∨ total ≤ last then
    throw "Unexpected Content-Range; partial data was not appended".toList
  pure (last + 1 - start, total)

/-! ## What the server and the disk do -/

/-- What happens while a body arrives; the end of the list is the end of the stream. -/
inductive Event where
  | chunk (bytes : Bytes)
  | error (message : Text)
  | cancelled

structure Response where
  status : ℕ
  contentLength : Option ℕ
  contentRange : Option Text
  etag : Option Text
  body : List Event

/-- The part of the request that a resumed download changes. -/
structure RangeRequest where
  offset : ℕ
  ifRange : Text

/-- The files of a download; a checkpoint that cannot be read is none. -/
structure Store where
  part : Option Bytes
  checkpoint : Option Checkpoint
  published : Option Bytes
deriving DecidableEq

/-- What becomes of one step; of a write that fails, `kept` bytes are in the file. -/
inductive Outcome where
  | done
  | failed (error : Text) (kept : ℕ)

instance : Inhabited Outcome := ⟨.done⟩

abbrev Download := Program Outcome Store Text

/-- A step that does its work or, when it fails, leaves what `broken` says. -/
def stepOr {α : Type} (broken : ℕ → Store → Store) (effect : Store → α × Store) : Download α :=
  Program.step fun outcome store =>
    match outcome with
    | .done => (.ok (effect store).1, (effect store).2)
    | .failed e kept => (.failed e, broken kept store)

/-- A step that changes nothing when it fails. -/
def atomically {α : Type} (effect : Store → α × Store) : Download α :=
  stepOr (fun _ store => store) effect

/-- A step of which nothing is modelled but that it may fail. -/
def mayFail : Download Unit := atomically fun store => ((), store)

/-- A step whose failure is ignored. -/
def ignoring {α : Type} (p : Download α) : Download Unit := do
  let _ ← (p.attempt : Download (Except Text α))
  pure ()

/-- A step with a value to go on with when it fails. -/
def orDefault {α : Type} (fallback : α) (p : Download α) : Download α := do
  match ← (p.attempt : Download (Except Text α)) with
  | .ok a => pure a
  | .error _ => pure fallback

/-- `std::fs::read(..).ok()` and what follows. -/
def readCheckpoint : Download (Option Checkpoint) :=
  orDefault none (atomically fun store => (store.checkpoint, store))

def partialLength : Download ℕ :=
  orDefault 0 (atomically fun store => ((store.part.getD []).length, store))

def removeCheckpoint : Download Unit :=
  ignoring (atomically fun store => ((), { store with checkpoint := none }))

/-- Opens the partial file to append to it, or truncates it. -/
def openPartial (truncate : Bool) : Download Unit := atomically fun store =>
  ((), { store with part := some (if truncate then [] else store.part.getD []) })

/-- `control::write_json`. -/
def writeCheckpoint (checkpoint : Checkpoint) : Download Unit :=
  atomically fun store => ((), { store with checkpoint := some checkpoint })

def writeAll (bytes : Bytes) : Download Unit :=
  stepOr (fun kept store => { store with part := store.part.map (· ++ bytes.take kept) })
    fun store => ((), { store with part := store.part.map (· ++ bytes) })

def publish : Download Unit := atomically fun store =>
  ((), { store with part := none, published := store.part })

/-! ## `download_with_refresh` -/

/-- Whether an entity tag names the bytes. -/
def isStrong (etag : Text) : Bool := !etag.isEmpty && !"W/".toList.isPrefixOf etag

/-- The checkpoint that a download of the locator goes on from. -/
def usable (locator : Text) (checkpoint : Option Checkpoint) : Option Checkpoint :=
  checkpoint.filter fun p => p.locator == locator && isStrong p.etag

/-- Where a download starts. -/
def startOffset (previous : Option Checkpoint) (length : ℕ) : ℕ :=
  if previous.isNone then 0 else length

def request (previous : Option Checkpoint) (offset : ℕ) : Option RangeRequest :=
  if 0 < offset then previous.map fun p => ⟨offset, p.etag⟩ else none

/-- What an answer promises. -/
structure Plan where
  offset : ℕ
  expected : Option ℕ
  total : Option ℕ

def plan (previous : Option Checkpoint) (offset : ℕ) (response : Response) : Except Text Plan :=
  if response.status = 206 then do
    let some range := response.contentRange | throw "Missing Content-Range".toList
    let (length, total) ← contentRange range offset
    if 0 < offset ∧ (previous.bind Checkpoint.total).any (· ≠ total) then
      throw "Remote file changed; restart download".toList
    pure ⟨offset, some length, some total⟩
  else if response.status = 200 then pure ⟨0, response.contentLength, response.contentLength⟩
  else throw ("Backup download failed (HTTP ".toList ++ Nat.toDigits 10 response.status ++ [')'])

/-- The loop over the body; its value is how much has been received. -/
def receive (expected : Option ℕ) : ℕ → List Event → Download ℕ
  | received, [] => pure received
  | _, .cancelled :: _ => do
    mayFail
    mayFail
    Program.fail "BACKUP_CANCELLED".toList
  | _, .error message :: _ => do
    mayFail
    Program.fail message
  | received, .chunk bytes :: events => do
    if expected.isNone then mayFail
    if expected.any (· < received + bytes.length) then
      Program.fail "Download exceeded its declared size".toList
    else do
      writeAll bytes
      receive expected (received + bytes.length) events

/-- From the answer on. -/
def accept (locator : Text) (previous : Option Checkpoint) (response : Response) (plan : Plan) :
    Download Unit := do
  mayFail
  let etag := response.etag.getD []
  if 0 < plan.offset ∧ some etag ≠ previous.map Checkpoint.etag then do
    removeCheckpoint
    Program.fail "Remote revision changed; retry will download from the beginning".toList
  else do
    openPartial (plan.offset == 0)
    writeCheckpoint ⟨locator, etag, plan.total⟩
    let received ← receive plan.expected 0 response.body
    mayFail
    if plan.expected.any (· ≠ received) ∨ plan.total.any (· ≠ plan.offset + received) then
      Program.fail "Incomplete download; retry to resume".toList
    else do
      mayFail
      publish
      removeCheckpoint

/-- `reply` is `request::download`: an answer of the server, after any retries, or an error. -/
def downloadWithRefresh (locator : Text) (reply : Option RangeRequest → Except Text Response) :
    Download Unit := do
  mayFail
  let previous := usable locator (← readCheckpoint)
  let offset := startOffset previous (← partialLength)
  let response ← Program.lift (reply (request previous offset))
  if response.status = 416 then do
    removeCheckpoint
    Program.fail "Remote range is no longer valid; retry will download from the beginning".toList
  else do
    let plan ← Program.lift (plan previous offset response)
    accept locator previous response plan

/-!
# A resumed download is one revision

A partial file is a beginning of what the entity tag of its checkpoint names (`Sound`). Every way to
end an attempt keeps this, and an attempt that succeeds has put together one whole revision
(`resumed_download_whole`).

Reference: `src-tauri/src/backup/transfer.rs`.
-/

/-! ## Servers -/

/-- What the locators have stood for, and what strong entity tags name. -/
structure Remote where
  revision : Text → Bytes → Prop
  content : Text → Text → Bytes

/-- What arrives of a body. -/
def delivered : List Event → Bytes
  | .chunk bytes :: events => bytes ++ delivered events
  | _ => []

/-- The stream comes to its end. -/
def arrives : List Event → Bool
  | [] => true
  | .chunk _ :: events => arrives events
  | _ => false

/-- The entity tag names the revision, if it is a strong one. -/
def Named (remote : Remote) (locator etag : Text) (whole : Bytes) : Prop :=
  isStrong etag = true → remote.content locator etag = whole

/-- An answer from one revision: with 200 its bytes from the start, with 206 those that the
`Content-Range` states. A stream may break off anywhere, and end early where its length is declared. -/
structure Honest (remote : Remote) (locator : Text) (response : Response) (whole : Bytes) : Prop where
  revision : remote.revision locator whole
  named : Named remote locator (response.etag.getD []) whole
  full : response.status = 200 → delivered response.body <+: whole
  declared : response.status = 200 → ∀ n, response.contentLength = some n → n = whole.length
  undeclared : response.status = 200 → response.contentLength = none →
    arrives response.body = true → delivered response.body = whole
  range : response.status = 206 → ∀ text offset length total, response.contentRange = some text →
    contentRange text offset = .ok (length, total) →
      total = whole.length ∧ delivered response.body <+: (whole.drop offset).take length

/-- A server that answers every request from one of the revisions. -/
def HonestReply (remote : Remote) (locator : Text)
    (reply : Option RangeRequest → Except Text Response) : Prop :=
  ∀ request response, reply request = .ok response → ∃ whole, Honest remote locator response whole

/-! ## What an answer promises -/

/-- The answer goes on where the plan starts, and where nothing is missing it is complete. -/
structure Fits (plan : Plan) (body : List Event) (whole : Bytes) : Prop where
  bytes : delivered body <+: whole.drop plan.offset
  complete : arrives body = true →
    (∀ total, plan.total = some total → total = plan.offset + (delivered body).length) →
    plan.offset + (delivered body).length = whole.length

variable {remote : Remote} {locator : Text} {previous : Option Checkpoint} {response : Response}
  {whole : Bytes} {store : Store}

theorem plan_cases {offset : ℕ} {p : Plan} (hhonest : Honest remote locator response whole)
    (hplan : plan previous offset response = .ok p) :
    Fits p response.body whole ∧ (p.offset = 0 ∨ p.offset = offset) := by
  unfold plan at hplan
  split at hplan
  · next hstatus =>
    split at hplan
    · next text htext =>
      obtain ⟨⟨length, total⟩, hrange, hplan⟩ := exists_of_bind_eq_ok hplan
      obtain ⟨htotal, hbytes⟩ := hhonest.range hstatus text offset length total htext hrange
      simp only at hplan
      split at hplan
      · cases hplan
      · cases hplan
        refine ⟨⟨hbytes.trans (List.take_prefix _ _), fun _ hcomplete => ?_⟩, .inr rfl⟩
        rw [← htotal]
        exact (hcomplete total rfl).symm
    · cases hplan
  · split at hplan
    · next hstatus =>
      cases hplan
      refine ⟨⟨hhonest.full hstatus, fun harrives hcomplete => ?_⟩, .inl rfl⟩
      cases hlength : response.contentLength with
      | none => rw [hhonest.undeclared hstatus hlength harrives, Nat.zero_add]
      | some n =>
        rw [← hhonest.declared hstatus n hlength]
        exact (hcomplete n hlength).symm
    · cases hplan

/-! ## What holds between attempts -/

/-- A checkpoint with a strong entity tag goes with a beginning of what it names. -/
def Sound (remote : Remote) (store : Store) : Prop :=
  ∀ c, store.checkpoint = some c → isStrong c.etag = true →
    store.part.getD [] <+: remote.content c.locator c.etag

/-- The partial file while a body is written to it. -/
structure Holding (c : Checkpoint) (held : Bytes) (store : Store) : Prop where
  part : store.part = some held
  checkpoint : store.checkpoint = some c

variable {c : Checkpoint}

theorem Holding.sound {held : Bytes} (h : Holding c held store)
    (hnamed : Named remote c.locator c.etag whole) (hheld : held <+: whole) : Sound remote store := by
  intro c' hc' hstrong
  cases h.checkpoint.symm.trans hc'
  rw [h.part, hnamed hstrong]
  exact hheld

/-- A download that goes on has the beginning of what its entity tag names. -/
structure Resumes (locator : Text) (previous : Option Checkpoint) (offset : ℕ) (store : Store) :
    Prop where
  checkpoint : 0 < offset → ∃ c, previous = some c ∧ store.checkpoint = some c ∧
    c.locator = locator ∧ isStrong c.etag = true
  length : 0 < offset → (store.part.getD []).length = offset

/-! ## The steps -/

variable {α : Type} {pre : Store → Prop}

variable {broken : Store → Prop} {post : α → Store → Prop}

variable {effect : Store → α × Store}

theorem atomically_spec (hbroken : ∀ s, pre s → broken s)
    (h : ∀ s, pre s → post (effect s).1 (effect s).2) :
    Meets pre (atomically effect) (.orElse post broken) := by
  refine Meets.step fun outcome s hs => ?_
  cases outcome with
  | done => exact h s hs
  | failed e kept => exact hbroken s hs

theorem mayFail_spec (hbroken : ∀ s, pre s → broken s) :
    Meets pre mayFail (.orElse (fun _ => pre) broken) :=
  atomically_spec hbroken fun _ hs => hs

theorem ignoring_spec {p : Download α} {post : Store → Prop}
    (h : Meets pre p (.orElse (fun _ => post) post))
    (hbroken : ∀ s, post s → broken s) : Meets pre (ignoring p) (.orElse (fun _ => post) broken) := by
  refine Meets.bind (fun _ => post) (Meets.attempt ?_) fun _ => Meets.pure fun _ hs => hs
  exact h.weaken (fun _ h => h) (fun _ _ h => h) (fun _ _ h => h) hbroken

/-- Without its checkpoint, or with it, the partial file is sound. -/
theorem removeCheckpoint_spec {q : Option Bytes → Prop} (hbroken : ∀ s, Sound remote s → broken s) :
    Meets (fun s => Sound remote s ∧ q s.published) removeCheckpoint
      (.orElse (fun _ s => Sound remote s ∧ q s.published) broken) :=
  ignoring_spec (atomically_spec (fun _ hs => hs) fun _ hs => ⟨nofun, hs.2⟩) fun s hs =>
    hbroken s hs.1

theorem writeAll_spec {held bytes : Bytes}
    (hbroken : ∀ s kept, Holding c (held ++ bytes.take kept) s → broken s) :
    Meets (Holding c held) (writeAll bytes) (.orElse (fun _ => Holding c (held ++ bytes)) broken) := by
  refine Meets.step fun outcome s hs => ?_
  cases outcome with
  | done => exact ⟨congrArg (Option.map (· ++ bytes)) hs.part, hs.checkpoint⟩
  | failed e kept =>
    exact hbroken _ kept ⟨congrArg (Option.map (· ++ bytes.take kept)) hs.part, hs.checkpoint⟩

/-- The loop appends what arrives; where it breaks off, the file holds a beginning of it. -/
theorem receive_spec {expected : Option ℕ} (body : List Event) (held : Bytes) (received : ℕ)
    (hbroken : ∀ s got, got <+: delivered body → Holding c (held ++ got) s → broken s) :
    Meets (Holding c held) (receive expected received body)
      (.orElse (fun r s => Holding c (held ++ delivered body) s ∧ arrives body = true ∧
        r = received + (delivered body).length) broken) := by
  have hstay (s : Store) (hs : Holding c held s) : broken s :=
    hbroken s [] List.nil_prefix (by rwa [List.append_nil])
  induction body generalizing held received with
  | nil =>
    refine Meets.pure fun s hs => ⟨?_, rfl, rfl⟩
    show Holding c (held ++ []) s
    rwa [List.append_nil]
  | cons event body ih =>
    cases event with
    | cancelled =>
      refine Meets.bind _ (mayFail_spec hstay) fun _ => ?_
      exact Meets.bind _ (mayFail_spec hstay) fun _ => Meets.fail hstay
    | error message => exact Meets.bind _ (mayFail_spec hstay) fun _ => Meets.fail hstay
    | chunk bytes =>
      have hwritten (s : Store) (kept : ℕ) (hs : Holding c (held ++ bytes.take kept) s) :
          broken s :=
        hbroken s _ ((List.take_prefix kept bytes).trans (List.prefix_append _ _)) hs
      have hrest (s : Store) (got : Bytes) (hgot : got <+: delivered body)
          (hs : Holding c ((held ++ bytes) ++ got) s) : broken s := by
        rw [List.append_assoc] at hs
        exact hbroken s _ ((List.prefix_append_right_inj bytes).mpr hgot) hs
      have hgo : Meets (Holding c held) (if expected.any (· < received + bytes.length) then
          Program.fail "Download exceeded its declared size".toList
        else do
          writeAll bytes
          receive expected (received + bytes.length) body)
        (.orElse (fun r s => Holding c (held ++ delivered (.chunk bytes :: body)) s ∧
          arrives (.chunk bytes :: body) = true ∧
          r = received + (delivered (.chunk bytes :: body)).length) broken) := by
        split
        · exact Meets.fail hstay
        · refine Meets.bind _ (writeAll_spec hwritten) fun _ => ?_
          refine (ih (held ++ bytes) (received + bytes.length) hrest ?_).weaken (fun _ h => h)
            (fun r s h => ?_) (fun _ _ h => h) fun _ h => h
          · intro s hs
            exact hrest s [] List.nil_prefix (by rwa [List.append_nil])
          · obtain ⟨hs, harrives, rfl⟩ := h
            refine ⟨?_, harrives, ?_⟩
            · rwa [delivered, ← List.append_assoc]
            · rw [delivered, List.length_append, Nat.add_assoc]
      unfold receive
      by_cases hnone : expected.isNone = true
      · rw [if_pos hnone]
        exact Meets.bind _ (mayFail_spec hstay) fun _ => hgo
      · rw [if_neg hnone]
        exact hgo

/-! ## An attempt -/

/-- The partial file has been opened where the plan starts. -/
structure Opened (remote : Remote) (whole : Bytes) (offset : ℕ) (held : Bytes) (store : Store) :
    Prop where
  sound : Sound remote store
  part : store.part = some held
  length : held.length = offset
  beginning : held <+: whole

theorem openPartial_spec {offset : ℕ} {etag : Text} (hnamed : Named remote locator etag whole)
    (hetag : 0 < offset → some etag = previous.map Checkpoint.etag) :
    Meets (fun s => Sound remote s ∧ Resumes locator previous offset s) (openPartial (offset == 0))
      (.orElse (fun _ s => ∃ held, Opened remote whole offset held s) (Sound remote)) := by
  refine atomically_spec (fun s hs => hs.1) fun s hs => ?_
  obtain ⟨hsound, hresumes⟩ := hs
  rcases Nat.eq_zero_or_pos offset with rfl | hpos
  · exact ⟨[], fun _ _ _ => List.nil_prefix, rfl, rfl, List.nil_prefix⟩
  · rw [beq_false_of_ne (Nat.ne_of_gt hpos)]
    obtain ⟨c, rfl, hc, rfl, hstrong⟩ := hresumes.checkpoint hpos
    have hsame : etag = c.etag := Option.some_inj.mp (hetag hpos)
    subst hsame
    have hbeginning := hsound c hc hstrong
    rw [hnamed hstrong] at hbeginning
    refine ⟨s.part.getD [], fun c' hc' hstrong' => ?_, rfl, hresumes.length hpos, hbeginning⟩
    exact hsound c' hc' hstrong'

/-- The part of an attempt from the answer on. -/
theorem accept_spec {p : Plan} (hhonest : Honest remote locator response whole)
    (hfits : Fits p response.body whole) :
    Meets (fun s => Sound remote s ∧ Resumes locator previous p.offset s)
      (accept locator previous response p)
      (.orElse (fun _ s => Sound remote s ∧ s.published = some whole) (Sound remote)) := by
  unfold accept
  refine Meets.bind _ (mayFail_spec fun s hs => hs.1) fun _ => ?_
  dsimp only
  split
  · refine Meets.bind (fun _ s => Sound remote s ∧ True) ?_ fun _ => Meets.fail fun _ hs => hs.1
    exact (removeCheckpoint_spec (q := fun _ => True) fun _ hs => hs).weaken
      (fun _ hs => ⟨hs.1, trivial⟩) (fun _ _ h => h) (fun _ _ h => h) fun _ h => h
  · next hetag =>
    have hsame (hpos : 0 < p.offset) : some (response.etag.getD []) = previous.map Checkpoint.etag :=
      not_not.mp fun hne => hetag ⟨hpos, hne⟩
    refine Meets.bind _ (openPartial_spec hhonest.named hsame) fun _ => Meets.of_exists fun held => ?_
    let c : Checkpoint := ⟨locator, response.etag.getD [], p.total⟩
    refine Meets.bind (fun _ s => Holding c held s ∧ held.length = p.offset ∧ held <+: whole)
      (atomically_spec (fun s hs => hs.sound) fun s hs => ⟨⟨hs.part, rfl⟩, hs.length, hs.beginning⟩)
      fun _ => ?_
    refine Meets.of_imp (q := held.length = p.offset ∧ held <+: whole) (fun s hs => hs.2) fun hheld => ?_
    obtain ⟨hlength, later, rfl⟩ := hheld
    -- what arrives goes on where the file ends
    have hbytes : delivered response.body <+: later := by
      have h := hfits.bytes
      rwa [← hlength, List.drop_left] at h
    have hsound (s : Store) (got : Bytes) (hgot : got <+: delivered response.body)
        (hs : Holding c (held ++ got) s) : Sound remote s :=
      hs.sound hhonest.named ((List.prefix_append_right_inj held).mpr (hgot.trans hbytes))
    refine Meets.bind _ ((receive_spec response.body held 0 hsound).weaken (fun _ hs => hs.1)
      (fun _ _ h => h) (fun _ _ h => h) fun _ h => h) fun received => ?_
    refine Meets.of_imp (fun s hs => hs.2) fun hreceived => ?_
    obtain ⟨harrives, hcount⟩ := hreceived
    rw [Nat.zero_add] at hcount
    subst hcount
    have hend (s : Store) (hs : Holding c (held ++ delivered response.body) s) : Sound remote s :=
      hsound s _ (List.prefix_refl _) hs
    refine Meets.bind (fun _ s => Holding c (held ++ delivered response.body) s)
      ((mayFail_spec hend).weaken (fun _ hs => hs.1) (fun _ _ h => h) (fun _ _ h => h)
        fun _ h => h) fun _ => ?_
    split
    · exact Meets.fail hend
    · next hcomplete =>
      have htotal (total : ℕ) (h : p.total = some total) :
          total = p.offset + (delivered response.body).length := by
        rw [not_or, h] at hcomplete
        exact not_not.mp fun hne => hcomplete.2 (decide_eq_true hne)
      have hlengths := hfits.complete harrives htotal
      have hwhole : held ++ delivered response.body = held ++ later := by
        rw [hbytes.eq_of_length]
        rw [List.length_append, hlength] at hlengths
        exact Nat.add_left_cancel hlengths
      refine Meets.bind _ (mayFail_spec hend) fun _ => ?_
      refine Meets.bind (fun _ s => Sound remote s ∧ s.published = some (held ++ later))
        (atomically_spec hend fun s hs => ⟨fun _ _ _ => List.nil_prefix, ?_⟩) fun _ => ?_
      · exact hs.part.trans (congrArg some hwhole)
      · exact removeCheckpoint_spec (q := fun published => published = some (held ++ later))
          fun _ hs => hs

theorem orDefault_spec {p : Download α} {fallback : α}
    (h : Meets pre p ⟨post, fun _ => post fallback, broken⟩) :
    Meets pre (orDefault fallback p) (.orElse post broken) := by
  refine Meets.bind (fun result s => post (result.toOption.getD fallback) s) (Meets.attempt h)
    fun result => ?_
  cases result with
  | ok a => exact Meets.pure fun _ hs => hs
  | error e => exact Meets.pure fun _ hs => hs

theorem atomically_orDefault_spec {fallback : α}
    (h : ∀ s, pre s → post (effect s).1 (effect s).2) (hfallback : ∀ s, pre s → post fallback s) :
    Meets pre (orDefault fallback (atomically effect)) (.orElse post broken) := by
  refine orDefault_spec (Meets.step fun outcome s hs => ?_)
  cases outcome with
  | done => exact h s hs
  | failed e kept => exact hfallback s hs

/-- What an attempt goes on from. -/
theorem resumes_startOffset {saved : Option Checkpoint} {length : ℕ}
    (hsaved : ∀ c, saved = some c → store.checkpoint = some c)
    (hlength : 0 < length → (store.part.getD []).length = length) :
    Resumes locator (usable locator saved) (startOffset (usable locator saved) length) store := by
  unfold startOffset
  cases hprevious : usable locator saved with
  | none => exact ⟨fun hpos => absurd hpos (Nat.lt_irrefl 0), fun hpos => absurd hpos (Nat.lt_irrefl 0)⟩
  | some c =>
    obtain ⟨hc, hfilter⟩ := Option.filter_eq_some_iff.mp hprevious
    rw [Bool.and_eq_true, beq_iff_eq] at hfilter
    exact ⟨fun _ => ⟨c, rfl, hsaved c hc, hfilter.1, hfilter.2⟩, hlength⟩

/-- One attempt, from a partial file that is sound. -/
theorem downloadWithRefresh_spec {reply : Option RangeRequest → Except Text Response}
    (hreply : HonestReply remote locator reply) :
    Meets (Sound remote) (downloadWithRefresh locator reply) (.orElse (fun _ s => Sound remote s ∧
        ∃ whole, remote.revision locator whole ∧ s.published = some whole) (Sound remote)) := by
  unfold downloadWithRefresh
  refine Meets.bind _ (mayFail_spec fun _ hs => hs) fun _ => ?_
  refine Meets.bind (fun saved s => Sound remote s ∧ ∀ c, saved = some c → s.checkpoint = some c)
    (atomically_orDefault_spec (fun s hs => ⟨hs, fun _ hc => hc⟩) fun s hs => ⟨hs, nofun⟩)
    fun saved => ?_
  refine Meets.bind (fun length s => (Sound remote s ∧ ∀ c, saved = some c →
    s.checkpoint = some c) ∧ (0 < length → (s.part.getD []).length = length))
    (atomically_orDefault_spec (fun s hs => ⟨hs, fun _ => rfl⟩) fun s hs =>
      ⟨hs, fun hpos => absurd hpos (Nat.lt_irrefl 0)⟩) fun length => ?_
  refine Meets.bind (fun response s => (Sound remote s ∧
      Resumes locator (usable locator saved) (startOffset (usable locator saved) length) s) ∧
      ∃ whole, Honest remote locator response whole)
    (Meets.lift (fun response s hresponse hs =>
      ⟨⟨hs.1.1, resumes_startOffset hs.1.2 hs.2⟩, hreply _ response hresponse⟩)
      fun _ s _ hs => hs.1.1) fun response => ?_
  refine Meets.of_imp (fun s hs => hs.2) fun ⟨whole, hhonest⟩ => ?_
  split
  · refine Meets.bind (fun _ s => Sound remote s ∧ True) ?_ fun _ => Meets.fail fun _ hs => hs.1
    exact (removeCheckpoint_spec (q := fun _ => True) fun _ hs => hs).weaken
      (fun _ hs => ⟨hs.1.1, trivial⟩) (fun _ _ h => h) (fun _ _ h => h) fun _ h => h
  · refine Meets.bind (fun p s => (Sound remote s ∧ Resumes locator (usable locator saved)
        p.offset s) ∧ Fits p response.body whole)
      (Meets.lift (fun p s hplan hs => ?_) fun _ s _ hs => hs.1.1) fun p => ?_
    · obtain ⟨hfits, hoffset⟩ := plan_cases hhonest hplan
      refine ⟨⟨hs.1.1, ?_⟩, hfits⟩
      obtain hzero | hsame := hoffset
      · rw [hzero]
        exact ⟨fun hpos => absurd hpos (Nat.lt_irrefl 0), fun hpos => absurd hpos (Nat.lt_irrefl 0)⟩
      · rw [hsame]
        exact hs.1.2
    · refine Meets.of_imp (fun s hs => hs.2) fun hfits => ?_
      exact (accept_spec hhonest hfits).weaken (fun _ hs => hs.1)
        (fun _ _ h => ⟨h.1, whole, hhonest.revision, h.2⟩) (fun _ _ h => h) fun _ h => h

/-! ## Sequences of attempts -/

/-- An attempt: what it asks for, what it gets, and which of its steps fail. -/
structure Attempt where
  locator : Text
  reply : Option RangeRequest → Except Text Response
  outcomes : List Outcome

namespace Attempt

def run (store : Store) (attempt : Attempt) : Ending Text Unit × Store :=
  let result := downloadWithRefresh attempt.locator attempt.reply attempt.outcomes store
  (result.1, result.2.2)

/-- The store after one attempt after another. -/
def runs (attempts : List Attempt) (store : Store) : Store :=
  attempts.foldl (fun store attempt => (run store attempt).2) store

end Attempt

/-- Where the next download of the locator would start. -/
def nextOffset (locator : Text) (store : Store) : ℕ :=
  startOffset (usable locator store.checkpoint) (store.part.getD []).length

theorem run_spec {attempt : Attempt} (h : HonestReply remote attempt.locator attempt.reply)
    (hstore : Sound remote store) : Sound remote (attempt.run store).2 ∧
      ((attempt.run store).1 = .ok () → ∃ whole, remote.revision attempt.locator whole ∧
        (attempt.run store).2.published = some whole) := by
  have hrun := downloadWithRefresh_spec h attempt.outcomes store hstore
  refine ⟨hrun.elim (q := Sound remote) (fun _ h => h.1) (fun _ h => h) fun h => h, fun hok => ?_⟩
  rw [show (downloadWithRefresh attempt.locator attempt.reply attempt.outcomes store).1 = .ok ()
    from hok] at hrun
  exact hrun.2

theorem sound_runs {attempts : List Attempt}
    (hhonest : ∀ a ∈ attempts, HonestReply remote a.locator a.reply) (hstore : Sound remote store) :
    Sound remote (Attempt.runs attempts store) := by
  induction attempts generalizing store with
  | nil => exact hstore
  | cons attempt attempts ih =>
    exact ih (fun a ha => hhonest a (List.mem_cons_of_mem attempt ha))
      (run_spec (hhonest attempt List.mem_cons_self) hstore).1

/-- Attempts end in any way, one after another, against a server that always answers from one
revision. One that succeeds has published one whole revision; and after every one the partial file is
a beginning of what the entity tag of the checkpoint names, or the next one starts from nothing. -/
theorem resumed_download_whole (remote : Remote) (start : Store) (hstart : Sound remote start)
    (attempts : List Attempt) (hhonest : ∀ a ∈ attempts, HonestReply remote a.locator a.reply)
    (last : Attempt) (hlast : HonestReply remote last.locator last.reply) :
    let result := last.run (Attempt.runs attempts start)
    (result.1 = .ok () → ∃ whole, remote.revision last.locator whole ∧
      result.2.published = some whole) ∧
    ((∃ c, result.2.checkpoint = some c ∧
      result.2.part.getD [] <+: remote.content c.locator c.etag) ∨
      ∀ locator, nextOffset locator result.2 = 0) := by
  intro result
  obtain ⟨hsound, hok⟩ := run_spec hlast (sound_runs hhonest hstart)
  refine ⟨hok, ?_⟩
  by_cases hnamed : ∃ c, result.2.checkpoint = some c ∧ isStrong c.etag = true
  · obtain ⟨c, hc, hstrong⟩ := hnamed
    exact .inl ⟨c, hc, hsound c hc hstrong⟩
  · refine .inr fun locator => ?_
    unfold nextOffset startOffset
    rw [if_pos]
    rw [Option.isNone_iff_eq_none, usable, Option.filter_eq_none_iff]
    intro c hc hfilter
    rw [Bool.and_eq_true] at hfilter
    exact hnamed ⟨c, hc, hfilter.2⟩

/-- One revision of eight bytes. -/
def eightRemote : Remote := ⟨fun _ whole => whole = [1, 2, 3, 4, 5, 6, 7, 8], fun _ _ =>
  [1, 2, 3, 4, 5, 6, 7, 8]⟩

/-- The first half arrives, then the download is cancelled. -/
def firstHalf : Attempt where
  locator := "file".toList
  reply := fun _ => .ok ⟨200, some 8, none, some "v1".toList, [.chunk [1, 2, 3, 4], .cancelled]⟩
  outcomes := []

def secondHalf : Attempt where
  locator := "file".toList
  reply := fun _ =>
    .ok ⟨206, none, some "bytes 4-7/8".toList, some "v1".toList, [.chunk [5, 6, 7, 8]]⟩
  outcomes := []

theorem firstHalf_honest : HonestReply eightRemote firstHalf.locator firstHalf.reply := by
  rintro request response ⟨⟩
  refine ⟨_, rfl, fun _ => rfl, fun _ => by decide, fun _ n hn => ?_, fun _ hnone => ?_,
    fun h => absurd h (by decide)⟩
  · cases hn
    rfl
  · cases hnone

theorem secondHalf_honest : HonestReply eightRemote secondHalf.locator secondHalf.reply := by
  rintro request response ⟨⟩
  refine ⟨_, rfl, fun _ => rfl, fun h => absurd h (by decide), fun h => absurd h (by decide),
    fun h => absurd h (by decide), fun _ text offset length total htext hrange => ?_⟩
  cases htext
  have hparsed : contentRange "bytes 4-7/8".toList offset =
      if 4 ≠ offset ∨ 7 < 4 ∨ 8 ≤ 7 then
        throw "Unexpected Content-Range; partial data was not appended".toList
      else pure (4, 8) := rfl
  rw [hparsed] at hrange
  split at hrange
  · cases hrange
  · next hsame =>
    cases hrange
    obtain rfl : 4 = offset := not_not.mp fun hne => hsame (.inl hne)
    exact ⟨rfl, by decide⟩

/-- The second attempt appends the other half. -/
theorem resumed_download_whole_halves :
    let result := secondHalf.run (Attempt.runs [firstHalf] ⟨none, none, some [0]⟩)
    result.1 = .ok () ∧ result.2.published = some [1, 2, 3, 4, 5, 6, 7, 8] ∧
      ∃ whole, eightRemote.revision secondHalf.locator whole ∧ result.2.published = some whole := by
  have hok : (secondHalf.run (Attempt.runs [firstHalf] ⟨none, none, some [0]⟩)).1 = .ok () := by
    decide
  have hattempts : ∀ a ∈ [firstHalf], HonestReply eightRemote a.locator a.reply := by
    intro a ha
    rw [List.mem_singleton.mp ha]
    exact firstHalf_honest
  exact ⟨hok, by decide, (resumed_download_whole eightRemote ⟨none, none, some [0]⟩ nofun
    [firstHalf] hattempts secondHalf secondHalf_honest).1 hok⟩

end Taomni.Backup
