import Taomni.Common.Runs
import Taomni.Mobile.Auth

/-!
# Runs of the pairing service

What the service has answered is kept in a log, and the credentials are judged by the log alone: a token
is accepted for a device that was paired with it, a code pairs one device, a ticket is redeemed once.

Reference: `src-tauri/src/mobile/auth.rs`.
-/

namespace Taomni.Mobile

open List

/-! ## Requests and their log -/

inductive Request where
  | clock (elapsed : ℕ) (utc : ℤ)
  | pairingCode (code : String)
  | pair (label code : String) (origin : Option String) (source token deviceId : String)
      (fault : Option SaveFault)
  | authenticate (token : String) (fault : Option SaveFault)
  | ticket (device : String) (origin : Option String) (secret : String)
  | consumeTicket (secret : String) (origin : Option String)
  | revoke (deviceId : String) (fault : Option SaveFault)
  | clearEphemeral
  | flush (fault : Option SaveFault)
  | removeFile

/-- The secrets made for a request. -/
def Request.secrets : Request → List String
  | pairingCode code => [code]
  | pair _ _ _ _ token deviceId _ => [token, deviceId]
  | ticket _ _ secret => [secret]
  | _ => []

/-- What the service has answered. A device is used when its token is presented. -/
inductive Event where
  | codeShown (code : String)
  | paired (code token deviceId : String)
  | authenticated (token deviceId : String)
  | used (deviceId : String)
  | revoked (deviceId : String)
  | ticketIssued (secret device : String) (origin : Option String)
  | ticketRedeemed (secret device : String) (origin : Option String)
deriving DecidableEq

structure Entry where
  now : Clock
  event : Event
deriving DecidableEq

structure Service where
  auth : Auth := {}
  now : Clock := {}
  log : List Entry := []

namespace Service

def record (s : Service) (auth : Auth) (events : List Event) : Service :=
  { s with auth, log := s.log ++ events.map fun event => ⟨s.now, event⟩ }

@[simp] theorem record_auth (s : Service) (auth : Auth) (events : List Event) :
    (s.record auth events).auth = auth :=
  rfl

variable (hash : String → String)

def step (s : Service) : Request → Service
  | .clock elapsed utc => { s with now := ⟨s.now.instant + elapsed, utc⟩ }
  | .pairingCode code => s.record (s.auth.pairingCode hash s.now code) [.codeShown code]
  | .pair label code origin source token deviceId fault =>
    let (auth, answer) := s.auth.pair hash s.now label code origin source token deviceId fault
    s.record auth (answer.toOption.map fun p => Event.paired code p.token p.deviceId).toList
  | .authenticate token fault =>
    let used :=
      if s.auth.file.isMissing then none else s.auth.recognize hash s.now token
    let (auth, answer) := s.auth.authenticate hash s.now token fault
    s.record auth
      ((answer.map (Event.authenticated token)).toList ++
        (used.map fun d => Event.used d.deviceId).toList)
  | .ticket device origin secret =>
    let (auth, answer) := s.auth.ticket hash s.now device origin secret
    s.record auth (answer.toOption.map fun t => Event.ticketIssued t device origin).toList
  | .consumeTicket secret origin =>
    let (auth, answer) := s.auth.consumeTicket hash s.now secret origin
    s.record auth (answer.map fun device => Event.ticketRedeemed secret device origin).toList
  | .revoke deviceId fault =>
    let (auth, answer) := s.auth.revoke deviceId fault
    s.record auth (answer.toOption.map fun _ => Event.revoked deviceId).toList
  | .clearEphemeral => s.record s.auth.clearEphemeral []
  | .flush fault => s.record (s.auth.flush fault).1 []
  | .removeFile =>
    match s.auth.file with
    | .saved _ => s.record { s.auth with file := .missing } []
    | _ => s

end Service

/-! ## What the log says -/

/-- When a device was used last, from its pairing on. -/
def lastUse (deviceId : String) (paired : ℤ) (since : List Entry) : ℤ :=
  since.foldl (fun t e => if e.event = .used deviceId then e.now.utc else t) paired

/-- A device was paired with a token, has not been revoked, and is within its limits. -/
def DeviceLive (log : List Entry) (utc : ℤ) (token deviceId : String) : Prop :=
  ∃ before at_ code since, log = before ++ ⟨at_, .paired code token deviceId⟩ :: since ∧
    (∀ e ∈ since, e.event ≠ .revoked deviceId) ∧ utc < at_.utc + tokenLifetime ∧
    utc < lastUse deviceId at_.utc since + tokenIdle

/-- A code was shown, and no device has been paired with it. -/
def CodeOpen (log : List Entry) (code : String) (shown : Clock) : Prop :=
  ⟨shown, .codeShown code⟩ ∈ log ∧ ∀ e ∈ log, ∀ token deviceId, e.event ≠ .paired code token deviceId

/-- A ticket was issued, and has not been redeemed. -/
def TicketOpen (log : List Entry) (secret device : String) (origin : Option String) (issued : Clock) :
    Prop :=
  ⟨issued, .ticketIssued secret device origin⟩ ∈ log ∧
    ∀ e ∈ log, ∀ device origin, e.event ≠ .ticketRedeemed secret device origin

/-- An answer is right after what was answered before. -/
def Justified (log : List Entry) (entry : Entry) : Prop :=
  match entry.event with
  | .authenticated token deviceId => DeviceLive log entry.now.utc token deviceId
  | .paired code _ _ =>
    ∃ shown, CodeOpen log code shown ∧ entry.now.instant < shown.instant + fromSecs 300
  | .ticketRedeemed secret device origin =>
    (∃ issued, TicketOpen log secret device origin issued ∧
      entry.now.instant < issued.instant + fromSecs 60) ∧
    ∃ token, DeviceLive log entry.now.utc token device
  | _ => True

/-! ## The state by the log -/

/-- What a device in the list says about the log. -/
def Enrolled (hash : String → String) (log : List Entry) (d : Device) : Prop :=
  ∃ before at_ code token since, log = before ++ ⟨at_, .paired code token d.deviceId⟩ :: since ∧
    (∀ e ∈ since, e.event ≠ .revoked d.deviceId) ∧ d.createdAt = at_.utc ∧
    d.lastUsedAt = lastUse d.deviceId at_.utc since ∧ d.tokenHash = hash token

theorem lastUse_concat (deviceId : String) (paired : ℤ) (since : List Entry) (e : Entry) :
    lastUse deviceId paired (since ++ [e]) =
      if e.event = .used deviceId then e.now.utc else lastUse deviceId paired since := by
  unfold lastUse
  rw [foldl_append]
  rfl

variable {d : Device} {log : List Entry}

theorem Enrolled.concat {hash : String → String} {e : Entry}
    (h : Enrolled hash log d) (hrevoked : e.event ≠ .revoked d.deviceId)
    (hused : e.event ≠ .used d.deviceId) : Enrolled hash (log ++ [e]) d := by
  obtain ⟨before, at_, code, token, since, rfl, hsince, hcreated, hlast, htoken⟩ := h
  refine ⟨before, at_, code, token, since ++ [e], ?_, ?_, hcreated, ?_, htoken⟩
  · rw [append_assoc, cons_append]
  · intro e' he'
    rcases mem_append.mp he' with he' | he'
    · exact hsince e' he'
    · rw [mem_singleton.mp he']
      exact hrevoked
  · rw [lastUse_concat, if_neg hused, hlast]

theorem Enrolled.use {hash : String → String} (h : Enrolled hash log d) (now : Clock) :
    Enrolled hash (log ++ [⟨now, .used d.deviceId⟩]) { d with lastUsedAt := now.utc } := by
  obtain ⟨before, at_, code, token, since, rfl, hsince, hcreated, -, htoken⟩ := h
  refine ⟨before, at_, code, token, since ++ [⟨now, .used d.deviceId⟩], ?_, ?_, hcreated, ?_, htoken⟩
  · rw [append_assoc, cons_append]
  · intro e he
    rcases mem_append.mp he with he | he
    · exact hsince e he
    · rw [mem_singleton.mp he]
      exact Event.noConfusion
  · rw [lastUse_concat, if_pos rfl]

theorem Enrolled.live {hash : String → String}
    (h : Enrolled hash log d) {now : ℤ} (hvalid : valid d now = true) :
    ∃ token, hash token = d.tokenHash ∧ DeviceLive log now token d.deviceId := by
  obtain ⟨before, at_, code, token, since, rfl, hsince, hcreated, hlast, htoken⟩ := h
  obtain ⟨hlife, hidle⟩ := valid_lt hvalid
  refine ⟨token, htoken.symm, before, at_, code, since, rfl, hsince, ?_, ?_⟩
  · rwa [← hcreated]
  · rwa [← hlast]

variable {code : String}

theorem CodeOpen.concat {shown : Clock} {e : Entry}
    (h : CodeOpen log code shown) (he : ∀ token deviceId, e.event ≠ .paired code token deviceId) :
    CodeOpen (log ++ [e]) code shown := by
  refine ⟨mem_append_left _ h.1, fun e' he' => ?_⟩
  rcases mem_append.mp he' with he' | he'
  · exact h.2 e' he'
  · rw [mem_singleton.mp he']
    exact he

theorem TicketOpen.concat {secret device : String} {origin : Option String}
    {issued : Clock} {e : Entry} (h : TicketOpen log secret device origin issued)
    (he : ∀ device origin, e.event ≠ .ticketRedeemed secret device origin) :
    TicketOpen (log ++ [e]) secret device origin issued := by
  refine ⟨mem_append_left _ h.1, fun e' he' => ?_⟩
  rcases mem_append.mp he' with he' | he'
  · exact h.2 e' he'
  · rw [mem_singleton.mp he']
    exact he

/-- The secrets that an answer shows or takes. -/
def Event.secrets : Event → List String
  | codeShown code => [code]
  | paired code _ deviceId => [code, deviceId]
  | ticketIssued secret _ _ => [secret]
  | ticketRedeemed secret _ _ => [secret]
  | _ => []

/-- The state of the service by its log and the secrets made so far. -/
structure Service.Inv (hash : String → String) (made : List String) (s : Service) : Prop where
  justified : EachAfter Justified s.log
  devices : ∀ d ∈ s.auth.devices, Enrolled hash s.log d
  ids : (s.auth.devices.map Device.deviceId).Nodup
  code : ∀ digest expires, s.auth.code = some (digest, expires) →
    ∃ code shown, digest = hash code ∧ CodeOpen s.log code shown ∧
      expires = shown.instant + fromSecs 300
  tickets : ∀ digest ticket, (digest, ticket) ∈ s.auth.tickets →
    ∃ secret issued, digest = hash secret ∧
      TicketOpen s.log secret ticket.device ticket.origin issued ∧
      ticket.expires = issued.instant + fromSecs 60
  known : ∀ e ∈ s.log, ∀ secret ∈ e.event.secrets, secret ∈ made

namespace Service.Inv

variable {hash : String → String} {made : List String} {s : Service}

variable {auth : Auth}

/-- A call that adds nothing. -/
theorem shrink (h : Inv hash made s) (hcode : auth.code = s.auth.code ∨ auth.code = none)
    (hdevices : auth.devices.Sublist s.auth.devices) (htickets : auth.tickets ⊆ s.auth.tickets)
    (now : Clock) (more : List String) : Inv hash (made ++ more) { s with auth, now } where
  justified := h.justified
  devices d hd := h.devices d (hdevices.subset hd)
  ids := h.ids.sublist (hdevices.map _)
  code digest expires hopen := by
    rcases hcode with hcode | hcode
    · exact h.code digest expires (hcode.symm.trans hopen)
    · rw [show auth.code = none from hcode] at hopen
      cases hopen
  tickets digest ticket hmem := h.tickets digest ticket (htickets hmem)
  known e he secret hsecret := mem_append_left _ (h.known e he secret hsecret)

/-- An answer that opens and uses up nothing. -/
theorem answer (h : Inv hash made s) {e : Event} (hjustified : Justified s.log ⟨s.now, e⟩)
    (hrevoked : ∀ d ∈ s.auth.devices, e ≠ .revoked d.deviceId)
    (hused : ∀ d ∈ s.auth.devices, e ≠ .used d.deviceId) (hsecrets : ∀ x ∈ e.secrets, x ∈ made)
    (hcode : s.auth.code = none ∨ ∀ code token deviceId, e ≠ .paired code token deviceId)
    (htickets : ∀ secret device origin, e = .ticketRedeemed secret device origin →
      ∀ t ∈ s.auth.tickets, t.1 ≠ hash secret) :
    Inv hash made { s with log := s.log ++ [⟨s.now, e⟩] } where
  justified := eachAfter_concat.mpr ⟨h.justified, hjustified⟩
  devices d hd := (h.devices d hd).concat (hrevoked d hd) (hused d hd)
  ids := h.ids
  code digest expires hopen := by
    rcases hcode with hnone | hcode
    · rw [show s.auth.code = none from hnone] at hopen
      cases hopen
    · obtain ⟨code, shown, hdigest, hcodeOpen, hexpires⟩ := h.code digest expires hopen
      exact ⟨code, shown, hdigest, hcodeOpen.concat (hcode code), hexpires⟩
  tickets digest ticket hmem := by
    obtain ⟨secret, issued, rfl, hticket, hexpires⟩ := h.tickets digest ticket hmem
    refine ⟨secret, issued, rfl, hticket.concat fun device origin heq => ?_, hexpires⟩
    exact htickets secret device origin heq _ hmem rfl
  known e' he' := by
    rcases mem_append.mp he' with he' | he'
    · exact h.known e' he'
    · rw [mem_singleton.mp he']
      exact hsecrets

theorem code_made {shown : Clock} (h : Inv hash made s)
    (hopen : CodeOpen s.log code shown) : code ∈ made :=
  h.known _ hopen.1 code mem_cons_self

theorem id_made (h : Inv hash made s) (hd : d ∈ s.auth.devices) : d.deviceId ∈ made := by
  obtain ⟨before, at_, code, token, since, hlog, -⟩ := h.devices d hd
  refine h.known ⟨at_, .paired code token d.deviceId⟩ ?_ d.deviceId
    (mem_cons_of_mem _ mem_cons_self)
  rw [hlog]
  exact mem_append_right _ mem_cons_self

theorem pairingCode (h : Inv hash made s) (hfresh : code ∉ made) :
    Inv hash (made ++ [code]) (s.record (s.auth.pairingCode hash s.now code) [.codeShown code]) where
  justified := eachAfter_concat.mpr ⟨h.justified, trivial⟩
  devices d hd := (h.devices d hd).concat Event.noConfusion Event.noConfusion
  ids := h.ids
  code digest expires hopen := by
    obtain ⟨rfl, rfl⟩ := Prod.mk.inj (Option.some.inj hopen)
    refine ⟨code, s.now, rfl, ⟨mem_append_right _ mem_cons_self, ?_⟩, rfl⟩
    intro e he token deviceId heq
    rcases mem_append.mp he with he | he
    · -- A code that pairs has been shown before.
      refine hfresh (h.known e he code ?_)
      rw [heq]
      exact mem_cons_self
    · rw [mem_singleton.mp he] at heq
      cases heq
  tickets digest ticket hmem := by
    obtain ⟨secret, issued, hdigest, hticket, hexpires⟩ := h.tickets digest ticket hmem
    exact ⟨secret, issued, hdigest, hticket.concat fun _ _ => Event.noConfusion, hexpires⟩
  known e he secret hsecret := by
    rcases mem_append.mp he with he | he
    · exact mem_append_left _ (h.known e he secret hsecret)
    · rw [mem_singleton.mp he] at hsecret
      exact mem_append_right _ hsecret

theorem paired (hhash : Function.Injective hash) (h : Inv hash made s)
    {token deviceId : String} (hfresh : deviceId ∉ made)
    (hpaired : Auth.PairedWith hash s.now s.auth auth code token deviceId) :
    Inv hash (made ++ [token, deviceId]) (s.record auth [.paired code token deviceId]) := by
  obtain ⟨expires, hcode, hlt⟩ := hpaired.correct
  obtain ⟨code', shown, hdigest, hopen, rfl⟩ := h.code _ expires hcode
  obtain rfl := hhash hdigest
  obtain ⟨kept, device, hdevices, hkept, rfl, hcreated, hlast, htoken⟩ := hpaired.devices
  refine ⟨eachAfter_concat.mpr ⟨h.justified, shown, hopen, hlt⟩, ?_, ?_, ?_, ?_, ?_⟩
  · intro d hd
    rw [record_auth, hdevices] at hd
    rcases mem_append.mp hd with hd | hd
    · exact (h.devices d (hkept.subset hd)).concat Event.noConfusion Event.noConfusion
    · rw [mem_singleton.mp hd]
      exact ⟨s.log, s.now, code, token, [], rfl, fun _ he => absurd he not_mem_nil, hcreated,
        hlast, htoken⟩
  · rw [record_auth, hdevices, map_append, map_singleton]
    have hkeptIds := h.ids.sublist (hkept.map Device.deviceId)
    refine nodup_append.mpr ⟨hkeptIds, pairwise_singleton _ _, fun id hid id' hid' heq => ?_⟩
    obtain ⟨d, hd, rfl⟩ := mem_map.mp hid
    rw [mem_singleton] at hid'
    exact hfresh (hid' ▸ heq ▸ h.id_made (hkept.subset hd))
  · intro digest expires hopen
    rw [record_auth, hpaired.code] at hopen
    cases hopen
  · intro digest ticket hmem
    obtain ⟨secret, issued, hdigest, hticket, hexpires⟩ :=
      h.tickets digest ticket (hpaired.tickets hmem)
    exact ⟨secret, issued, hdigest, hticket.concat fun _ _ => Event.noConfusion, hexpires⟩
  · intro e he secret hsecret
    rcases mem_append.mp he with he | he
    · exact mem_append_left _ (h.known e he secret hsecret)
    · rw [mem_singleton.mp he] at hsecret
      rcases mem_cons.mp hsecret with rfl | hsecret
      · exact mem_append_left _ (h.code_made hopen)
      · exact mem_append_right _ (mem_cons_of_mem _ hsecret)

/-- A device that is recognized has been used now. -/
theorem use (h : Inv hash made s) {token : String}
    (hd : s.auth.recognize hash s.now token = some d) (hcode : auth.code = s.auth.code)
    (hdevices : auth.devices = Auth.touch hash s.now s.auth.devices token)
    (htickets : auth.tickets = s.auth.tickets) : Inv hash made (s.record auth [.used d.deviceId]) where
  justified := eachAfter_concat.mpr ⟨h.justified, trivial⟩
  devices x hx := by
    rw [record_auth, hdevices] at hx
    rcases Auth.mem_touch h.ids hd hx with rfl | ⟨hx, hne⟩
    · exact (h.devices d (Auth.recognize_spec hd).1).use s.now
    · refine (h.devices x hx).concat Event.noConfusion fun heq => hne ?_
      exact (Event.used.inj heq).symm
  ids := by
    rw [record_auth, hdevices, Auth.touch_ids]
    exact h.ids
  code digest expires hopen := by
    obtain ⟨code, shown, hdigest, hcodeOpen, hexpires⟩ := h.code digest expires (hcode ▸ hopen)
    exact ⟨code, shown, hdigest, hcodeOpen.concat fun _ _ => Event.noConfusion, hexpires⟩
  tickets digest ticket hmem := by
    obtain ⟨secret, issued, hdigest, hticket, hexpires⟩ := h.tickets digest ticket (htickets ▸ hmem)
    exact ⟨secret, issued, hdigest, hticket.concat fun _ _ => Event.noConfusion, hexpires⟩
  known e he secret hsecret := by
    rcases mem_append.mp he with he | he
    · exact h.known e he secret hsecret
    · rw [mem_singleton.mp he] at hsecret
      exact absurd hsecret not_mem_nil

theorem ticketIssued (h : Inv hash made s) {secret device : String}
    {origin : Option String} (hfresh : secret ∉ made) (hcode : auth.code = s.auth.code)
    (hdevices : auth.devices = s.auth.devices) (htickets : ∀ t ∈ auth.tickets, t ∈ s.auth.tickets ∨
      t = (hash secret, ⟨device, origin, s.now.instant + fromSecs 60⟩)) :
    Inv hash (made ++ [secret]) (s.record auth [.ticketIssued secret device origin]) where
  justified := eachAfter_concat.mpr ⟨h.justified, trivial⟩
  devices d hd := (h.devices d (hdevices ▸ hd)).concat Event.noConfusion Event.noConfusion
  ids := by
    rw [record_auth, hdevices]
    exact h.ids
  code digest expires hopen := by
    obtain ⟨code, shown, hdigest, hcodeOpen, hexpires⟩ := h.code digest expires (hcode ▸ hopen)
    exact ⟨code, shown, hdigest, hcodeOpen.concat fun _ _ => Event.noConfusion, hexpires⟩
  tickets digest ticket hmem := by
    rcases htickets _ hmem with hmem | heq
    · obtain ⟨secret', issued, hdigest, hticket, hexpires⟩ := h.tickets digest ticket hmem
      exact ⟨secret', issued, hdigest, hticket.concat fun _ _ => Event.noConfusion, hexpires⟩
    · obtain ⟨rfl, rfl⟩ := Prod.mk.inj heq
      refine ⟨secret, s.now, rfl, ⟨mem_append_right _ mem_cons_self, ?_⟩, rfl⟩
      intro e he device' origin' heq'
      rcases mem_append.mp he with he | he
      · -- A ticket that is redeemed has been issued before.
        refine hfresh (h.known e he secret ?_)
        rw [heq']
        exact mem_cons_self
      · rw [mem_singleton.mp he] at heq'
        cases heq'
  known e he x hx := by
    rcases mem_append.mp he with he | he
    · exact mem_append_left _ (h.known e he x hx)
    · rw [mem_singleton.mp he] at hx
      exact mem_append_right _ hx

/-! ## Steps -/

theorem step (hhash : Function.Injective hash) (h : Inv hash made s) (request : Request)
    (hfresh : (made ++ request.secrets).Nodup) :
    Inv hash (made ++ request.secrets) (s.step hash request) := by
  have hnew {x : String} (hx : x ∈ request.secrets) : x ∉ made := fun hmade =>
    (nodup_append.mp hfresh).2.2 x hmade x hx rfl
  have hsilent {auth : Auth} (hcode : auth.code = s.auth.code ∨ auth.code = none)
      (hdevices : auth.devices.Sublist s.auth.devices) (htickets : auth.tickets ⊆ s.auth.tickets) :
      Inv hash (made ++ request.secrets) (s.record auth []) := by
    have hshrunk := h.shrink hcode hdevices htickets s.now request.secrets
    unfold record
    rwa [map_nil, append_nil]
  cases request with
  | clock elapsed utc => exact h.shrink (.inl rfl) (.refl _) (List.Subset.refl _) _ _
  | pairingCode code => exact h.pairingCode (hnew mem_cons_self)
  | pair label code origin source token deviceId fault =>
    unfold Service.step
    rcases Auth.pair_cases hash s.now s.auth label code origin source token deviceId fault with
      ⟨e, herror, hkept⟩ | ⟨hok, hpaired⟩
    · dsimp only
      rw [herror]
      exact hsilent (.inl hkept.code) hkept.devices hkept.tickets
    · dsimp only
      rw [hok]
      exact h.paired hhash (hnew (mem_cons_of_mem _ mem_cons_self)) hpaired
  | authenticate token fault =>
    unfold Service.step
    obtain ⟨hcode, ⟨hfound, hnone, hdevices, htickets⟩ | ⟨d, hfound, hd, hanswer, hdevices, htickets⟩⟩ :=
      Auth.authenticate_cases hash s.now s.auth token fault
    · dsimp only
      rw [hfound, hnone]
      exact hsilent (.inl hcode) hdevices htickets
    · dsimp only
      rw [hfound]
      rw [show made ++ (Request.authenticate token fault).secrets = made from append_nil made]
      obtain ⟨hmem, hvalid, htoken⟩ := Auth.recognize_spec hd
      rcases hanswer with hnone | hsome
      · rw [hnone]
        exact h.use hd hcode hdevices htickets
      · rw [hsome]
        obtain ⟨token', htoken', hlive⟩ := (h.devices d hmem).live hvalid
        obtain rfl := hhash (htoken'.trans htoken)
        have hanswered := h.answer (e := .authenticated token' d.deviceId) hlive
          (fun _ _ => Event.noConfusion) (fun _ _ => Event.noConfusion)
          (fun _ hx => absurd hx not_mem_nil) (.inr fun _ _ _ => Event.noConfusion)
          (fun _ _ _ heq => by cases heq)
        have hused := hanswered.use hd hcode hdevices htickets
        unfold record at hused ⊢
        rwa [append_assoc] at hused
  | ticket device origin secret =>
    unfold Service.step
    obtain ⟨hcode, hdevices, ⟨e, herror, htickets⟩ | ⟨hok, htickets⟩⟩ :=
      Auth.ticket_cases hash s.now s.auth device origin secret
    · dsimp only
      rw [herror]
      exact hsilent (.inl hcode) (hdevices ▸ .refl _) htickets
    · dsimp only
      rw [hok]
      exact h.ticketIssued (hnew mem_cons_self) hcode hdevices htickets
  | consumeTicket secret origin =>
    unfold Service.step
    obtain ⟨hcode, hdevices, htickets, hredeemed⟩ :=
      Auth.consumeTicket_cases hash s.now s.auth secret origin
    cases hanswer : (s.auth.consumeTicket hash s.now secret origin).2 with
    | none =>
      dsimp only
      rw [hanswer]
      exact hsilent (.inl hcode) (hdevices ▸ .refl _) htickets
    | some device =>
      dsimp only
      rw [hanswer]
      obtain ⟨hgone, expires, hmem, hlt, hpaired⟩ := hredeemed device hanswer
      obtain ⟨secret', issued, hdigest, hticket, rfl⟩ := h.tickets _ _ hmem
      obtain rfl := hhash hdigest
      obtain ⟨-, d, hd, rfl, hvalid⟩ := Auth.isPaired_iff.mp hpaired
      obtain ⟨token, -, hlive⟩ := (h.devices d hd).live hvalid
      have hshrunk := h.shrink (.inl hcode) (hdevices ▸ .refl _) htickets s.now []
      rw [append_nil] at hshrunk
      rw [show made ++ (Request.consumeTicket secret origin).secrets = made from append_nil made]
      refine hshrunk.answer (e := .ticketRedeemed secret d.deviceId origin)
        ⟨⟨issued, hticket, hlt⟩, token, hlive⟩
        (fun _ _ => Event.noConfusion) (fun _ _ => Event.noConfusion) (fun x hx => ?_)
        (.inr fun _ _ _ => Event.noConfusion) (fun secret' _ _ heq => ?_)
      · rw [mem_singleton.mp hx]
        exact h.known _ hticket.1 secret mem_cons_self
      · obtain ⟨rfl, -, -⟩ := Event.ticketRedeemed.inj heq
        exact hgone
  | revoke deviceId fault =>
    unfold Service.step
    rcases Auth.revoke_cases s.now s.auth deviceId fault with
      ⟨e, herror, hkept⟩ | ⟨hok, hcode, hdevices, hgone, htickets⟩
    · dsimp only
      rw [herror]
      exact hsilent (.inl hkept.code) hkept.devices hkept.tickets
    · dsimp only
      rw [hok]
      have hshrunk := h.shrink (.inl hcode) hdevices htickets s.now []
      rw [append_nil] at hshrunk
      rw [show made ++ (Request.revoke deviceId fault).secrets = made from append_nil made]
      refine hshrunk.answer (e := .revoked deviceId) trivial (fun d hd heq => ?_)
        (fun _ _ => Event.noConfusion) (fun _ hx => absurd hx not_mem_nil)
        (.inr fun _ _ _ => Event.noConfusion) (fun _ _ _ heq => by cases heq)
      exact hgone d hd (Event.revoked.inj heq).symm
  | clearEphemeral => exact hsilent (.inr rfl) (.refl _) (nil_subset _)
  | flush fault =>
    obtain ⟨hcode, hdevices, htickets⟩ := Auth.flush_kept s.now s.auth fault
    exact hsilent (.inl hcode) hdevices htickets
  | removeFile =>
    unfold Service.step
    dsimp only
    split
    · exact hsilent (.inl rfl) (.refl _) (List.Subset.refl _)
    · exact h.shrink (.inl rfl) (.refl _) (List.Subset.refl _) s.now []

theorem run (hhash : Function.Injective hash) (requests : List Request) :
    ∀ {made : List String} {s : Service}, Inv hash made s →
      (made ++ requests.flatMap Request.secrets).Nodup →
      Inv hash (made ++ requests.flatMap Request.secrets) (runFrom (Service.step hash) s requests) := by
  induction requests with
  | nil =>
    intro made s h _
    rw [flatMap_nil, append_nil]
    exact h
  | cons request requests ih =>
    intro made s h hfresh
    rw [flatMap_cons, ← append_assoc] at hfresh ⊢
    exact ih (h.step hhash request (nodup_append.mp hfresh).1) hfresh

theorem start (file : DeviceFile) : Inv hash [] { auth := { file } } where
  justified := eachAfter_nil
  devices _ hd := absurd hd not_mem_nil
  ids := nodup_nil
  code _ _ hopen := by cases hopen
  tickets _ _ hmem := absurd hmem not_mem_nil
  known _ he := absurd he not_mem_nil

end Service.Inv

/-- Over every run, what is answered is justified by what was answered before, and a pairing or a
revocation that fails keeps the devices that are accepted. -/
theorem credentials_sound {hash : String → String} (hhash : Function.Injective hash)
    (persistent : Bool) (requests : List Request) (hfresh : (requests.flatMap Request.secrets).Nodup) :
    let start : Service := { auth := { file := if persistent then .missing else .unset } }
    let s := runFrom (Service.step hash) start requests
    EachAfter Justified s.log ∧
    (∀ label code origin source token deviceId fault error,
      let r := s.auth.pair hash s.now label code origin source token deviceId fault
      r.2 = .error error → r.1.validDevices s.now = s.auth.validDevices s.now) ∧
    ∀ deviceId fault error, let r := s.auth.revoke deviceId fault
      r.2 = .error error → r.1.validDevices s.now = s.auth.validDevices s.now := by
  intro start s
  have hstart : Service.Inv hash [] start := Service.Inv.start _
  refine ⟨(hstart.run hhash requests hfresh).justified, ?_, ?_⟩
  · intro label code origin source token deviceId fault error r herror
    rcases Auth.pair_cases hash s.now s.auth label code origin source token deviceId fault with
      ⟨-, -, hkept⟩ | ⟨hok, -⟩
    · exact hkept.valid
    · cases hok.symm.trans herror
  · intro deviceId fault error r herror
    rcases Auth.revoke_cases s.now s.auth deviceId fault with ⟨-, -, hkept⟩ | ⟨hok, -⟩
    · exact hkept.valid
    · cases hok.symm.trans herror

/-- A phone is paired, authenticates and comes back with a ticket. -/
def phoneRequests : List Request :=
  [.pairingCode "code", .pair "phone" "code" none "192.168.1.7" "token" "device" none,
    .clock (fromSecs 10) 10, .authenticate "token" none, .ticket "device" none "ticket",
    .consumeTicket "ticket" none]

def phoneLog : List Entry :=
  (runFrom (Service.step id) { auth := { file := .missing } } phoneRequests).log

theorem credentials_sound_phone :
    Justified (phoneLog.take 5) ⟨⟨fromSecs 10, 10⟩, .ticketRedeemed "ticket" "device" none⟩ := by
  have hsound := credentials_sound Function.injective_id true phoneRequests (by decide)
  exact hsound.1 (phoneLog.take 5) _ [] (by decide)

end Taomni.Mobile
