import Mathlib.Algebra.Group.Int.Defs
import Mathlib.Data.Int.Order.Basic
import Taomni.Common.IpAddr

/-!
# Pairing of mobile devices

Reference: `src-tauri/src/mobile/auth.rs`.

Every call reads the clock once. The digest and the fresh secrets are parameters, and so is what happens
to a write of the device file. A hash map is an association list.
-/

namespace Taomni.Mobile

open List

/-- `Instant::now()` in nanoseconds, and `Utc::now().timestamp()` in seconds. -/
structure Clock where
  instant : ℕ := 0
  utc : ℤ := 0
deriving DecidableEq

/-- `Duration::from_secs`. -/
def fromSecs (n : ℕ) : ℕ := n * 10 ^ 9

/-- `saturating_add` of an `i64` and a positive number. -/
def saturatingAdd (a b : ℤ) : ℤ := min (a + b) (2 ^ 63 - 1)

structure Device where
  deviceId : String
  label : String
  origin : Option String
  createdAt : ℤ
  lastUsedAt : ℤ
  tokenHash : String
deriving DecidableEq

def tokenLifetime : ℤ := 90 * 86400

def tokenIdle : ℤ := 30 * 86400

def valid (device : Device) (now : ℤ) : Bool :=
  now < saturatingAdd device.createdAt tokenLifetime && now < saturatingAdd device.lastUsedAt tokenIdle

/-! ## The device file -/

/-- The file at the path of the store, when a path is set. -/
inductive DeviceFile where
  | unset
  | missing
  | saved (devices : List Device)
deriving DecidableEq

/-- The steps of `save` that may fail. -/
inductive SaveFault where
  | path
  | createDir
  | write
  | sync
  | publish

def SaveFault.message : SaveFault → String
  | path => "Invalid device store path"
  | createDir => "Cannot create device store"
  | write => "Cannot write device store"
  | sync => "Cannot sync device store"
  | publish => "Cannot publish device store"

/-- `save`. The file is replaced in one step, at the end. -/
def DeviceFile.save (file : DeviceFile) (devices : List Device) (fault : Option SaveFault) :
    Except String DeviceFile :=
  match file, fault with
  | unset, _ => .ok unset
  | _, some fault => .error fault.message
  | _, none => .ok (saved devices)

def DeviceFile.isMissing : DeviceFile → Bool
  | missing => true
  | _ => false

/-! ## The state -/

/-- The failures of one source, counted up to some time. -/
structure Failures where
  source : String
  expires : ℕ
  count : ℕ
deriving DecidableEq

structure Ticket where
  device : String
  origin : Option String
  expires : ℕ
deriving DecidableEq

structure Auth where
  file : DeviceFile := .unset
  devices : List Device := []
  /-- The digest of the code, and when the code expires. -/
  code : Option (String × ℕ) := none
  failures : List Failures := []
  failedAttempts : ℕ := 0
  /-- By the digests of the tickets. -/
  tickets : List (String × Ticket) := []

/-- What `pair` answers. -/
structure Paired where
  deviceId : String
  token : String
deriving DecidableEq

namespace Auth

def clearEphemeral (a : Auth) : Auth := { a with code := none, tickets := [] }

def synchronizeRevocation (a : Auth) : Auth :=
  if a.file.isMissing then { a with devices := [], tickets := [] } else a

variable (hash : String → String) (now : Clock)

/-- `pairing_code`, with the code it makes. -/
def pairingCode (a : Auth) (code : String) : Auth :=
  { a with code := some (hash code, now.instant + fromSecs 300) }

/-! ## Pairing -/

def isCorrect (a : Auth) (code : String) : Bool :=
  a.code.any fun (expected, expires) => now.instant < expires && expected == hash code

/-- Whether a source has failed five times. -/
def throttled (a : Auth) (source : String) : Bool :=
  (a.failures.find? (·.source == source)).any (5 ≤ ·.count)

/-- `min_by_key`, by the time of expiry. -/
def oldest : List Failures → Option Failures
  | [] => none
  | f :: rest =>
    match oldest rest with
    | none => some f
    | some g => if g.expires < f.expires then some g else some f

/-- One more failure of a source. The oldest entry makes room for a new one. -/
def countFailure (failures : List Failures) (source : String) : List Failures :=
  if failures.any (·.source == source) then
    failures.map fun f => if f.source == source then { f with count := f.count + 1 } else f
  else
    let kept :=
      if 1024 ≤ failures.length then
        match oldest failures with
        | some old => failures.filter (·.source != old.source)
        | none => failures
      else failures
    kept ++ [⟨source, now.instant + fromSecs 300, 1⟩]

/-- The rest of `pair` after a correct code. -/
def enroll (a : Auth) (label : String) (origin : Option String) (token deviceId : String)
    (fault : Option SaveFault) : Auth × Except String Paired :=
  let a := { a with devices := a.devices.filter fun d => valid d now.utc }
  if 256 ≤ a.devices.length then (a, .error "device_limit")
  else
    let device : Device :=
      { deviceId
        label := String.ofList (label.toList.take 80)
        origin
        createdAt := now.utc
        lastUsedAt := now.utc
        tokenHash := hash token }
    let a := { a with devices := a.devices ++ [device] }
    match a.file.save a.devices fault with
    | .error e => ({ a with devices := a.devices.dropLast }, .error e)
    | .ok file => ({ a with file, code := none }, .ok ⟨deviceId, token⟩)

/-- `pair`, with the secrets it makes when the code is correct. -/
def pair (a : Auth) (label code : String) (origin : Option String) (source token deviceId : String)
    (fault : Option SaveFault) : Auth × Except String Paired :=
  let a := a.synchronizeRevocation
  let a := { a with failures := a.failures.filter fun f => now.instant < f.expires }
  let correct := a.isCorrect hash now code
  -- A shared source may not keep a correct code out.
  let shared := (IpAddr.parse source.toList).any IpAddr.isLoopback
  if a.throttled source && !(shared && correct) then (a, .error "rate_limited")
  else if !correct then
    ({ a with
        failures := countFailure now a.failures source
        failedAttempts := a.failedAttempts + 1 }, .error "invalid_or_expired_code")
  else a.enroll hash now label origin token deviceId fault

/-! ## Devices -/

/-- The device of `authenticate` and its index. -/
def recognize (a : Auth) (token : String) : Option Device :=
  a.devices.find? fun d => valid d now.utc && d.tokenHash == hash token

/-- The first device that the token fits is used now. -/
def touch (devices : List Device) (token : String) : List Device :=
  match devices with
  | [] => []
  | d :: rest =>
    if valid d now.utc && d.tokenHash == hash token then { d with lastUsedAt := now.utc } :: rest
    else d :: touch rest token

def authenticate (a : Auth) (token : String) (fault : Option SaveFault) : Auth × Option String :=
  if a.file.isMissing then ({ a with devices := [], tickets := [] }, none)
  else
    match a.recognize hash now token with
    | none => (a, none)
    | some device =>
      let a := { a with devices := touch hash now a.devices token }
      if 300 ≤ now.utc - device.lastUsedAt then
        match a.file.save a.devices fault with
        | .error _ => (a, none)
        | .ok file => ({ a with file }, some device.deviceId)
      else (a, some device.deviceId)

def pairedOrigin (a : Auth) (origin : String) : Bool :=
  a.devices.any fun d => valid d now.utc && d.origin == some origin

/-- `exists`. -/
def isPaired (a : Auth) (deviceId : String) : Bool :=
  !a.file.isMissing && a.devices.any fun d => d.deviceId == deviceId && valid d now.utc

def revoke (a : Auth) (deviceId : String) (fault : Option SaveFault) : Auth × Except String Unit :=
  let a := a.synchronizeRevocation
  let devices := a.devices.filter (·.deviceId != deviceId)
  match a.file.save devices fault with
  | .error e => (a, .error e)
  | .ok file =>
    ({ a with file, devices, tickets := a.tickets.filter (·.2.device != deviceId) }, .ok ())

/-- Writes the devices once more. -/
def flush (a : Auth) (fault : Option SaveFault) : Auth × Except String Unit :=
  let a := a.synchronizeRevocation
  match a.file.save a.devices fault with
  | .error e => (a, .error e)
  | .ok file => ({ a with file }, .ok ())

/-! ## Tickets -/

/-- `ticket`, with the ticket it makes. -/
def ticket (a : Auth) (device : String) (origin : Option String) (secret : String) :
    Auth × Except String String :=
  let a := { a with tickets := a.tickets.filter fun t => now.instant < t.2.expires }
  if 1024 ≤ a.tickets.length then (a, .error "rate_limited")
  else
    let others := a.tickets.filter (·.1 != hash secret)
    let ticket : Ticket := ⟨device, origin, now.instant + fromSecs 60⟩
    ({ a with tickets := others ++ [(hash secret, ticket)] }, .ok secret)

def consumeTicket (a : Auth) (secret : String) (origin : Option String) : Auth × Option String :=
  match a.tickets.find? (·.1 == hash secret) with
  | none => (a, none)
  | some (_, ticket) =>
    let a := { a with tickets := a.tickets.filter (·.1 != hash secret) }
    if now.instant < ticket.expires && ticket.origin == origin && a.isPaired now ticket.device then
      (a, some ticket.device)
    else (a, none)

/-- The devices whose tokens are accepted. -/
def validDevices (a : Auth) : List Device :=
  if a.file.isMissing then [] else a.devices.filter fun d => valid d now.utc

end Auth

/-!
# What the calls of the pairing service change

A call that fails keeps the devices that are accepted. One lemma for each call says what else it may
change.

Reference: `src-tauri/src/mobile/auth.rs`.
-/

/-- Nothing was added, and the devices that are accepted are the same. -/
structure Kept (now : Clock) (a a' : Auth) : Prop where
  code : a'.code = a.code
  devices : a'.devices.Sublist a.devices
  tickets : a'.tickets ⊆ a.tickets
  valid : a'.validDevices now = a.validDevices now

theorem Kept.refl (now : Clock) (a : Auth) : Kept now a a :=
  ⟨rfl, .refl _, List.Subset.refl _, rfl⟩

theorem Kept.trans {now : Clock} {a b c : Auth} (h : Kept now a b) (h' : Kept now b c) : Kept now a c :=
  ⟨h'.code.trans h.code, h'.devices.trans h.devices, List.Subset.trans h'.tickets h.tickets,
    h'.valid.trans h.valid⟩

theorem valid_lt {d : Device} {now : ℤ} (h : valid d now = true) :
    now < d.createdAt + tokenLifetime ∧ now < d.lastUsedAt + tokenIdle := by
  unfold valid at h
  rw [Bool.and_eq_true, decide_eq_true_eq, decide_eq_true_eq] at h
  exact ⟨h.1.trans_le (min_le_left _ _), h.2.trans_le (min_le_left _ _)⟩

namespace Auth

variable {hash : String → String} {now : Clock} {a : Auth}

theorem synchronizeRevocation_kept (now : Clock) (a : Auth) : Kept now a a.synchronizeRevocation := by
  unfold synchronizeRevocation
  split
  · rename_i hmissing
    refine ⟨rfl, nil_sublist _, nil_subset _, ?_⟩
    unfold validDevices
    rw [if_pos hmissing, if_pos hmissing]
  · exact Kept.refl now a

theorem forgetInvalid_kept (now : Clock) (a : Auth) :
    Kept now a { a with devices := a.devices.filter fun d => valid d now.utc } := by
  refine ⟨rfl, filter_sublist, List.Subset.refl _, ?_⟩
  unfold validDevices
  simp only [filter_filter, Bool.and_self]

/-! ## Pairing -/

theorem isCorrect_iff {code : String} : a.isCorrect hash now code = true ↔
    ∃ expires, a.code = some (hash code, expires) ∧ now.instant < expires := by
  unfold isCorrect
  cases a.code with
  | none => exact iff_of_false Bool.false_ne_true (by rintro ⟨_, h, _⟩; cases h)
  | some shown =>
    obtain ⟨expected, expires⟩ := shown
    simp only [Option.any_some, Bool.and_eq_true, decide_eq_true_eq, beq_iff_eq, Option.some.injEq,
      Prod.mk.injEq]
    constructor
    · rintro ⟨hlt, rfl⟩
      exact ⟨expires, ⟨rfl, rfl⟩, hlt⟩
    · rintro ⟨e, ⟨rfl, rfl⟩, hlt⟩
      exact ⟨hlt, rfl⟩

/-- What a successful pairing leaves. -/
structure PairedWith (hash : String → String) (now : Clock) (a a' : Auth)
    (code token deviceId : String) : Prop where
  correct : ∃ expires, a.code = some (hash code, expires) ∧ now.instant < expires
  code : a'.code = none
  tickets : a'.tickets ⊆ a.tickets
  devices : ∃ kept device, a'.devices = kept ++ [device] ∧ kept.Sublist a.devices ∧
    device.deviceId = deviceId ∧ device.createdAt = now.utc ∧ device.lastUsedAt = now.utc ∧
    device.tokenHash = hash token

theorem enroll_cases (a : Auth) (label : String) (origin : Option String) (token deviceId : String)
    (fault : Option SaveFault) : let r := a.enroll hash now label origin token deviceId fault
    (∃ e, r.2 = .error e ∧ Kept now a r.1) ∨
      r.2 = .ok ⟨deviceId, token⟩ ∧ r.1.code = none ∧ r.1.tickets = a.tickets ∧
        ∃ kept device, r.1.devices = kept ++ [device] ∧ kept.Sublist a.devices ∧
          device.deviceId = deviceId ∧ device.createdAt = now.utc ∧ device.lastUsedAt = now.utc ∧
          device.tokenHash = hash token := by
  dsimp only
  have hkept := forgetInvalid_kept now a
  unfold enroll
  dsimp only
  split
  · exact .inl ⟨_, rfl, hkept⟩
  · split
    · -- The device is taken off again, and what is left is the list before it.
      rw [dropLast_concat]
      exact .inl ⟨_, rfl, hkept⟩
    · exact .inr ⟨rfl, rfl, rfl, _, _, rfl, hkept.devices, rfl, rfl, rfl, rfl⟩

theorem pair_cases (hash : String → String) (now : Clock) (a : Auth) (label code : String)
    (origin : Option String) (source token deviceId : String) (fault : Option SaveFault) :
    let r := a.pair hash now label code origin source token deviceId fault
    (∃ e, r.2 = .error e ∧ Kept now a r.1) ∨
      r.2 = .ok ⟨deviceId, token⟩ ∧ PairedWith hash now a r.1 code token deviceId := by
  dsimp only
  have hsync := synchronizeRevocation_kept now a
  unfold pair
  dsimp only
  generalize a.synchronizeRevocation = b at hsync
  have hstart (failures : List Failures) (failedAttempts : ℕ) :
      Kept now a { b with failures, failedAttempts } :=
    hsync.trans ⟨rfl, .refl _, List.Subset.refl _, rfl⟩
  split
  · exact .inl ⟨_, rfl, hstart _ _⟩
  · split
    · exact .inl ⟨_, rfl, hstart _ _⟩
    · rename_i hcorrect
      rw [Bool.not_eq_true, Bool.not_eq_false', isCorrect_iff] at hcorrect
      obtain ⟨expires, hcode, hlt⟩ := hcorrect
      have hpre := hstart (b.failures.filter fun f => now.instant < f.expires) b.failedAttempts
      rcases @enroll_cases hash now _ label origin token deviceId fault with
        ⟨e, herror, hkept⟩ | ⟨hok, hnone, htickets, kept, device, hdevices, hsub, hdevice⟩
      · exact .inl ⟨e, herror, hpre.trans hkept⟩
      · refine .inr ⟨hok, ⟨expires, ?_, hlt⟩, hnone, ?_, kept, device, hdevices, ?_, hdevice⟩
        · rw [← hsync.code]
          exact hcode
        · rw [htickets]
          exact hpre.tickets
        · exact hsub.trans hpre.devices

/-! ## Devices -/

theorem recognize_spec {token : String} {d : Device} (h : a.recognize hash now token = some d) :
    d ∈ a.devices ∧ valid d now.utc = true ∧ d.tokenHash = hash token := by
  have hd := find?_some h
  rw [Bool.and_eq_true, beq_iff_eq] at hd
  exact ⟨mem_of_find?_eq_some h, hd⟩

theorem touch_ids (devices : List Device) (token : String) :
    (touch hash now devices token).map Device.deviceId = devices.map Device.deviceId := by
  induction devices with
  | nil => rfl
  | cons d rest ih =>
    unfold touch
    split
    · rfl
    · rw [map_cons, map_cons, ih]

/-- With distinct names, only the device that is recognized is touched. -/
theorem mem_touch {token : String} {d x : Device} (hids : (a.devices.map Device.deviceId).Nodup)
    (h : a.recognize hash now token = some d) (hx : x ∈ touch hash now a.devices token) :
    x = { d with lastUsedAt := now.utc } ∨ x ∈ a.devices ∧ x.deviceId ≠ d.deviceId := by
  unfold recognize at h
  generalize a.devices = devices at hids h hx
  induction devices with
  | nil => cases h
  | cons e rest ih =>
    rw [map_cons, nodup_cons] at hids
    unfold touch at hx
    rw [find?_cons] at h
    split at h
    · rename_i hfits
      rw [if_pos hfits] at hx
      obtain rfl := Option.some.inj h
      rcases mem_cons.mp hx with rfl | hx
      · exact .inl rfl
      · refine .inr ⟨mem_cons_of_mem _ hx, fun heq => hids.1 ?_⟩
        rw [← heq]
        exact mem_map_of_mem hx
    · rename_i hfits
      rw [if_neg (Bool.eq_false_iff.mp hfits)] at hx
      rcases mem_cons.mp hx with rfl | hx
      · refine .inr ⟨mem_cons_self, fun heq => hids.1 ?_⟩
        rw [heq]
        exact mem_map_of_mem (mem_of_find?_eq_some h)
      · rcases ih hids.2 h hx with hx | ⟨hx, hne⟩
        · exact .inl hx
        · exact .inr ⟨mem_cons_of_mem _ hx, hne⟩

/-- Nobody is authenticated and everybody is forgotten, nothing happens, or a device is touched. -/
theorem authenticate_cases (hash : String → String) (now : Clock) (a : Auth) (token : String)
    (fault : Option SaveFault) : let r := a.authenticate hash now token fault
    let found := if a.file.isMissing then none else a.recognize hash now token
    r.1.code = a.code ∧
      (found = none ∧ r.2 = none ∧ r.1.devices.Sublist a.devices ∧ r.1.tickets ⊆ a.tickets ∨
        ∃ d, found = some d ∧ a.recognize hash now token = some d ∧
          (r.2 = none ∨ r.2 = some d.deviceId) ∧ r.1.devices = touch hash now a.devices token ∧
          r.1.tickets = a.tickets) := by
  dsimp only
  unfold authenticate
  split
  · exact ⟨rfl, .inl ⟨rfl, rfl, nil_sublist _, nil_subset _⟩⟩
  · split
    · rename_i hnone
      exact ⟨rfl, .inl ⟨hnone, rfl, .refl _, List.Subset.refl _⟩⟩
    · rename_i d hd
      dsimp only
      split
      · split
        · exact ⟨rfl, .inr ⟨d, hd, hd, .inl rfl, rfl, rfl⟩⟩
        · exact ⟨rfl, .inr ⟨d, hd, hd, .inr rfl, rfl, rfl⟩⟩
      · exact ⟨rfl, .inr ⟨d, hd, hd, .inr rfl, rfl, rfl⟩⟩

theorem isPaired_iff {deviceId : String} : a.isPaired now deviceId = true ↔
    a.file.isMissing = false ∧ ∃ d ∈ a.devices, d.deviceId = deviceId ∧ valid d now.utc = true := by
  unfold isPaired
  rw [Bool.and_eq_true, Bool.not_eq_true', any_eq_true]
  simp only [Bool.and_eq_true, beq_iff_eq]

theorem revoke_cases (now : Clock) (a : Auth) (deviceId : String) (fault : Option SaveFault) :
    let r := a.revoke deviceId fault
    (∃ e, r.2 = .error e ∧ Kept now a r.1) ∨
      r.2 = .ok () ∧ r.1.code = a.code ∧ r.1.devices.Sublist a.devices ∧
        (∀ d ∈ r.1.devices, d.deviceId ≠ deviceId) ∧ r.1.tickets ⊆ a.tickets := by
  dsimp only
  have hsync := synchronizeRevocation_kept now a
  unfold revoke
  dsimp only
  generalize a.synchronizeRevocation = b at hsync
  split
  · exact .inl ⟨_, rfl, hsync⟩
  · refine .inr ⟨rfl, hsync.code, filter_sublist.trans hsync.devices, fun d hd => ?_, ?_⟩
    · exact bne_iff_ne.mp (mem_filter.mp hd).2
    · exact List.Subset.trans (filter_subset_self _) hsync.tickets

theorem flush_kept (now : Clock) (a : Auth) (fault : Option SaveFault) : let r := a.flush fault
    r.1.code = a.code ∧ r.1.devices.Sublist a.devices ∧ r.1.tickets ⊆ a.tickets := by
  dsimp only
  have hsync := synchronizeRevocation_kept now a
  unfold flush
  dsimp only
  split
  · exact ⟨hsync.code, hsync.devices, hsync.tickets⟩
  · exact ⟨hsync.code, hsync.devices, hsync.tickets⟩

/-! ## Tickets -/

theorem ticket_cases (hash : String → String) (now : Clock) (a : Auth) (device : String)
    (origin : Option String) (secret : String) : let r := a.ticket hash now device origin secret
    r.1.code = a.code ∧ r.1.devices = a.devices ∧
      ((∃ e, r.2 = .error e ∧ r.1.tickets ⊆ a.tickets) ∨
        r.2 = .ok secret ∧ ∀ t ∈ r.1.tickets, t ∈ a.tickets ∨
          t = (hash secret, ⟨device, origin, now.instant + fromSecs 60⟩)) := by
  dsimp only
  unfold ticket
  dsimp only
  split
  · exact ⟨rfl, rfl, .inl ⟨_, rfl, filter_subset_self _⟩⟩
  · refine ⟨rfl, rfl, .inr ⟨rfl, fun t ht => ?_⟩⟩
    rcases mem_append.mp ht with ht | ht
    · exact .inl (mem_filter.mp (mem_filter.mp ht).1).1
    · exact .inr (mem_singleton.mp ht)

theorem consumeTicket_cases (hash : String → String) (now : Clock) (a : Auth) (secret : String)
    (origin : Option String) : let r := a.consumeTicket hash now secret origin
    r.1.code = a.code ∧ r.1.devices = a.devices ∧ r.1.tickets ⊆ a.tickets ∧
      ∀ device, r.2 = some device → (∀ t ∈ r.1.tickets, t.1 ≠ hash secret) ∧
        ∃ expires, (hash secret, ⟨device, origin, expires⟩) ∈ a.tickets ∧ now.instant < expires ∧
          a.isPaired now device = true := by
  dsimp only
  unfold consumeTicket
  split
  · exact ⟨rfl, rfl, List.Subset.refl _, fun device h => by cases h⟩
  · rename_i key ticket hfind
    have hkey := find?_some hfind
    obtain rfl : key = hash secret := beq_iff_eq.mp hkey
    have hmem := mem_of_find?_eq_some hfind
    dsimp only
    split
    · rename_i hok
      rw [Bool.and_eq_true, Bool.and_eq_true, decide_eq_true_eq, beq_iff_eq] at hok
      obtain ⟨⟨hlt, rfl⟩, hpaired⟩ := hok
      refine ⟨rfl, rfl, filter_subset_self _, fun device h => ?_⟩
      obtain rfl := Option.some.inj h
      exact ⟨fun t ht => bne_iff_ne.mp (mem_filter.mp ht).2, ticket.expires, hmem, hlt, hpaired⟩
    · exact ⟨rfl, rfl, filter_subset_self _, fun device h => by cases h⟩

end Auth

end Taomni.Mobile
