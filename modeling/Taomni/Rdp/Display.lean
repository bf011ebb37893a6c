import Mathlib.Data.List.Basic

/-!
# The display of the remote desktop server

A capture loop publishes frames to a mailbox, and a client drains it. Every section under the lock of the
mailbox is one step, so that the parties can interleave between any two of them.

Reference: `src-tauri/src/servers/rdp/display/mailbox.rs`, `updates.rs`, `capture_loop.rs` and
`display.rs`.
-/

namespace Taomni.RdpDisplay

abbrev Pixel := UInt32

structure DesktopSize where
  width : ℕ
  height : ℕ
deriving DecidableEq

/-- A frame, or a region of it. Its pixels are given at their places in the desktop. -/
structure Frame where
  x : ℕ
  y : ℕ
  width : ℕ
  height : ℕ
  stride : ℕ
  pixel : ℕ → ℕ → Pixel
  row_le : 4 * width ≤ stride

def Frame.size (frame : Frame) : DesktopSize := ⟨frame.width, frame.height⟩

/-! ## Mailbox -/

inductive PendingFrames where
  | full (frame : Frame)
  | damage (frames : List Frame)

def PendingFrames.isDamage : PendingFrames → Bool
  | .full _ => false
  | .damage _ => true

inductive PublishResult where
  | published (replaced : Bool)
  | needsFullRefresh
  | closed
deriving DecidableEq

structure LatestFrameMailbox where
  pending : Option PendingFrames
  latestFull : Option Frame
  activeDamage : Bool
  closed : Bool

namespace LatestFrameMailbox

def new : LatestFrameMailbox := ⟨none, none, false, false⟩

def publishFull (m : LatestFrameMailbox) (frame : Frame) : LatestFrameMailbox × PublishResult :=
  if m.closed then (m, .closed)
  else
    ({ m with pending := some (.full frame), latestFull := some frame },
      .published (m.pending.isSome || m.activeDamage))

def publishDamage (m : LatestFrameMailbox) (frames : List Frame) : LatestFrameMailbox × PublishResult :=
  if m.closed then (m, .closed)
  else if frames.isEmpty then (m, .published false)
  else if m.pending.isSome || m.activeDamage then (m, .needsFullRefresh)
  else ({ m with pending := some (.damage frames) }, .published false)

/-- What a call takes, or `none` while it waits. A closed mailbox has nothing more to take. -/
def take (m : LatestFrameMailbox) : Option (Option PendingFrames × LatestFrameMailbox) :=
  match m.pending with
  | some pending => some (some pending, { m with pending := none, activeDamage := pending.isDamage })
  | none => if m.closed then some (none, m) else none

def replayLatestFull (m : LatestFrameMailbox) : LatestFrameMailbox :=
  if m.closed then m
  else
    match m.latestFull with
    | none => m
    | some frame => { m with pending := some (.full frame), activeDamage := false }

def fullRefreshWaiting (m : LatestFrameMailbox) : Bool :=
  match m.pending with
  | some (.full _) => true
  | _ => false

def finishDamage (m : LatestFrameMailbox) : LatestFrameMailbox := { m with activeDamage := false }

end LatestFrameMailbox

/-! ## Updates -/

inductive DisplayUpdate where
  | bitmap (frame : Frame)
  | resize (size : DesktopSize)

/-- `frame_to_bitmap`: a region without pixels is no bitmap. -/
def frameToBitmap (frame : Frame) : Option DisplayUpdate :=
  if frame.width = 0 || frame.height = 0 || frame.stride = 0 then none else some (.bitmap frame)

structure DisplayUpdatesImpl where
  activeDamage : List Frame
  currentSize : DesktopSize
  deferredFull : Option Frame

/-- Where a call of `next_update` is between two of its sections. A call starts where the last one has
returned. -/
inductive Phase where
  | start
  | clearing
  | emitting
  | finishing (frame : Frame)
  | waiting

/-- What the client shows. A pixel is unknown until it is drawn. -/
structure Picture where
  size : DesktopSize
  pixel : ℕ → ℕ → Option Pixel

def Frame.contains (frame : Frame) (x y : ℕ) : Bool :=
  frame.x ≤ x && x < frame.x + frame.width && (frame.y ≤ y && y < frame.y + frame.height)

namespace Picture

def blank (size : DesktopSize) : Picture := ⟨size, fun _ _ => none⟩

def draw (p : Picture) (frame : Frame) : Picture :=
  { p with pixel := fun x y => if frame.contains x y then some (frame.pixel x y) else p.pixel x y }

def apply (p : Picture) : DisplayUpdate → Picture
  | .bitmap frame => p.draw frame
  | .resize size => blank size

end Picture

/-- The producer of a client's updates, its call in progress, and what the client shows. -/
structure Client where
  updates : DisplayUpdatesImpl
  phase : Phase
  picture : Picture

namespace Client

/-- The call returns. -/
def hand (c : Client) (update : Option DisplayUpdate) : Client :=
  { c with
    phase := .start
    picture := match update with
      | some update => c.picture.apply update
      | none => c.picture }

/-- The next section of `next_update`. -/
def nextUpdate (c : Client) (m : LatestFrameMailbox) : Client × LatestFrameMailbox :=
  match c.phase with
  | .start =>
    if !c.updates.activeDamage.isEmpty && m.fullRefreshWaiting then
      ({ c with updates := { c.updates with activeDamage := [] }, phase := .clearing }, m)
    else ({ c with phase := .emitting }, m)
  | .clearing => ({ c with phase := .emitting }, m.finishDamage)
  | .emitting =>
    match c.updates.deferredFull with
    | some frame =>
      ({ c with updates := { c.updates with deferredFull := none } }.hand (frameToBitmap frame), m)
    | none =>
      match c.updates.activeDamage with
      | frame :: rest =>
        let c := { c with updates := { c.updates with activeDamage := rest } }
        if rest.isEmpty then ({ c with phase := .finishing frame }, m)
        else (c.hand (frameToBitmap frame), m)
      | [] => ({ c with phase := .waiting }, m)
  | .finishing frame => (c.hand (frameToBitmap frame), m.finishDamage)
  | .waiting =>
    match m.take with
    | none => (c, m)
    | some (none, m) => (c.hand none, m)
    | some (some (.full frame), m) =>
      if frame.size ≠ c.updates.currentSize then
        ({ c with
            updates := { c.updates with currentSize := frame.size, deferredFull := some frame } }.hand
          (some (.resize frame.size)), m)
      else (c.hand (frameToBitmap frame), m)
    | some (some (.damage frames), m) =>
      ({ c with updates := { c.updates with activeDamage := frames }, phase := .start }, m)

end Client

/-! ## The server -/

structure Desktop where
  size : DesktopSize
  pixel : ℕ → ℕ → Pixel

/-- What `capture` returns. -/
def Desktop.fullFrame (desktop : Desktop) : Frame where
  x := 0
  y := 0
  width := desktop.size.width
  height := desktop.size.height
  stride := 4 * desktop.size.width
  pixel := desktop.pixel
  row_le := Nat.le_refl _

/-- Where `capture_loop_event_driven` is between two of its sections. -/
inductive CaptureLoop where
  | idle
  | captured (frames : List Frame)
  | refused
  | recaptured (frame : Frame)
  | stopped

/-- The server with the desktop that was captured last, and the one that was published last. -/
structure Server where
  size : DesktopSize
  mailbox : LatestFrameMailbox
  capture : CaptureLoop
  desktop : Desktop
  published : Desktop
  client : Option Client

inductive Event where
  /-- `next_updates` of the capturer reports the regions of a changed desktop. -/
  | nextUpdates (desktop : Desktop) (frames : List Frame)
  | publishDamage
  | captureFull (desktop : Desktop)
  | publishFull
  | nextUpdate
  | leave
  /-- A client calls `updates`. -/
  | updates

namespace Server

/-- The server after the warm-up of the capture. -/
def warmed (desktop : Desktop) : Server where
  size := desktop.size
  mailbox := (LatestFrameMailbox.new.publishFull desktop.fullFrame).1
  capture := .idle
  desktop := desktop
  published := desktop
  client := none

def step (s : Server) : Event → Server
  | .nextUpdates desktop frames =>
    match s.capture with
    | .idle => { s with desktop := desktop, capture := .captured frames }
    | _ => s
  | .publishDamage =>
    match s.capture with
    | .captured frames =>
      let (mailbox, result) := s.mailbox.publishDamage frames
      match result with
      | .published _ => { s with mailbox := mailbox, capture := .idle, published := s.desktop }
      | .needsFullRefresh => { s with mailbox := mailbox, capture := .refused }
      | .closed => { s with mailbox := mailbox, capture := .stopped }
    | _ => s
  | .captureFull desktop =>
    match s.capture with
    | .refused => { s with desktop := desktop, capture := .recaptured desktop.fullFrame }
    | _ => s
  | .publishFull =>
    match s.capture with
    | .recaptured frame =>
      let (mailbox, result) := s.mailbox.publishFull frame
      match result with
      | .published _ => { s with mailbox := mailbox, capture := .idle, published := s.desktop }
      | _ => { s with mailbox := mailbox, capture := .stopped }
    | _ => s
  | .nextUpdate =>
    match s.client with
    | none => s
    | some client =>
      let (client, mailbox) := client.nextUpdate s.mailbox
      { s with client := some client, mailbox := mailbox }
  | .leave => { s with client := none }
  | .updates =>
    { s with
      mailbox := s.mailbox.replayLatestFull
      client := some ⟨⟨[], s.size, none⟩, .start, .blank s.size⟩ }

end Server

end Taomni.RdpDisplay
