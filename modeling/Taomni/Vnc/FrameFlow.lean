import Taomni.Vnc.Framebuffer

/-!
# Frame flow control

Reference: `src-tauri/src/vnc/ws/frame_flow.rs` and the relay loops of
`src-tauri/src/vnc/ws/relay/runtime.rs`.

A session is the framebuffer, the flow state, the output queue and the WebView. Decoder updates, flushes,
the WebSocket writer, the WebView and its messages take turns in any order. Picture quality changes
and resizes are left out: the framebuffer keeps its size.
-/

namespace Taomni.Vnc

/-! ## The flow state -/

structure FrameFlow where
  damage : Damage
  frontendReady : Bool
  requestDeferred : Bool
  framesSent : ℕ

namespace FrameFlow

def new : FrameFlow where
  damage := .empty
  frontendReady := true
  requestDeferred := false
  framesSent := 0

/-- Also says whether a new request may be sent right away. -/
def noteUpdate (flow : FrameFlow) (rects : List FbRect) : FrameFlow × Bool :=
  let damage := rects.foldl Damage.add flow.damage
  let waitingForFrontend := !flow.frontendReady || !damage.rects.isEmpty
  ({ flow with damage := damage, requestDeferred := waitingForFrontend }, !waitingForFrontend)

def takeDeferredRequest (flow : FrameFlow) : FrameFlow × Bool :=
  if flow.frontendReady && flow.damage.rects.isEmpty then
    ({ flow with requestDeferred := false }, flow.requestDeferred)
  else (flow, false)

end FrameFlow

/-! ## The session -/

structure Session where
  framebuffer : Framebuffer
  flow : FrameFlow
  queue : QueueState
  /-- Update requests that were sent to the server. -/
  requests : ℕ
  /-- Frames that the writer has sent and the WebView has not painted. -/
  inFlight : List Frame
  screen : Screen
  /-- Acks of painted frames that the relay has not seen. -/
  acks : ℕ

namespace Session

/-- The handshake has sent the first request; the canvas is blank. -/
def start (width height : UInt16) : Session where
  framebuffer := .blank width height
  flow := .new
  queue := .new
  requests := 1
  inFlight := []
  screen := fun _ _ => ⟨0, 0, 0, 0⟩
  acks := 0

/-- The rectangle of the whole framebuffer. -/
def surface (s : Session) : FbRect := ⟨0, 0, s.framebuffer.width, s.framebuffer.height⟩

def damageFullFramebuffer (s : Session) : Session :=
  { s with flow := { s.flow with damage := s.flow.damage.add s.surface } }

/-- `push_rect` for each message; the results are not looked at. -/
def pushRects (limits : RelayLimits) (queue : QueueState) (frames : List Bytes) : QueueState :=
  frames.foldl (fun queue frame => (queue.pushRect limits frame).1) queue

/-- What `flush_frame` does after the boundary if the queue says that a frame was lost. -/
def compensate (s : Session) : Session :=
  let s := s.damageFullFramebuffer
  if !s.queue.hasPendingFrame then { s with flow := { s.flow with frontendReady := true } } else s

/-- `flush_frame`; also says whether a frame boundary was queued. -/
def flushFrame (limits : RelayLimits) (s : Session) : Session × Bool :=
  if !s.flow.frontendReady || s.flow.damage.rects.isEmpty then (s, false)
  else
    let flow :=
      { s.flow with
        damage := s.flow.damage.take.2
        frontendReady := false
        framesSent := s.flow.framesSent + 1 }
    let frames := s.flow.damage.take.1.filterMap s.framebuffer.relayFrame
    let finished := (pushRects limits s.queue frames).finishFrame
    let s := { s with flow := flow, queue := finished.1 }
    if finished.2 = .finished true then (s.compensate, true) else (s, true)

/-- `request_update` if it is due. -/
def requestIf (s : Session) (due : Bool) : Session :=
  if due then { s with requests := s.requests + 1 } else s

/-- A decoded update: its pixels, its damage, and the next request if that need not wait. -/
def update (s : Session) (framebuffer : Framebuffer) (rects : List FbRect) : Session :=
  requestIf { s with framebuffer := framebuffer, flow := (s.flow.noteUpdate rects).1 }
    (s.flow.noteUpdate rects).2

/-- The WebView is ready for a frame: hand it the damage, then send the request that waited. -/
def ack (limits : RelayLimits) (s : Session) : Session :=
  let s := { s with acks := s.acks - 1, flow := { s.flow with frontendReady := true } }
  let s := (s.flushFrame limits).1
  requestIf { s with flow := s.flow.takeDeferredRequest.1 } s.flow.takeDeferredRequest.2

/-- Repaint everything, and ask the server for a full update. -/
def refresh (limits : RelayLimits) (s : Session) : Session :=
  let s := { s with flow := { s.flow with frontendReady := true, requestDeferred := false } }
  requestIf (s.damageFullFramebuffer.flushFrame limits).1 true

/-- The writer takes an output from the queue; a frame goes to the WebView. -/
def received (s : Session) (queue : QueueState) : Option QueuedWsOutgoing → Session
  | some (.frame frame) => { s with queue := queue, inFlight := s.inFlight ++ [frame] }
  | _ => { s with queue := queue }

/-- The WebView paints its oldest frame and acknowledges it. -/
def paint (s : Session) : Session :=
  match s.inFlight with
  | [] => s
  | frame :: rest =>
    { s with screen := paintFrame s.screen frame, inFlight := rest, acks := s.acks + 1 }

end Session

/-! ## Runs -/

inductive SessionStep where
  /-- A decoder update. -/
  | update (ops : List DrawOp)
  | flush
  | sendControl (message : String)
  | sendCriticalControl (message : String)
  | recv
  | paint
  /-- An Ack, also one that acknowledges nothing. -/
  | ack
  | refresh

/-- One step. An update that cannot be drawn ends the session, and changes nothing here. -/
def Session.step (limits : RelayLimits) (s : Session) : SessionStep → Session
  | .update ops =>
    match DrawOp.applyAll s.framebuffer ops with
    | .ok framebuffer => s.update framebuffer (ops.map DrawOp.rect)
    | .error _ => s
  | .flush => (s.flushFrame limits).1
  | .sendControl message => { s with queue := (s.queue.sendControl limits message).1 }
  | .sendCriticalControl message =>
    { s with queue := (s.queue.sendCriticalControl limits message).1 }
  | .recv => s.received s.queue.recv.1 s.queue.recv.2
  | .paint => s.paint
  | .ack => s.ack limits
  | .refresh => s.refresh limits

def sessionAfter (limits : RelayLimits) (width height : UInt16) (steps : List SessionStep) :
    Session :=
  steps.foldl (Session.step limits) (.start width height)

/-! ## What is to hold -/

namespace Session

/-- What the WebView will show after painting everything in flight or queued. -/
def shown (s : Session) : Screen :=
  (s.inFlight ++ s.queue.latestFrame.toList).foldl paintFrame s.screen

/-- Pixels that the WebView will not show are damaged. -/
def Covered (s : Session) : Prop :=
  ∀ px py, px < s.framebuffer.width.toNat → py < s.framebuffer.height.toNat →
    s.framebuffer.pixel px py ≠ s.shown px py → s.flow.damage.Covers px py

/-- A frame or its Ack is on the way. -/
def Underway (s : Session) : Prop :=
  s.queue.latestFrame.isSome ∨ s.inFlight ≠ [] ∨ 0 < s.acks

/-- Damage or a request waits. -/
def Pending (s : Session) : Prop := s.flow.damage.rects ≠ [] ∨ s.flow.requestDeferred

/-- After `t` the damage of `s` is flushed: in the queue, or, if the frame was over the budget of the
queue, as damage of the whole surface that the next flush puts into the queue. -/
def FlushedBy (limits : RelayLimits) (s t : Session) : Prop :=
  t.flow.framesSent = s.flow.framesSent + 1 ∧
    (t.queue.latestFrame.isSome ∨ (t.flushFrame limits).1.queue.latestFrame.isSome)

/-- An Ack flushes the damage, and without damage it sends the deferred request; a Refresh flushes and
sends a request in any case. -/
structure Served (limits : RelayLimits) (s : Session) : Prop where
  ack_flushes : s.flow.damage.rects ≠ [] → FlushedBy limits s (s.ack limits)
  ack_requests : s.flow.damage.rects = [] → s.flow.requestDeferred →
    (s.ack limits).requests = s.requests + 1 ∧ (s.ack limits).flow.requestDeferred = false
  refresh_flushes : FlushedBy limits s (s.refresh limits)
  refresh_requests : (s.refresh limits).requests = s.requests + 1 ∧
    (s.refresh limits).flow.requestDeferred = false

/-- No pixel is lost, and what waits is never forgotten: the relay waits for the WebView only while a
frame is on the way, and the next Ack or Refresh serves what waits. -/
structure Controlled (limits : RelayLimits) (s : Session) : Prop where
  covered : s.Covered
  awaited : s.Pending → s.Underway ∨ s.flow.frontendReady
  served : s.Pending → s.Served limits

end Session

end Taomni.Vnc
