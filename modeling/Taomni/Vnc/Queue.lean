import Taomni.Common.Fates

/-!
# The VNC output queue

Reference: `src-tauri/src/vnc/queue.rs`.

Every method holds the lock of the queue while it uses the state, so a run is a sequence of calls. A
`recv` that finds nothing keeps waiting and answers `none`. Lengths are those of buffers that exist at
the same time, so their sum does not reach the end of `usize`.
-/

namespace Taomni.Vnc

/-! ## The state -/

/-- What `DecodeLimits` sets for the relay. -/
structure RelayLimits where
  maxRelayMessageBytes : ℕ
  maxRelayFrameBytes : ℕ
  maxControlQueue : ℕ
  maxFrameQueueBytes : ℕ
deriving DecidableEq

def RelayLimits.default : RelayLimits where
  maxRelayMessageBytes := 64 * 1024 * 1024
  maxRelayFrameBytes := 128 * 1024 * 1024 + 12
  maxControlQueue := 256
  maxFrameQueueBytes := 129 * 1024 * 1024

abbrev Bytes := List UInt8

/-- A frame is the list of its serialized rectangles. -/
abbrev Frame := List Bytes

inductive QueuedWsOutgoing where
  | control (message : String)
  | frame (rects : Frame)
deriving DecidableEq

structure QueueState where
  criticalControl : List String
  control : List String
  building : Frame
  buildingBytes : ℕ
  dropBuilding : Bool
  latestFrame : Option Frame
  closed : Bool
  droppedFrames : ℕ
  highWaterBytes : ℕ
deriving DecidableEq

/-! ## The methods -/

inductive QueueResponse where
  | done
  | error (message : String)
  /-- `Ok(dropped)` of `finish_frame`. -/
  | finished (dropped : Bool)
  | output (out : Option QueuedWsOutgoing)
deriving DecidableEq

namespace QueueState

def new : QueueState where
  criticalControl := []
  control := []
  building := []
  buildingBytes := 0
  dropBuilding := false
  latestFrame := none
  closed := false
  droppedFrames := 0
  highWaterBytes := 0

def sendControl (limits : RelayLimits) (s : QueueState) (message : String) :
    QueueState × QueueResponse :=
  if message.utf8ByteSize > limits.maxRelayMessageBytes then
    (s, .error "VNC relay control message exceeds configured limit")
  else if s.closed then (s, .error "VNC output queue closed")
  else
    let control :=
      if s.control.length ≥ limits.maxControlQueue then s.control.tail else s.control
    ({ s with control := control ++ [message] }, .done)

def sendCriticalControl (limits : RelayLimits) (s : QueueState) (message : String) :
    QueueState × QueueResponse :=
  if message.utf8ByteSize > limits.maxRelayMessageBytes then
    (s, .error "VNC relay critical message exceeds configured limit")
  else if s.closed then (s, .error "VNC output queue closed")
  else if s.criticalControl.length ≥ limits.maxControlQueue then
    (s, .error "VNC relay critical queue is full")
  else ({ s with criticalControl := s.criticalControl ++ [message] }, .done)

def pushRect (limits : RelayLimits) (s : QueueState) (bytes : Bytes) :
    QueueState × QueueResponse :=
  if bytes.length > limits.maxRelayFrameBytes then
    (s, .error "VNC relay rectangle exceeds configured limit")
  else
    let next := s.buildingBytes + bytes.length
    if next > limits.maxFrameQueueBytes then
      ({ s with dropBuilding := true, building := [], buildingBytes := 0 }, .done)
    else if s.dropBuilding then (s, .done)
    else
      ({ s with
        buildingBytes := next
        highWaterBytes := max s.highWaterBytes next
        building := s.building ++ [bytes] }, .done)

def finishFrame (s : QueueState) : QueueState × QueueResponse :=
  if s.dropBuilding then
    ({ s with
      building := []
      droppedFrames := s.droppedFrames + 1
      buildingBytes := 0
      dropBuilding := false }, .finished true)
  else
    ({ s with
      droppedFrames := if s.latestFrame.isSome then s.droppedFrames + 1 else s.droppedFrames
      latestFrame := some s.building
      building := []
      buildingBytes := 0
      dropBuilding := false }, .finished s.latestFrame.isSome)

def hasPendingFrame (s : QueueState) : Bool := s.latestFrame.isSome

def clearFrames (s : QueueState) : QueueState :=
  { s with building := [], buildingBytes := 0, dropBuilding := false, latestFrame := none }

/-- One turn of `FrameQueueReceiver::recv`; `none` waits for the next wake-up, or ends on a closed
queue. -/
def recv (s : QueueState) : QueueState × Option QueuedWsOutgoing :=
  match s.criticalControl with
  | message :: rest => ({ s with criticalControl := rest }, some (.control message))
  | [] =>
      match s.control with
      | message :: rest => ({ s with control := rest }, some (.control message))
      | [] =>
          match s.latestFrame with
          | some frame => ({ s with latestFrame := none }, some (.frame frame))
          | none => (s, none)

end QueueState

/-! ## Runs -/

inductive QueueCall where
  | pushRect (bytes : Bytes)
  | finishFrame
  | clearFrames
  | sendControl (message : String)
  | sendCriticalControl (message : String)
  | recv
deriving DecidableEq

/-- One call with its response. -/
def QueueState.call (limits : RelayLimits) (s : QueueState) : QueueCall → QueueState × QueueResponse
  | .pushRect bytes => s.pushRect limits bytes
  | .finishFrame => s.finishFrame
  | .clearFrames => (s.clearFrames, .done)
  | .sendControl message => s.sendControl limits message
  | .sendCriticalControl message => s.sendCriticalControl limits message
  | .recv => (s.recv.1, .output s.recv.2)

/-- A call and its response. -/
abbrev QueueEvent := QueueCall × QueueResponse

/-- The state and the events after the calls. -/
def queueRun (limits : RelayLimits) (calls : List QueueCall) : QueueState × List QueueEvent :=
  calls.foldl (fun (s, events) c =>
    let (s', response) := s.call limits c
    (s', events ++ [(c, response)])) (.new, [])

theorem queueRun_concat (limits : RelayLimits) (calls : List QueueCall) (c : QueueCall) :
    queueRun limits (calls ++ [c]) = (((queueRun limits calls).1.call limits c).1,
        (queueRun limits calls).2 ++ [(c, ((queueRun limits calls).1.call limits c).2)]) :=
  List.foldl_concat ..

/-! ## What a history says -/

/-- The histories of the frames and of the two kinds of messages, and the rectangles accepted since
the last boundary. -/
structure QueueLedger where
  assembling : Frame
  frames : Ledger Frame
  critical : Ledger String
  control : Ledger String
deriving DecidableEq

def frameBytes (frame : Frame) : ℕ := frame.flatten.length

/-- The rectangles do not fit into the budget of a frame. -/
def oversized (limits : RelayLimits) (frame : Frame) : Bool :=
  frameBytes frame > limits.maxFrameQueueBytes

namespace QueueLedger

def empty : QueueLedger := ⟨[], [], [], []⟩

/-- What the receiver is to get next: critical messages first, then normal ones, then the frame. -/
def next (l : QueueLedger) : Option QueuedWsOutgoing :=
  match l.critical.waiting, l.control.waiting, l.frames.waiting with
  | message :: _, _, _ => some (.control message)
  | [], message :: _, _ => some (.control message)
  | [], [], frame :: _ => some (.frame frame)
  | [], [], [] => none

/-- An output settles the oldest item of its kind; messages are critical while one is waiting. -/
def received (l : QueueLedger) : QueuedWsOutgoing → QueueLedger
  | .frame _ => { l with frames := l.frames.settle .received }
  | .control _ =>
      if l.critical.waiting = [] then { l with control := l.control.settle .received }
      else { l with critical := l.critical.settle .received }

/-- The history after one more event. Only `clear_frames` clears a frame, only a `finish_frame` that
answers `true` drops one (itself when it is oversized, else the one it replaces), and only a normal
message sent at the limit drops a message, the oldest. -/
@[grind =] def record (limits : RelayLimits) (l : QueueLedger) : QueueEvent → QueueLedger
  | (.pushRect bytes, .done) => { l with assembling := l.assembling ++ [bytes] }
  | (.finishFrame, .finished dropped) =>
      if dropped then
        if oversized limits l.assembling then
          { l with assembling := [], frames := l.frames ++ [(l.assembling, .dropped)] }
        else { l with assembling := [], frames := (l.frames.settle .dropped).enter l.assembling }
      else { l with assembling := [], frames := l.frames.enter l.assembling }
  | (.clearFrames, .done) => { l with assembling := [], frames := l.frames.settle .cleared }
  | (.sendControl message, .done) =>
      let control :=
        if l.control.waiting.length ≥ limits.maxControlQueue then l.control.settle .dropped
        else l.control
      { l with control := control.enter message }
  | (.sendCriticalControl message, .done) => { l with critical := l.critical.enter message }
  | (.recv, .output (some out)) => l.received out
  | _ => l

end QueueLedger

def ledgerOf (limits : RelayLimits) (events : List QueueEvent) : QueueLedger :=
  events.foldl (QueueLedger.record limits) .empty

/-- The response that the history calls for. A frame is lost by a `finish_frame` only if it says so. -/
def Due (limits : RelayLimits) (l : QueueLedger) : QueueEvent → Prop
  | (.pushRect bytes, response) =>
      response = if bytes.length > limits.maxRelayFrameBytes then
        .error "VNC relay rectangle exceeds configured limit" else .done
  | (.finishFrame, response) =>
      response = .finished (oversized limits l.assembling || !l.frames.waiting.isEmpty)
  | (.clearFrames, response) => response = .done
  | (.sendControl message, response) =>
      response = if message.utf8ByteSize > limits.maxRelayMessageBytes then
        .error "VNC relay control message exceeds configured limit" else .done
  | (.sendCriticalControl message, response) =>
      response = if message.utf8ByteSize > limits.maxRelayMessageBytes then
          .error "VNC relay critical message exceeds configured limit"
        else if l.critical.waiting.length ≥ limits.maxControlQueue then
          .error "VNC relay critical queue is full"
        else .done
  | (.recv, response) => response = .output l.next

/-! ## Reading a history -/

/-- The frames received, in order. -/
def receivedFrames (events : List QueueEvent) : List Frame :=
  events.filterMap fun e =>
    match e.2 with
    | .output (some (.frame rects)) => some rects
    | _ => none

/-- The frames finished, each as the rectangles accepted since the last `finish_frame` or
`clear_frames`; and those accepted after it. -/
def segments (events : List QueueEvent) : List Frame × Frame :=
  events.foldl (fun (frames, current) e =>
    match e with
    | (.pushRect bytes, .done) => (frames, current ++ [bytes])
    | (.finishFrame, _) => (frames ++ [current], [])
    | (.clearFrames, _) => (frames, [])
    | _ => (frames, current)) ([], [])

/-- The same with `finish_frame` as the only boundary. -/
def finishSegments (events : List QueueEvent) : List Frame × Frame :=
  events.foldl (fun (frames, current) e =>
    match e with
    | (.pushRect bytes, .done) => (frames, current ++ [bytes])
    | (.finishFrame, _) => (frames ++ [current], [])
    | _ => (frames, current)) ([], [])

/-- The messages accepted by one of the two methods, in order. -/
def acceptedControl (events : List QueueEvent) : List String :=
  events.filterMap fun e =>
    match e with
    | (.sendControl message, .done) => some message
    | _ => none

def acceptedCritical (events : List QueueEvent) : List String :=
  events.filterMap fun e =>
    match e with
    | (.sendCriticalControl message, .done) => some message
    | _ => none

end Taomni.Vnc
