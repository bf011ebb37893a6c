import Taomni.Vnc.FrameFlow

/-!
# Flow control over whole sessions

Reference: `src-tauri/src/vnc/ws/frame_flow.rs`.

`push_rect` refuses a message that is longer than a relay frame may be, and `flush_frame` does not look
at that. While the message of the whole surface fits, nothing is refused: `flushFrame_spec` says what a
flush does, and the invariant `Flowing` follows for every step. If the surface does not fit, a Refresh
loses its pixels.
-/

namespace Taomni.Vnc

open List
open UInt16 (toNat_inj toNat_one toNat_zero)

namespace QueueState

/-- No frame is being assembled. -/
structure Idle (q : QueueState) : Prop where
  building : q.building = []
  buildingBytes : q.buildingBytes = 0
  dropBuilding : q.dropBuilding = false

theorem pushRects_cons (limits : RelayLimits) (q : QueueState) (frame : Bytes)
    (frames : List Bytes) : Session.pushRects limits q (frame :: frames) =
      Session.pushRects limits (q.pushRect limits frame).1 frames := rfl

/-- What pushing messages of an allowed length does: they are all assembled, or the frame is dropped
for being over the budget. -/
theorem pushRects_spec {limits : RelayLimits} {frames : List Bytes}
    (hfit : ∀ frame ∈ frames, frame.length ≤ limits.maxRelayFrameBytes) (q : QueueState) :
    (Session.pushRects limits q frames).latestFrame = q.latestFrame ∧
      (q.dropBuilding = false → (Session.pushRects limits q frames).dropBuilding = false →
        (Session.pushRects limits q frames).building = q.building ++ frames) ∧
      (q.dropBuilding = false → q.buildingBytes + frameBytes frames ≤ limits.maxFrameQueueBytes →
        (Session.pushRects limits q frames).dropBuilding = false) ∧
      (q.dropBuilding = true → (Session.pushRects limits q frames).dropBuilding = true) := by
  induction frames generalizing q with
  | nil =>
    exact ⟨rfl, fun _ _ => (append_nil _).symm, fun h _ => h, fun h => h⟩
  | cons frame frames ih =>
    obtain ⟨hhead, htail⟩ := forall_mem_cons.mp hfit
    have hbytes : frameBytes (frame :: frames) = frame.length + frameBytes frames := by
      rw [frameBytes, flatten_cons, length_append, frameBytes]
    obtain ⟨hlatest, hbuilding, hkept, hdropped⟩ := ih htail (q.pushRect limits frame).1
    rw [pushRects_cons]
    generalize hq : (q.pushRect limits frame).1 = pushed at hlatest hbuilding hkept hdropped ⊢
    rw [QueueState.pushRect, if_neg (Nat.not_lt.mpr hhead)] at hq
    dsimp only at hq
    by_cases hbudget : q.buildingBytes + frame.length > limits.maxFrameQueueBytes
    · rw [if_pos hbudget] at hq
      subst hq
      refine ⟨hlatest, fun _ h => ?_, fun _ h => ?_, fun _ => hdropped rfl⟩
      · rw [hdropped rfl] at h
        cases h
      · rw [hbytes] at h
        omega
    · rw [if_neg hbudget] at hq
      by_cases hdrop : q.dropBuilding = true
      · rw [if_pos hdrop] at hq
        subst hq
        exact ⟨hlatest, fun h => absurd (h.symm.trans hdrop) (by decide),
          fun h => absurd (h.symm.trans hdrop) (by decide), hdropped⟩
      · rw [if_neg hdrop] at hq
        subst hq
        refine ⟨hlatest, fun h h' => ?_, fun h hle => ?_, fun h => absurd h hdrop⟩
        · rw [hbuilding h h', append_assoc]
          rfl
        · rw [hbytes] at hle
          exact hkept h (by dsimp only; omega)

/-- A frame of such messages is queued, or the boundary tells that a frame was lost; then a frame waits
nevertheless, unless this one was over the budget. -/
theorem finishFrame_pushRects {limits : RelayLimits} {frames : List Bytes} {q : QueueState}
    (hfit : ∀ frame ∈ frames, frame.length ≤ limits.maxRelayFrameBytes) (hidle : q.Idle) :
    (Session.pushRects limits q frames).finishFrame.1.Idle ∧
      (((Session.pushRects limits q frames).finishFrame.2 = .finished false ∧ q.latestFrame = none ∧
          (Session.pushRects limits q frames).finishFrame.1.latestFrame = some frames) ∨
        ((Session.pushRects limits q frames).finishFrame.2 = .finished true ∧
          (frameBytes frames ≤ limits.maxFrameQueueBytes →
            (Session.pushRects limits q frames).finishFrame.1.latestFrame.isSome))) := by
  obtain ⟨hlatest, hbuilding, hkept, -⟩ := pushRects_spec hfit q
  rw [hidle.buildingBytes, Nat.zero_add] at hkept
  rw [hidle.building, nil_append] at hbuilding
  rw [finishFrame]
  cases hdrop : (Session.pushRects limits q frames).dropBuilding with
  | true =>
    rw [if_pos rfl]
    refine ⟨⟨rfl, rfl, rfl⟩, .inr ⟨rfl, fun hle => ?_⟩⟩
    rw [hkept hidle.dropBuilding hle] at hdrop
    cases hdrop
  | false =>
    rw [if_neg (by decide), hbuilding hidle.dropBuilding hdrop, hlatest]
    refine ⟨⟨rfl, rfl, rfl⟩, ?_⟩
    cases hq : q.latestFrame with
    | none => exact .inl ⟨rfl, rfl, rfl⟩
    | some frame => exact .inr ⟨rfl, fun _ => rfl⟩

end QueueState

/-! ## The surface -/

/-- The message of the whole surface fits into a relay frame, and that into the budget. -/
structure SurfaceFits (limits : RelayLimits) (width height : UInt16) : Prop where
  relay : relayRectHeaderLen + width.toNat * height.toNat * 4 ≤ limits.maxRelayFrameBytes
  budget : limits.maxRelayFrameBytes ≤ limits.maxFrameQueueBytes

theorem area_le_of_inside {width height : UInt16} {r : FbRect} (h : r.Inside width height) :
    r.area ≤ width.toNat * height.toNat := by
  obtain ⟨hright, hbottom⟩ := h
  rw [FbRect.right] at hright
  rw [FbRect.bottom] at hbottom
  exact Nat.mul_le_mul (by omega) (by omega)

theorem SurfaceFits.length_relayFrame {limits : RelayLimits} {fb : Framebuffer}
    (hfits : SurfaceFits limits fb.width fb.height) {r : FbRect} {data : Bytes}
    (h : fb.relayFrame r = some data) : data.length ≤ limits.maxRelayFrameBytes := by
  have hlength := Framebuffer.length_relayFrame h
  have hinside : r.Inside fb.width fb.height := by
    rw [Framebuffer.relayFrame] at h
    split at h
    · cases h
    · next hok => exact not_not.mp (not_or.mp (not_or.mp hok).2).2
  have harea := area_le_of_inside hinside
  have hrelay := hfits.relay
  omega

theorem surface_inside (s : Session) : s.surface.Inside s.framebuffer.width s.framebuffer.height := by
  refine ⟨?_, ?_⟩
  · rw [FbRect.right]
    exact Nat.le_of_eq (Nat.zero_add _)
  · rw [FbRect.bottom]
    exact Nat.le_of_eq (Nat.zero_add _)

theorem surface_has (s : Session) {px py : ℕ} (hx : px < s.framebuffer.width.toNat)
    (hy : py < s.framebuffer.height.toNat) : s.surface.Has px py := by
  refine ⟨⟨Nat.zero_le _, ?_⟩, Nat.zero_le _, ?_⟩
  · rw [FbRect.right]
    exact (Nat.zero_add _).symm ▸ hx
  · rw [FbRect.bottom]
    exact (Nat.zero_add _).symm ▸ hy

/-- On an empty list nothing is merged. -/
theorem add_empty {r : FbRect} (hw : r.w ≠ 0) (hh : r.h ≠ 0) : (Damage.empty.add r).rects = [r] := by
  rw [Damage.add, if_neg (not_or.mpr ⟨hw, hh⟩)]
  rfl

/-! ## A flush -/

namespace Session

variable {limits : RelayLimits} {s : Session}

theorem flushFrame_of_not_due (h : ¬ (s.flow.frontendReady = true ∧ s.flow.damage.rects ≠ [])) :
    s.flushFrame limits = (s, false) := by
  rw [flushFrame, if_pos]
  cases hready : s.flow.frontendReady with
  | false => rfl
  | true =>
    cases hrects : s.flow.damage.rects with
    | nil => rfl
    | cons r rest => exact absurd ⟨hready, by rw [hrects]; exact cons_ne_nil r rest⟩ h

/-- The messages of the damage. -/
def damageFrames (s : Session) : List Bytes :=
  s.flow.damage.rects.filterMap s.framebuffer.relayFrame

/-- The damage is taken and its messages are pushed. -/
def boundary (limits : RelayLimits) (s : Session) : Session :=
  { s with
    queue := (pushRects limits s.queue s.damageFrames).finishFrame.1
    flow :=
      { s.flow with
        damage := .empty
        frontendReady := false
        framesSent := s.flow.framesSent + 1 } }

theorem flushFrame_of_due (hready : s.flow.frontendReady = true)
    (hdamage : s.flow.damage.rects ≠ []) : (s.flushFrame limits).1 =
      if (pushRects limits s.queue s.damageFrames).finishFrame.2 = .finished true then
        (boundary limits s).compensate else boundary limits s := by
  have hdue : ¬ ((!s.flow.frontendReady || s.flow.damage.rects.isEmpty) = true) := by
    rw [hready, Bool.not_true, Bool.false_or, List.isEmpty_iff]
    exact hdamage
  rw [flushFrame, if_neg hdue]
  exact apply_ite Prod.fst _ _ _

/-- A flush that is due puts the damage into the queue, or damages the whole surface. Then the WebView
is waited for only if a frame is queued. -/
theorem flushFrame_spec (hfits : SurfaceFits limits s.framebuffer.width s.framebuffer.height)
    (hidle : s.queue.Idle) (hready : s.flow.frontendReady = true) (hdamage : s.flow.damage.rects ≠ []) :
    ∃ queue : QueueState, queue.Idle ∧
      ((s.queue.latestFrame = none ∧ queue.latestFrame = some s.damageFrames ∧ (s.flushFrame limits).1 =
            { s with
              queue := queue
              flow :=
                { s.flow with
                  damage := .empty
                  frontendReady := false
                  framesSent := s.flow.framesSent + 1 } }) ∨
        ∃ ready : Bool, (ready = false → queue.latestFrame.isSome) ∧
          (frameBytes s.damageFrames ≤ limits.maxFrameQueueBytes → queue.latestFrame.isSome) ∧
          (s.flushFrame limits).1 =
            { s with
              queue := queue
              flow :=
                { s.flow with
                  damage := Damage.empty.add s.surface
                  frontendReady := ready
                  framesSent := s.flow.framesSent + 1 } }) := by
  have hfit : ∀ frame ∈ s.damageFrames, frame.length ≤ limits.maxRelayFrameBytes := by
    intro frame hframe
    obtain ⟨r, -, hr⟩ := mem_filterMap.mp hframe
    exact hfits.length_relayFrame hr
  obtain ⟨hidle', hfinish⟩ := QueueState.finishFrame_pushRects hfit hidle
  refine ⟨_, hidle', ?_⟩
  rw [flushFrame_of_due hready hdamage]
  rcases hfinish with ⟨hfalse, hnone, hlatest⟩ | ⟨htrue, hkept⟩
  · left
    refine ⟨hnone, hlatest, ?_⟩
    rw [if_neg (by rw [hfalse]; decide)]
    rfl
  · right
    rw [if_pos htrue, compensate]
    dsimp only
    split
    · next hpending =>
      exact ⟨true, fun h => absurd h (by decide), hkept, rfl⟩
    · next hpending =>
      rw [Bool.not_eq_true', Bool.not_eq_false] at hpending
      exact ⟨false, fun _ => hpending, hkept, rfl⟩

end Session

/-! ## The invariant -/

/-- What every step keeps while the surface fits. -/
structure Flowing (s : Session) : Prop where
  damage : s.flow.damage.WellFormed s.framebuffer.width s.framebuffer.height
  idle : s.queue.Idle
  covered : s.Covered
  waiting : s.flow.frontendReady = false → s.Underway

namespace Flowing

variable {limits : RelayLimits} {s : Session}

/-- Damage of the whole surface covers everything. -/
theorem covers_add_surface {damage : Damage}
    (h : damage.WellFormed s.framebuffer.width s.framebuffer.height) {px py : ℕ}
    (hx : px < s.framebuffer.width.toNat) (hy : py < s.framebuffer.height.toNat) :
    (damage.add s.surface).Covers px py :=
  (Damage.add_spec h (surface_inside s)).2 px py (.inr (surface_has s hx hy))

theorem damageFullFramebuffer (h : Flowing s) : Flowing s.damageFullFramebuffer where
  damage := (Damage.add_spec h.damage (surface_inside s)).1
  idle := h.idle
  covered _ _ hx hy _ := covers_add_surface h.damage hx hy
  waiting := h.waiting

theorem setReady (h : Flowing s) (acks : ℕ) (deferred : Bool) : Flowing { s with
      acks := acks
      flow := { s.flow with frontendReady := true, requestDeferred := deferred } } where
  damage := h.damage
  idle := h.idle
  covered := h.covered
  waiting := Bool.noConfusion

theorem requestIf (h : Flowing s) (due : Bool) : Flowing (s.requestIf due) := by
  cases due with
  | true => exact ⟨h.damage, h.idle, h.covered, h.waiting⟩
  | false => exact h

/-- A frame of the damage shows all that the WebView lacks. -/
private theorem shown_boundary (h : Flowing s) (hlatest : s.queue.latestFrame = none) {px py : ℕ}
    (hx : px < s.framebuffer.width.toNat) (hy : py < s.framebuffer.height.toNat) :
    (s.inFlight ++ [s.damageFrames]).foldl paintFrame s.screen px py = s.framebuffer.pixel px py := by
  have hshown : s.shown = s.inFlight.foldl paintFrame s.screen := by
    rw [Session.shown, hlatest]
    exact congrArg _ (append_nil _)
  rw [foldl_append, ← hshown]
  refine paintFrame_relayFrames ?_
  by_cases heq : s.framebuffer.pixel px py = s.shown px py
  · exact .inr heq.symm
  · obtain ⟨r, hr, hhas⟩ := h.covered px py hx hy heq
    exact .inl ⟨r, hr, h.damage.inside r hr, hhas⟩

theorem flushFrame (h : Flowing s)
    (hfits : SurfaceFits limits s.framebuffer.width s.framebuffer.height) : Flowing (s.flushFrame limits).1 := by
  by_cases hdue : s.flow.frontendReady = true ∧ s.flow.damage.rects ≠ []
  · obtain ⟨queue, hidle, ⟨hnone, hlatest, heq⟩ | ⟨ready, hready, -, heq⟩⟩ :=
      Session.flushFrame_spec hfits h.idle hdue.1 hdue.2
    · rw [heq]
      refine ⟨Damage.wellFormed_empty _ _, hidle, fun px py hx hy hne => ?_, fun _ => .inl ?_⟩
      · refine absurd (shown_boundary h hnone hx hy).symm ?_
        rw [Session.shown, hlatest] at hne
        exact hne
      · exact hlatest ▸ rfl
    · rw [heq]
      have hempty := Damage.wellFormed_empty s.framebuffer.width s.framebuffer.height
      exact ⟨(Damage.add_spec hempty (surface_inside s)).1, hidle,
        fun px py hx hy _ => covers_add_surface hempty hx hy, fun h => .inl (hready h)⟩
  · rw [Session.flushFrame_of_not_due hdue]
    exact h

/-- Damage covers all rectangles that were added. -/
private theorem foldl_add_spec {width height : UInt16} {rects : List FbRect} {damage : Damage}
    (hdamage : damage.WellFormed width height) (hrects : ∀ r ∈ rects, r.Inside width height) :
    (rects.foldl Damage.add damage).WellFormed width height ∧
      ∀ px py, damage.Covers px py ∨ (∃ r ∈ rects, r.Has px py) →
        (rects.foldl Damage.add damage).Covers px py := by
  induction rects generalizing damage with
  | nil =>
    refine ⟨hdamage, fun px py h => ?_⟩
    rcases h with h | ⟨r, hr, -⟩
    · exact h
    · exact absurd hr not_mem_nil
  | cons rect rects ih =>
    obtain ⟨hhead, htail⟩ := forall_mem_cons.mp hrects
    obtain ⟨hwell, hcovers⟩ := Damage.add_spec hdamage hhead
    obtain ⟨hwell', hcovers'⟩ := ih hwell htail
    refine ⟨hwell', fun px py h => hcovers' px py ?_⟩
    rcases h with h | ⟨r, hr, hhas⟩
    · exact .inl (hcovers px py (.inl h))
    · rcases mem_cons.mp hr with rfl | hr
      · exact .inl (hcovers px py (.inr hhas))
      · exact .inr ⟨r, hr, hhas⟩

/-- What an update changes, its damage covers. -/
theorem update (h : Flowing s) {ops : List DrawOp} {fb : Framebuffer}
    (happly : DrawOp.applyAll s.framebuffer ops = .ok fb) :
    Flowing (s.update fb (ops.map DrawOp.rect)) := by
  obtain ⟨⟨hwidth, hheight⟩, hinside, hpixel⟩ := DrawOp.applyAll_spec happly
  have hrects : ∀ r ∈ ops.map DrawOp.rect,
      r.Inside s.framebuffer.width s.framebuffer.height := by
    intro r hr
    obtain ⟨op, hop, rfl⟩ := mem_map.mp hr
    exact hinside op hop
  obtain ⟨hwell, hcovers⟩ := foldl_add_spec h.damage hrects
  rw [Session.update]
  refine requestIf ?_ _
  refine ⟨?_, h.idle, fun px py hx hy hne => hcovers px py ?_, h.waiting⟩
  · rw [← hwidth, ← hheight] at hwell
    exact hwell
  · dsimp only at hx hy hne
    rw [hwidth] at hx
    rw [hheight] at hy
    by_cases hin : ∃ r ∈ ops.map DrawOp.rect, r.Has px py
    · exact .inr hin
    · rw [hpixel px py fun op hop hhas => hin ⟨_, mem_map_of_mem hop, hhas⟩] at hne
      exact .inl (h.covered px py hx hy hne)

/-- Messages do not touch frames. -/
theorem setQueue (h : Flowing s) {queue : QueueState} (hidle : queue.Idle)
    (hlatest : queue.latestFrame = s.queue.latestFrame) : Flowing { s with queue := queue } where
  damage := h.damage
  idle := hidle
  covered := by
    intro px py hx hy hne
    refine h.covered px py hx hy ?_
    rwa [Session.shown, hlatest] at hne
  waiting hready := by
    rw [Session.Underway, hlatest]
    exact h.waiting hready

theorem paint (h : Flowing s) : Flowing s.paint := by
  rw [Session.paint]
  split
  · exact h
  · next frame rest hinFlight =>
    refine ⟨h.damage, h.idle, fun px py hx hy hne => h.covered px py hx hy ?_,
      fun _ => .inr (.inr (Nat.zero_lt_succ _))⟩
    rwa [Session.shown, hinFlight]

/-- The writer takes a message, or moves the queued frame on. -/
theorem recv (h : Flowing s) : Flowing (s.received s.queue.recv.1 s.queue.recv.2) := by
  rw [QueueState.recv]
  cases hcritical : s.queue.criticalControl with
  | cons message rest =>
    exact h.setQueue ⟨h.idle.building, h.idle.buildingBytes, h.idle.dropBuilding⟩ rfl
  | nil =>
    cases hcontrol : s.queue.control with
    | cons message rest =>
      exact h.setQueue ⟨h.idle.building, h.idle.buildingBytes, h.idle.dropBuilding⟩ rfl
    | nil =>
      cases hlatest : s.queue.latestFrame with
      | none => exact h
      | some frame =>
        refine ⟨h.damage, ⟨h.idle.building, h.idle.buildingBytes, h.idle.dropBuilding⟩,
          fun px py hx hy hne => h.covered px py hx hy ?_, fun _ => .inr (.inl ?_)⟩
        · rw [Session.shown, hlatest]
          rw [Session.shown] at hne
          simpa only [Session.received, Option.toList_none, Option.toList_some,
            append_nil] using hne
        · exact append_ne_nil_of_right_ne_nil _ (cons_ne_nil _ _)

theorem takeDeferredRequest (h : Flowing s) :
    Flowing { s with flow := s.flow.takeDeferredRequest.1 } := by
  rw [FrameFlow.takeDeferredRequest]
  split
  · exact ⟨h.damage, h.idle, h.covered, h.waiting⟩
  · exact h

theorem ack (h : Flowing s) (hfits : SurfaceFits limits s.framebuffer.width s.framebuffer.height) :
    Flowing (s.ack limits) :=
  (((h.setReady (s.acks - 1) s.flow.requestDeferred).flushFrame hfits).takeDeferredRequest).requestIf
    _

theorem refresh (h : Flowing s) (hfits : SurfaceFits limits s.framebuffer.width s.framebuffer.height) :
    Flowing (s.refresh limits) :=
  (((h.setReady s.acks false).damageFullFramebuffer).flushFrame hfits).requestIf true

end Flowing

/-! ## Sessions -/

section Run

variable {limits : RelayLimits} {s : Session}

theorem framebuffer_flushFrame (limits : RelayLimits) (s : Session) :
    (s.flushFrame limits).1.framebuffer = s.framebuffer := by
  rw [Session.flushFrame]
  split
  · rfl
  · dsimp only
    split
    · rw [Session.compensate]
      dsimp only
      split <;> rfl
    · rfl

theorem framebuffer_requestIf (s : Session) (due : Bool) :
    (s.requestIf due).framebuffer = s.framebuffer := by
  cases due <;> rfl

/-- The framebuffer keeps its size. -/
theorem size_step (limits : RelayLimits) (s : Session) (step : SessionStep) :
    (s.step limits step).framebuffer.width = s.framebuffer.width ∧
      (s.step limits step).framebuffer.height = s.framebuffer.height := by
  cases step with
  | update ops =>
    rw [Session.step]
    split
    · next fb happly =>
      rw [Session.update, framebuffer_requestIf]
      exact (DrawOp.applyAll_spec happly).1
    · exact ⟨rfl, rfl⟩
  | flush =>
    rw [Session.step, framebuffer_flushFrame]
    exact ⟨rfl, rfl⟩
  | sendControl message => exact ⟨rfl, rfl⟩
  | sendCriticalControl message => exact ⟨rfl, rfl⟩
  | recv =>
    rw [Session.step, Session.received.eq_def]
    split <;> exact ⟨rfl, rfl⟩
  | paint =>
    rw [Session.step, Session.paint]
    split <;> exact ⟨rfl, rfl⟩
  | ack =>
    rw [Session.step, Session.ack, framebuffer_requestIf, framebuffer_flushFrame]
    exact ⟨rfl, rfl⟩
  | refresh =>
    rw [Session.step, Session.refresh, framebuffer_requestIf, framebuffer_flushFrame]
    exact ⟨rfl, rfl⟩

theorem latestFrame_sendControl (limits : RelayLimits) (q : QueueState) (message : String) :
    ((q.sendControl limits message).1.latestFrame = q.latestFrame) ∧
      (q.Idle → (q.sendControl limits message).1.Idle) := by
  rw [QueueState.sendControl]
  split
  · exact ⟨rfl, id⟩
  split
  · exact ⟨rfl, id⟩
  · exact ⟨rfl, fun h => ⟨h.building, h.buildingBytes, h.dropBuilding⟩⟩

theorem latestFrame_sendCriticalControl (limits : RelayLimits) (q : QueueState) (message : String) :
    ((q.sendCriticalControl limits message).1.latestFrame = q.latestFrame) ∧
      (q.Idle → (q.sendCriticalControl limits message).1.Idle) := by
  rw [QueueState.sendCriticalControl]
  split
  · exact ⟨rfl, id⟩
  split
  · exact ⟨rfl, id⟩
  split
  · exact ⟨rfl, id⟩
  · exact ⟨rfl, fun h => ⟨h.building, h.buildingBytes, h.dropBuilding⟩⟩

theorem Flowing.step (h : Flowing s)
    (hfits : SurfaceFits limits s.framebuffer.width s.framebuffer.height) (step : SessionStep) :
    Flowing (s.step limits step) := by
  cases step with
  | update ops =>
    rw [Session.step]
    split
    · next fb happly => exact h.update happly
    · exact h
  | flush => exact h.flushFrame hfits
  | sendControl message =>
    obtain ⟨hlatest, hidle⟩ := latestFrame_sendControl limits s.queue message
    exact h.setQueue (hidle h.idle) hlatest
  | sendCriticalControl message =>
    obtain ⟨hlatest, hidle⟩ := latestFrame_sendCriticalControl limits s.queue message
    exact h.setQueue (hidle h.idle) hlatest
  | recv => exact h.recv
  | paint => exact h.paint
  | ack => exact h.ack hfits
  | refresh => exact h.refresh hfits

theorem flowing_start (width height : UInt16) : Flowing (.start width height) where
  damage := Damage.wellFormed_empty width height
  idle := ⟨rfl, rfl, rfl⟩
  covered _ _ _ _ hne := absurd rfl hne
  waiting := Bool.noConfusion

/-- The invariant holds in every state of a session whose surface fits. -/
theorem flowing_sessionAfter {width height : UInt16} (hfits : SurfaceFits limits width height)
    (steps : List SessionStep) : ((sessionAfter limits width height steps).framebuffer.width = width ∧
        (sessionAfter limits width height steps).framebuffer.height = height) ∧
      Flowing (sessionAfter limits width height steps) := by
  induction steps using List.reverseRecOn with
  | nil => exact ⟨⟨rfl, rfl⟩, flowing_start width height⟩
  | append_singleton steps step ih =>
    obtain ⟨⟨hwidth, hheight⟩, hflowing⟩ := ih
    rw [sessionAfter, foldl_concat]
    obtain ⟨hwidth', hheight'⟩ := size_step limits (sessionAfter limits width height steps) step
    refine ⟨⟨hwidth'.trans hwidth, hheight'.trans hheight⟩, hflowing.step ?_ step⟩
    rwa [hwidth, hheight]

/-! ## What waits is served -/

/-- The size is not empty. -/
def Session.Sized (s : Session) : Prop := s.framebuffer.width ≠ 0 ∧ s.framebuffer.height ≠ 0

/-- The surface is queued as soon as it is flushed. -/
private theorem queued_of_surface (hfits : SurfaceFits limits s.framebuffer.width
    s.framebuffer.height) (hidle : s.queue.Idle) (hready : s.flow.frontendReady = true)
    (hdamage : s.flow.damage.rects = [s.surface]) :
    (s.flushFrame limits).1.queue.latestFrame.isSome := by
  have hne : s.flow.damage.rects ≠ [] := by
    rw [hdamage]
    exact cons_ne_nil _ _
  have hbytes : frameBytes s.damageFrames ≤ limits.maxFrameQueueBytes := by
    rw [Session.damageFrames, hdamage]
    cases hdata : s.framebuffer.relayFrame s.surface with
    | none =>
      rw [filterMap_cons_none hdata]
      exact Nat.zero_le _
    | some data =>
      rw [filterMap_cons_some hdata, frameBytes, filterMap_nil, flatten_singleton]
      exact Nat.le_trans (hfits.length_relayFrame hdata) hfits.budget
  obtain ⟨queue, -, ⟨-, hlatest, heq⟩ | ⟨ready, -, hkept, heq⟩⟩ :=
    Session.flushFrame_spec hfits hidle hready hne
  · rw [heq]
    exact hlatest ▸ rfl
  · rw [heq]
    exact hkept hbytes

/-- A flush that is due serves the damage, also if requests are dealt with after it. -/
private theorem flushedBy {t u : Session} (ht : Flowing t)
    (hfits : SurfaceFits limits t.framebuffer.width t.framebuffer.height) (hsized : t.Sized)
    (hready : t.flow.frontendReady = true) (hdamage : t.flow.damage.rects ≠ [])
    (hsent : t.flow.framesSent = s.flow.framesSent)
    (hu : ∃ deferred requests, u = { (t.flushFrame limits).1 with
      flow := { (t.flushFrame limits).1.flow with requestDeferred := deferred }
      requests := requests }) :
    Session.FlushedBy limits s u := by
  obtain ⟨deferred, requests, rfl⟩ := hu
  obtain ⟨queue, hidle, ⟨-, hlatest, heq⟩ | ⟨ready, hwaits, -, heq⟩⟩ :=
    Session.flushFrame_spec hfits ht.idle hready hdamage
  · rw [heq]
    exact ⟨congrArg (· + 1) hsent, .inl (hlatest ▸ rfl)⟩
  · rw [heq]
    refine ⟨congrArg (· + 1) hsent, ?_⟩
    cases ready with
    | false => exact .inl (hwaits rfl)
    | true => exact .inr (queued_of_surface hfits hidle rfl (add_empty hsized.1 hsized.2))

theorem requestDeferred_flushFrame (limits : RelayLimits) (s : Session) :
    (s.flushFrame limits).1.flow.requestDeferred = s.flow.requestDeferred ∧
      (s.flushFrame limits).1.requests = s.requests := by
  rw [Session.flushFrame]
  split
  · exact ⟨rfl, rfl⟩
  · dsimp only
    split
    · rw [Session.compensate]
      dsimp only
      split <;> exact ⟨rfl, rfl⟩
    · exact ⟨rfl, rfl⟩

/-- Dealing with the request that waits changes nothing else. -/
private theorem exists_of_takeDeferred (s : Session) : ∃ deferred requests,
    Session.requestIf { s with flow := s.flow.takeDeferredRequest.1 } s.flow.takeDeferredRequest.2 =
      { s with flow := { s.flow with requestDeferred := deferred }, requests := requests } := by
  rw [FrameFlow.takeDeferredRequest]
  split
  · cases s.flow.requestDeferred with
    | true => exact ⟨false, s.requests + 1, rfl⟩
    | false => exact ⟨false, s.requests, rfl⟩
  · exact ⟨s.flow.requestDeferred, s.requests, rfl⟩

theorem Flowing.served (h : Flowing s)
    (hfits : SurfaceFits limits s.framebuffer.width s.framebuffer.height) (hsized : s.Sized) :
    s.Served limits where
  ack_flushes hdamage := by
    have hset := h.setReady (s.acks - 1) s.flow.requestDeferred
    exact flushedBy hset hfits hsized rfl hdamage rfl (exists_of_takeDeferred _)
  ack_requests hdamage hdeferred := by
    have hnot : ¬ (true = true ∧ s.flow.damage.rects ≠ []) := fun h => h.2 hdamage
    rw [Session.ack]
    dsimp only
    rw [Session.flushFrame_of_not_due hnot, FrameFlow.takeDeferredRequest, if_pos (by
      rw [hdamage]
      rfl)]
    dsimp only
    rw [hdeferred]
    exact ⟨rfl, rfl⟩
  refresh_flushes := by
    have hset := (h.setReady s.acks false).damageFullFramebuffer
    refine flushedBy hset hfits hsized rfl ?_ rfl ⟨_, _, rfl⟩
    have hpos : 0 < s.framebuffer.width.toNat ∧ 0 < s.framebuffer.height.toNat := by
      constructor
      · exact Nat.pos_of_ne_zero fun h0 => hsized.1 (toNat_inj.mp h0)
      · exact Nat.pos_of_ne_zero fun h0 => hsized.2 (toNat_inj.mp h0)
    obtain ⟨r, hr, -⟩ := covers_add_surface h.damage hpos.1 hpos.2
    exact ne_nil_of_mem hr
  refresh_requests := by
    obtain ⟨hdeferred, hrequests⟩ := requestDeferred_flushFrame limits
      (Session.damageFullFramebuffer
        { s with flow := { s.flow with frontendReady := true, requestDeferred := false } })
    exact ⟨congrArg (· + 1) hrequests, hdeferred⟩

theorem Flowing.controlled (h : Flowing s)
    (hfits : SurfaceFits limits s.framebuffer.width s.framebuffer.height) (hsized : s.Sized) :
    s.Controlled limits where
  covered := h.covered
  awaited _ := by
    cases hready : s.flow.frontendReady with
    | true => exact .inr rfl
    | false => exact .inl (h.waiting hready)
  served _ := h.served hfits hsized

end Run

/-! ## A surface that does not fit -/

/-- An update that draws the first pixel. -/
def drawFirstPixel : SessionStep := .update [.blit ⟨0, 0, 1, 1⟩ [⟨1, 1, 1, 255⟩]]

/-- A larger rectangle at the origin replaces the first pixel. -/
private theorem add_surface_of_first {w h : UInt16} (hw : w ≠ 0) (hh : h ≠ 0)
    (hlarge : 1 < w.toNat ∨ 1 < h.toNat) :
    (Damage.add ⟨[⟨0, 0, 1, 1⟩]⟩ ⟨0, 0, w, h⟩).rects = [⟨0, 0, w, h⟩] := by
  have hwpos : 0 < w.toNat := Nat.pos_of_ne_zero fun h0 => hw (toNat_inj.mp h0)
  have hhpos : 0 < h.toNat := Nat.pos_of_ne_zero fun h0 => hh (toNat_inj.mp h0)
  have hnot : FbRect.contains ⟨0, 0, 1, 1⟩ ⟨0, 0, w, h⟩ = false := by
    rw [← Bool.not_eq_true]
    intro hcontains
    simp only [FbRect.contains, FbRect.right, FbRect.bottom, Bool.and_eq_true,
      decide_eq_true_eq, toNat_zero, toNat_one] at hcontains
    omega
  have hmerge : mergeable ⟨0, 0, w, h⟩ ⟨0, 0, 1, 1⟩ = true := by
    rw [mergeable, Bool.or_eq_true]
    left
    simp only [FbRect.contains, FbRect.right, FbRect.bottom, Bool.and_eq_true,
      decide_eq_true_eq, toNat_zero, toNat_one]
    omega
  have hunion : FbRect.union ⟨0, 0, w, h⟩ ⟨0, 0, 1, 1⟩ = ⟨0, 0, w, h⟩ := by
    have hcast (n : UInt16) (hn : 0 < n.toNat) : UInt16.ofNat (max n.toNat 1) = n := by
      rw [Nat.max_eq_left hn, UInt16.ofNat_toNat]
    simp only [FbRect.union, FbRect.right, FbRect.bottom, toNat_zero, toNat_one,
      Nat.zero_add, Nat.le_refl, if_true, Nat.sub_zero, hcast w hwpos, hcast h hhpos]
  have hscan : scan (scanFuel [(⟨0, 0, 1, 1⟩ : FbRect)].length) [⟨0, 0, 1, 1⟩] ⟨0, 0, w, h⟩ 0 =
      some (.merged [] ⟨0, 0, w, h⟩) := by
    show scan 3 [⟨0, 0, 1, 1⟩] ⟨0, 0, w, h⟩ 0 = _
    rw [scan.eq_def]
    simp only [getElem?_cons_zero, hnot, hmerge, hunion, Bool.false_eq_true, if_false,
      if_true]
    rfl
  rw [Damage.add, if_neg (not_or.mpr ⟨hw, hh⟩)]
  simp only [hscan]
  rfl

/-- The framebuffer after that update. -/
private def firstPixelDrawn (w h : UInt16) : Framebuffer where
  width := w
  height := h
  pixel := fun px py =>
    if FbRect.Has ⟨0, 0, 1, 1⟩ px py then
      [⟨1, 1, 1, 255⟩].getD (Framebuffer.offset ⟨0, 0, 1, 1⟩ px py) ⟨0, 0, 0, 0⟩
    else ⟨0, 0, 0, 0⟩

/-- The update leaves the first pixel damaged. -/
private theorem step_drawFirstPixel (limits : RelayLimits) {w h : UInt16} (hw : w ≠ 0)
    (hh : h ≠ 0) : (Session.start w h).step limits drawFirstPixel = { Session.start w h with
        framebuffer := firstPixelDrawn w h
        flow := { FrameFlow.new with damage := ⟨[⟨0, 0, 1, 1⟩]⟩, requestDeferred := true } } := by
  have hinside : FbRect.Inside w h ⟨0, 0, 1, 1⟩ := by
    have hwpos : 0 < w.toNat := Nat.pos_of_ne_zero fun h0 => hw (toNat_inj.mp h0)
    have hhpos : 0 < h.toNat := Nat.pos_of_ne_zero fun h0 => hh (toNat_inj.mp h0)
    simp only [FbRect.Inside, FbRect.right, FbRect.bottom, toNat_zero, toNat_one]
    omega
  have hblit : (Session.start w h).framebuffer.blit ⟨0, 0, 1, 1⟩ [⟨1, 1, 1, 255⟩] =
      .ok (firstPixelDrawn w h) := by
    rw [Framebuffer.blit, if_neg]
    · rfl
    · rintro (hout | hshort)
      · exact hout hinside
      · exact absurd hshort (by decide)
  rw [drawFirstPixel, Session.step, DrawOp.applyAll, DrawOp.apply, hblit]
  rfl

/-- A message that is too long is refused, and the frame goes out without it. -/
private theorem flushFrame_refused {limits : RelayLimits} {s : Session} {data : Bytes}
    (hready : s.flow.frontendReady = true) (hdamage : s.flow.damage.rects = [s.surface])
    (hqueue : s.queue = .new) (hdata : s.framebuffer.relayFrame s.surface = some data)
    (hlong : limits.maxRelayFrameBytes < data.length) : (s.flushFrame limits).1 = { s with
        queue := { QueueState.new with latestFrame := some [] }
        flow :=
          { s.flow with
            damage := .empty
            frontendReady := false
            framesSent := s.flow.framesSent + 1 } } := by
  have hpush : QueueState.pushRect limits .new data =
      (.new, .error "VNC relay rectangle exceeds configured limit") := by
    rw [QueueState.pushRect, if_pos hlong]
  have hframes : s.damageFrames = [data] := by
    rw [Session.damageFrames, hdamage, filterMap_cons_some hdata, filterMap_nil]
  rw [Session.flushFrame_of_due hready (by rw [hdamage]; exact cons_ne_nil _ _),
    Session.boundary, hframes, hqueue, QueueState.pushRects_cons, hpush]
  rfl

/-- The first pixel is lost: it is neither shown nor damaged. -/
private theorem not_covered_of_large {limits : RelayLimits} {w h : UInt16} (hw : w ≠ 0)
    (hh : h ≠ 0) (hlarge : 1 < w.toNat ∨ 1 < h.toNat)
    (hlong : limits.maxRelayFrameBytes < relayRectHeaderLen + w.toNat * h.toNat * 4) :
    ¬ (sessionAfter limits w h [drawFirstPixel, .refresh]).Covered := by
  have hwpos : 0 < w.toNat := Nat.pos_of_ne_zero fun h0 => hw (toNat_inj.mp h0)
  have hhpos : 0 < h.toNat := Nat.pos_of_ne_zero fun h0 => hh (toNat_inj.mp h0)
  let s : Session :=
    { Session.start w h with
      framebuffer := firstPixelDrawn w h
      flow := { FrameFlow.new with damage := Damage.add ⟨[⟨0, 0, 1, 1⟩]⟩ ⟨0, 0, w, h⟩ } }
  have hsession : sessionAfter limits w h [drawFirstPixel, .refresh] =
      Session.requestIf (s.flushFrame limits).1 true := by
    rw [sessionAfter, foldl_cons, step_drawFirstPixel limits hw hh]
    rfl
  obtain ⟨data, hdata⟩ : ∃ data, s.framebuffer.relayFrame s.surface = some data := by
    rw [Framebuffer.relayFrame, if_neg]
    · exact ⟨_, rfl⟩
    · rintro (h0 | h0 | hout)
      · exact hw h0
      · exact hh h0
      · exact hout (surface_inside s)
  rw [hsession, flushFrame_refused rfl (add_surface_of_first hw hh hlarge) rfl hdata
    (by rw [Framebuffer.length_relayFrame hdata]; exact hlong)]
  intro hcovered
  have hne : (⟨1, 1, 1, 255⟩ : Rgba) ≠ ⟨0, 0, 0, 0⟩ := by decide
  obtain ⟨r, hr, -⟩ := hcovered 0 0 hwpos hhpos hne
  exact absurd hr not_mem_nil

/-- Within the default limits, flow control holds in every session exactly if the message of the whole
framebuffer is not refused. -/
theorem controlled_iff {w h : UInt16} {bytes : ℕ} (hsize : framebufferBytes w h = .ok bytes) :
    (∀ steps, (sessionAfter .default w h steps).Controlled .default) ↔
      relayRectHeaderLen + bytes ≤ RelayLimits.default.maxRelayFrameBytes := by
  rw [framebufferBytes] at hsize
  split at hsize
  · cases hsize
  next hnonzero =>
  split at hsize
  · cases hsize
  split at hsize
  · cases hsize
  cases hsize
  obtain ⟨hw, hh⟩ := not_or.mp hnonzero
  constructor
  · intro hall
    rw [← Nat.not_lt]
    intro hlong
    refine not_covered_of_large hw hh ?_ hlong (hall _).covered
    -- a single pixel would fit
    by_contra hsmall
    have harea : w.toNat * h.toNat ≤ 1 * 1 := Nat.mul_le_mul (by omega) (by omega)
    have hlimit : RelayLimits.default.maxRelayFrameBytes = 128 * 1024 * 1024 + 12 := rfl
    have hheader : relayRectHeaderLen = 12 := rfl
    omega
  · intro hfit steps
    have hfits : SurfaceFits .default w h := ⟨hfit, by decide⟩
    obtain ⟨⟨hwidth, hheight⟩, hflowing⟩ := flowing_sessionAfter hfits steps
    refine hflowing.controlled (by rwa [hwidth, hheight]) ⟨?_, ?_⟩
    · rwa [hwidth]
    · rwa [hheight]

theorem controlled_iff_hd : (∀ steps, (sessionAfter .default 1920 1080 steps).Controlled .default) ↔
      relayRectHeaderLen + 1920 * 1080 * 4 ≤ RelayLimits.default.maxRelayFrameBytes :=
  controlled_iff (by rfl)

/-- A framebuffer that is accepted, and whose repaint is lost. -/
theorem not_controlled_of_8192_4097 : framebufferBytes 8192 4097 = .ok (8192 * 4097 * 4) ∧
    ¬ (sessionAfter .default 8192 4097 [drawFirstPixel, .refresh]).Controlled .default :=
  ⟨by rfl, fun h => not_covered_of_large (by decide) (by decide) (by decide) (by decide) h.covered⟩

end Taomni.Vnc
