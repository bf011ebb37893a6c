import Mathlib.Data.List.Induction
import Taomni.Vnc.Queue

/-!
# Runs over the VNC output queue

Reference: `src-tauri/src/vnc/queue.rs`.

The queue answers every call as its history says it has to (`Due`). What the state holds is what the
history still has waiting, and a frame that is over its budget is exactly one whose rectangles do not
fit.
-/

namespace Taomni.Vnc

open List
open Ledger

/-! ## The state and the history -/

/-- The state holds what the history has waiting. -/
structure Agrees (limits : RelayLimits) (s : QueueState) (l : QueueLedger) : Prop where
  critical : s.criticalControl = l.critical.waiting
  control : s.control = l.control.waiting
  latest : s.latestFrame.toList = l.frames.waiting
  building : s.building = if oversized limits l.assembling then [] else l.assembling
  buildingBytes : s.buildingBytes = frameBytes s.building
  dropBuilding : s.dropBuilding = oversized limits l.assembling
  isOpen : s.closed = false

/-- Items are received in order, no critical message is lost and no normal one is cleared, and a frame
that was not dropped fits into the budget. -/
structure Balanced (limits : RelayLimits) (l : QueueLedger) : Prop where
  frames : l.frames.InOrder
  critical : l.critical.InOrder
  control : l.control.InOrder
  criticalKept : ∀ e ∈ l.critical, e.2 = .waiting ∨ e.2 = .received
  controlKept : ∀ e ∈ l.control, e.2 ≠ .cleared
  budget : ∀ e ∈ l.frames, e.2 ≠ .dropped → frameBytes e.1 ≤ limits.maxFrameQueueBytes

variable {limits : RelayLimits} {s : QueueState} {l : QueueLedger}

theorem agrees_new (limits : RelayLimits) : Agrees limits .new .empty where
  critical := rfl
  control := rfl
  latest := rfl
  building := by
    rw [QueueLedger.empty]
    split <;> rfl
  buildingBytes := rfl
  dropBuilding := rfl
  isOpen := rfl

theorem balanced_empty (limits : RelayLimits) : Balanced limits .empty where
  frames := inOrder_nil
  critical := inOrder_nil
  control := inOrder_nil
  criticalKept := by
    intro e he
    cases he
  controlKept := by
    intro e he
    cases he
  budget := by
    intro e he
    cases he

/-! ## Frames -/

theorem frameBytes_append (frame : Frame) (bytes : Bytes) :
    frameBytes (frame ++ [bytes]) = frameBytes frame + bytes.length := by
  rw [frameBytes, flatten_append, length_append, flatten_singleton]
  rfl

theorem frameBytes_nil : frameBytes [] = 0 := rfl

/-- Within its budget the frame is assembled as it is. -/
theorem Agrees.building_eq (h : Agrees limits s l) (hfits : oversized limits l.assembling = false) :
    s.building = l.assembling := by
  rw [h.building, hfits]
  exact if_neg Bool.false_ne_true

theorem Agrees.pushRect (h : Agrees limits s l) (bytes : Bytes) :
    Due limits l (.pushRect bytes, (s.pushRect limits bytes).2) ∧
      Agrees limits (s.pushRect limits bytes).1
        (l.record limits (.pushRect bytes, (s.pushRect limits bytes).2)) := by
  rw [QueueState.pushRect]
  split
  · next hlarge => exact ⟨(if_pos hlarge).symm, h⟩
  next hsmall =>
  have hbytes : s.buildingBytes
      = if oversized limits l.assembling then 0 else frameBytes l.assembling := by
    rw [h.buildingBytes, h.building]
    split <;> rfl
  have hdue : Due limits l (.pushRect bytes, .done) := (if_neg hsmall).symm
  have hnext : oversized limits (l.assembling ++ [bytes])
      = decide (frameBytes l.assembling + bytes.length > limits.maxFrameQueueBytes) := by
    rw [oversized, frameBytes_append]
  dsimp only
  cases hover : oversized limits l.assembling with
  | true =>
    -- the frame is lost already; whatever follows is dropped with it
    have hover' : oversized limits (l.assembling ++ [bytes]) = true := by
      rw [oversized, decide_eq_true_eq] at hover
      rw [hnext, decide_eq_true_eq]
      omega
    have hempty : s.building = [] := by
      rw [h.building, hover]
      rfl
    split
    · exact ⟨hdue, h.critical, h.control, h.latest, by rw [QueueLedger.record, hover']; rfl, rfl,
        hover'.symm, h.isOpen⟩
    · rw [if_pos (h.dropBuilding.trans hover)]
      exact ⟨hdue, h.critical, h.control, h.latest, by rw [QueueLedger.record, hover', hempty]; rfl,
        h.buildingBytes, (h.dropBuilding.trans hover).trans hover'.symm, h.isOpen⟩
  | false =>
    rw [hbytes, hover, if_neg Bool.false_ne_true]
    split
    · next hfull =>
      have hover' : oversized limits (l.assembling ++ [bytes]) = true := by
        rw [hnext, decide_eq_true_eq]
        exact hfull
      exact ⟨hdue, h.critical, h.control, h.latest, by rw [QueueLedger.record, hover']; rfl, rfl,
        hover'.symm, h.isOpen⟩
    · next hfits =>
      have hover' : oversized limits (l.assembling ++ [bytes]) = false := by
        rw [hnext, decide_eq_false_iff_not]
        exact hfits
      rw [if_neg (Bool.eq_false_iff.mp (h.dropBuilding.trans hover)), h.building_eq hover]
      exact ⟨hdue, h.critical, h.control, h.latest, by rw [QueueLedger.record, hover']; rfl,
        (frameBytes_append _ _).symm, (h.dropBuilding.trans hover).trans hover'.symm, h.isOpen⟩

private theorem oversized_nil (limits : RelayLimits) : oversized limits [] = false := by
  rw [oversized, frameBytes_nil]
  exact decide_eq_false (Nat.not_lt_zero _)

/-- A new frame starts with nothing. -/
private theorem building_nil (limits : RelayLimits) :
    ([] : Frame) = if oversized limits [] then [] else [] := by
  rw [ite_self]

private theorem isSome_eq (h : Agrees limits s l) :
    s.latestFrame.isSome = !l.frames.waiting.isEmpty := by
  rw [← h.latest]
  cases s.latestFrame <;> rfl

theorem Agrees.finishFrame (h : Agrees limits s l) : Due limits l (.finishFrame, s.finishFrame.2) ∧
      Agrees limits s.finishFrame.1 (l.record limits (.finishFrame, s.finishFrame.2)) := by
  rw [QueueState.finishFrame]
  cases hover : oversized limits l.assembling with
  | true =>
    rw [if_pos (h.dropBuilding.trans hover)]
    refine ⟨by rw [Due, hover, Bool.true_or], ?_⟩
    rw [QueueLedger.record, if_pos rfl, if_pos hover]
    refine ⟨h.critical, h.control, ?_, building_nil limits, rfl, (oversized_nil limits).symm,
      h.isOpen⟩
    rw [waiting, withFate_append, withFate_cons, if_neg Fate.noConfusion]
    exact h.latest.trans (append_nil _).symm
  | false =>
    rw [if_neg (Bool.eq_false_iff.mp (h.dropBuilding.trans hover))]
    refine ⟨by rw [Due, hover, Bool.false_or, isSome_eq h], ?_⟩
    have hlatest : ∀ frames : Ledger Frame, frames.waiting = [] →
        (some s.building).toList = (frames.enter l.assembling).waiting := by
      intro frames hframes
      rw [waiting_enter, hframes, h.building_eq hover]
      rfl
    dsimp only
    cases hpending : s.latestFrame.isSome with
    | true =>
      rw [QueueLedger.record, if_pos rfl, if_neg (Bool.eq_false_iff.mp hover)]
      refine ⟨h.critical, h.control, ?_, building_nil limits, rfl, (oversized_nil limits).symm,
        h.isOpen⟩
      refine hlatest _ ?_
      rw [waiting_settle Fate.noConfusion, ← h.latest]
      cases s.latestFrame <;> rfl
    | false =>
      rw [QueueLedger.record, if_neg Bool.false_ne_true]
      refine ⟨h.critical, h.control, ?_, building_nil limits, rfl, (oversized_nil limits).symm,
        h.isOpen⟩
      refine hlatest _ ?_
      rw [← h.latest, Option.not_isSome_iff_eq_none.mp (Bool.eq_false_iff.mp hpending)]
      rfl

theorem Agrees.clearFrames (h : Agrees limits s l) :
    Agrees limits s.clearFrames (l.record limits (.clearFrames, .done)) := by
  refine ⟨h.critical, h.control, ?_, building_nil limits, rfl, (oversized_nil limits).symm,
    h.isOpen⟩
  rw [QueueLedger.record, waiting_settle Fate.noConfusion, ← h.latest]
  cases s.latestFrame <;> rfl

/-! ## Messages -/

theorem Agrees.sendControl (h : Agrees limits s l) (message : String) :
    Due limits l (.sendControl message, (s.sendControl limits message).2) ∧
      Agrees limits (s.sendControl limits message).1
        (l.record limits (.sendControl message, (s.sendControl limits message).2)) := by
  rw [QueueState.sendControl]
  split
  · next hlarge => exact ⟨(if_pos hlarge).symm, h⟩
  next hsmall =>
  rw [if_neg (Bool.eq_false_iff.mp h.isOpen)]
  refine ⟨(if_neg hsmall).symm, h.critical, ?_, h.latest, h.building, h.buildingBytes,
    h.dropBuilding, h.isOpen⟩
  rw [QueueLedger.record, waiting_enter, h.control]
  dsimp only
  split
  · rw [waiting_settle Fate.noConfusion]
  · rfl

theorem Agrees.sendCriticalControl (h : Agrees limits s l) (message : String) :
    Due limits l (.sendCriticalControl message, (s.sendCriticalControl limits message).2) ∧
      Agrees limits (s.sendCriticalControl limits message).1
        (l.record limits (.sendCriticalControl message, (s.sendCriticalControl limits message).2)) := by
  rw [QueueState.sendCriticalControl]
  split
  · next hlarge => exact ⟨(if_pos hlarge).symm, h⟩
  next hsmall =>
  rw [if_neg (Bool.eq_false_iff.mp h.isOpen), h.critical]
  split
  · next hfull => exact ⟨((if_neg hsmall).trans (if_pos hfull)).symm, h⟩
  next hroom =>
  refine ⟨((if_neg hsmall).trans (if_neg hroom)).symm, ?_, h.control, h.latest, h.building, h.buildingBytes,
    h.dropBuilding, h.isOpen⟩
  rw [QueueLedger.record, waiting_enter]

theorem Agrees.recv (h : Agrees limits s l) : Due limits l (.recv, .output s.recv.2) ∧
      Agrees limits s.recv.1 (l.record limits (.recv, .output s.recv.2)) := by
  have hcritical := h.critical
  have hcontrol := h.control
  have hlatest := h.latest
  rw [QueueState.recv, Due, QueueLedger.next]
  cases hc : s.criticalControl with
  | cons message rest =>
    rw [hc] at hcritical
    rw [← hcritical]
    refine ⟨rfl, ?_⟩
    dsimp only
    rw [QueueLedger.record, QueueLedger.received, ← hcritical, if_neg (cons_ne_nil _ _)]
    refine ⟨?_, h.control, h.latest, h.building, h.buildingBytes, h.dropBuilding, h.isOpen⟩
    rw [waiting_settle Fate.noConfusion, ← hcritical]
    rfl
  | nil =>
    rw [hc] at hcritical
    rw [← hcritical]
    cases hm : s.control with
    | cons message rest =>
      rw [hm] at hcontrol
      rw [← hcontrol]
      refine ⟨rfl, ?_⟩
      dsimp only
      rw [QueueLedger.record, QueueLedger.received, if_pos hcritical.symm]
      refine ⟨hcritical, ?_, h.latest, h.building, h.buildingBytes, h.dropBuilding, h.isOpen⟩
      rw [waiting_settle Fate.noConfusion, ← hcontrol]
      rfl
    | nil =>
      rw [hm] at hcontrol
      rw [← hcontrol]
      cases hf : s.latestFrame with
      | some frame =>
        rw [hf] at hlatest
        rw [← hlatest]
        refine ⟨rfl, ?_⟩
        dsimp only
        rw [QueueLedger.record, QueueLedger.received]
        refine ⟨hcritical, hcontrol, ?_, h.building, h.buildingBytes, h.dropBuilding, h.isOpen⟩
        rw [waiting_settle Fate.noConfusion, ← hlatest]
        rfl
      | none =>
        rw [hf] at hlatest
        rw [← hlatest]
        exact ⟨rfl, h⟩

/-- Every call is answered as its history says, and leaves the state in agreement with it. -/
theorem Agrees.call (h : Agrees limits s l) (c : QueueCall) : Due limits l (c, (s.call limits c).2) ∧
      Agrees limits (s.call limits c).1 (l.record limits (c, (s.call limits c).2)) := by
  cases c with
  | pushRect bytes => exact h.pushRect bytes
  | finishFrame => exact h.finishFrame
  | clearFrames => exact ⟨rfl, h.clearFrames⟩
  | sendControl message => exact h.sendControl message
  | sendCriticalControl message => exact h.sendCriticalControl message
  | recv => exact h.recv

/-! ## The balance of the history -/

private theorem budget_settle {fate : Fate} {frames : Ledger Frame} {bound : ℕ}
    (h : ∀ e ∈ frames, e.2 ≠ .dropped → frameBytes e.1 ≤ bound) :
    ∀ e ∈ frames.settle fate, e.2 ≠ .dropped → frameBytes e.1 ≤ bound := by
  intro e he hne
  rcases mem_settle he with he | ⟨-, he⟩
  · exact h e he hne
  · exact h (e.1, .waiting) he Fate.noConfusion

private theorem budget_enter {frames : Ledger Frame} {frame : Frame}
    (h : ∀ e ∈ frames, e.2 ≠ .dropped → frameBytes e.1 ≤ limits.maxFrameQueueBytes)
    (hframe : ¬ oversized limits frame = true) :
    ∀ e ∈ frames.enter frame, e.2 ≠ .dropped → frameBytes e.1 ≤ limits.maxFrameQueueBytes := by
  intro e he hne
  rcases mem_append.mp he with he | he
  · exact h e he hne
  · rw [mem_singleton.mp he]
    rw [oversized, decide_eq_true_eq] at hframe
    exact Nat.not_lt.mp hframe

theorem Balanced.finishFrame (h : Balanced limits l) {dropped : Bool}
    (hdue : Due limits l (.finishFrame, .finished dropped)) :
    Balanced limits (l.record limits (.finishFrame, .finished dropped)) := by
  rw [Due, QueueResponse.finished.injEq] at hdue
  rw [QueueLedger.record]
  split
  · split
    · refine ⟨h.frames.append_singleton Fate.noConfusion, h.critical, h.control, h.criticalKept,
        h.controlKept, ?_⟩
      intro e he hne
      rcases mem_append.mp he with he | he
      · exact h.budget e he hne
      · rw [mem_singleton.mp he] at hne
        exact absurd rfl hne
    · next hfits =>
      exact ⟨(h.frames.settle Fate.noConfusion).append_singleton Fate.noConfusion, h.critical,
        h.control, h.criticalKept, h.controlKept, budget_enter (budget_settle h.budget) hfits⟩
  · next hkept =>
    have hfits : ¬ oversized limits l.assembling = true := by
      intro hover
      rw [hover, Bool.true_or] at hdue
      exact hkept hdue
    exact ⟨h.frames.append_singleton Fate.noConfusion, h.critical, h.control, h.criticalKept,
      h.controlKept, budget_enter h.budget hfits⟩

private theorem controlKept_settle {fate : Fate} (hfate : fate ≠ .cleared) {control : Ledger String}
    (h : ∀ e ∈ control, e.2 ≠ .cleared) : ∀ e ∈ control.settle fate, e.2 ≠ .cleared := by
  intro e he
  rcases mem_settle he with he | ⟨he, -⟩
  · exact h e he
  · rwa [he]

theorem Balanced.sendControl (h : Balanced limits l) (message : String) :
    Balanced limits (l.record limits (.sendControl message, .done)) := by
  have henter : ∀ control : Ledger String, (∀ e ∈ control, e.2 ≠ .cleared) →
      ∀ e ∈ control.enter message, e.2 ≠ .cleared := by
    intro control hcontrol e he
    rcases mem_append.mp he with he | he
    · exact hcontrol e he
    · rw [mem_singleton.mp he]
      exact Fate.noConfusion
  rw [QueueLedger.record]
  split
  · exact ⟨h.frames, h.critical, (h.control.settle Fate.noConfusion).append_singleton
      Fate.noConfusion, h.criticalKept, henter _ (controlKept_settle Fate.noConfusion h.controlKept),
      h.budget⟩
  · exact ⟨h.frames, h.critical, h.control.append_singleton Fate.noConfusion, h.criticalKept,
      henter _ h.controlKept, h.budget⟩

theorem Balanced.sendCriticalControl (h : Balanced limits l) (message : String) :
    Balanced limits (l.record limits (.sendCriticalControl message, .done)) := by
  refine ⟨h.frames, h.critical.append_singleton Fate.noConfusion, h.control, ?_, h.controlKept,
    h.budget⟩
  intro e he
  rcases mem_append.mp he with he | he
  · exact h.criticalKept e he
  · exact .inl (by rw [mem_singleton.mp he])

theorem Balanced.received (h : Balanced limits l) (out : QueuedWsOutgoing) :
    Balanced limits (l.received out) := by
  cases out with
  | frame rects =>
    exact ⟨h.frames.settle Fate.noConfusion, h.critical, h.control, h.criticalKept, h.controlKept,
      budget_settle h.budget⟩
  | control message =>
    rw [QueueLedger.received]
    split
    · exact ⟨h.frames, h.critical, h.control.settle Fate.noConfusion, h.criticalKept,
        controlKept_settle Fate.noConfusion h.controlKept, h.budget⟩
    · refine ⟨h.frames, h.critical.settle Fate.noConfusion, h.control, ?_, h.controlKept, h.budget⟩
      intro e he
      rcases mem_settle he with he | ⟨he, -⟩
      · exact h.criticalKept e he
      · exact .inr he

/-- The balance is kept by every event that was due. -/
theorem Balanced.record (h : Balanced limits l) {c : QueueCall} {response : QueueResponse}
    (hdue : Due limits l (c, response)) : Balanced limits (l.record limits (c, response)) := by
  cases c with
  | pushRect bytes =>
    obtain rfl := hdue
    split
    · exact h
    · exact ⟨h.frames, h.critical, h.control, h.criticalKept, h.controlKept, h.budget⟩
  | finishFrame =>
    have hfinished := hdue
    obtain rfl := hfinished
    exact h.finishFrame hdue
  | clearFrames =>
    obtain rfl := hdue
    exact ⟨h.frames.settle Fate.noConfusion, h.critical, h.control, h.criticalKept, h.controlKept,
      budget_settle h.budget⟩
  | sendControl message =>
    obtain rfl := hdue
    split
    · exact h
    · exact h.sendControl message
  | sendCriticalControl message =>
    obtain rfl := hdue
    split
    · exact h
    split
    · exact h
    · exact h.sendCriticalControl message
  | recv =>
    obtain rfl := hdue
    cases hnext : l.next with
    | none => exact h
    | some out => exact h.received out

/-! ## Reading the history -/

/-- The ledger has what can be read off the events. -/
structure Reads (events : List QueueEvent) (l : QueueLedger) : Prop where
  received : receivedFrames events = l.frames.withFate .received
  segments : segments events = (l.frames.map Prod.fst, l.assembling)
  control : acceptedControl events = l.control.map Prod.fst
  critical : acceptedCritical events = l.critical.map Prod.fst

theorem reads_empty : Reads [] .empty := ⟨rfl, rfl, rfl, rfl⟩

private theorem receivedFrames_concat (events : List QueueEvent) (e : QueueEvent) :
    receivedFrames (events ++ [e]) = receivedFrames events ++ receivedFrames [e] :=
  filterMap_append

private theorem acceptedControl_concat (events : List QueueEvent) (e : QueueEvent) :
    acceptedControl (events ++ [e]) = acceptedControl events ++ acceptedControl [e] :=
  filterMap_append

private theorem acceptedCritical_concat (events : List QueueEvent) (e : QueueEvent) :
    acceptedCritical (events ++ [e]) = acceptedCritical events ++ acceptedCritical [e] :=
  filterMap_append

variable {events : List QueueEvent}

/-- An event that is no output, no boundary and no accepted item adds nothing. -/
private theorem Reads.skip (h : Reads events l) {e : QueueEvent}
    (hreceived : receivedFrames [e] = []) (hcontrol : acceptedControl [e] = [])
    (hcritical : acceptedCritical [e] = [])
    (hsegments : Vnc.segments (events ++ [e]) = Vnc.segments events) : Reads (events ++ [e]) l where
  received := by rw [receivedFrames_concat, hreceived, append_nil, h.received]
  segments := hsegments.trans h.segments
  control := by rw [acceptedControl_concat, hcontrol, append_nil, h.control]
  critical := by rw [acceptedCritical_concat, hcritical, append_nil, h.critical]

private theorem segments_concat (events : List QueueEvent) (e : QueueEvent) :
    Vnc.segments (events ++ [e]) = match e with
      | (.pushRect bytes, .done) => ((Vnc.segments events).1, (Vnc.segments events).2 ++ [bytes])
      | (.finishFrame, _) => ((Vnc.segments events).1 ++ [(Vnc.segments events).2], [])
      | (.clearFrames, _) => ((Vnc.segments events).1, [])
      | _ => Vnc.segments events := by
  rw [Vnc.segments, foldl_concat]
  rfl

theorem Reads.finishFrame (h : Reads events l) (dropped : Bool) :
    Reads (events ++ [(.finishFrame, .finished dropped)])
      (l.record limits (.finishFrame, .finished dropped)) := by
  have hsegments : Vnc.segments (events ++ [(.finishFrame, .finished dropped)])
      = (l.frames.map Prod.fst ++ [l.assembling], []) := by
    rw [segments_concat, h.segments]
  have hreceived : receivedFrames (events ++ [(.finishFrame, .finished dropped)])
      = l.frames.withFate .received := by
    rw [receivedFrames_concat, h.received]
    exact append_nil _
  have hcontrol : acceptedControl (events ++ [(.finishFrame, .finished dropped)])
      = l.control.map Prod.fst := by
    rw [acceptedControl_concat, h.control]
    exact append_nil _
  have hcritical : acceptedCritical (events ++ [(.finishFrame, .finished dropped)])
      = l.critical.map Prod.fst := by
    rw [acceptedCritical_concat, h.critical]
    exact append_nil _
  rw [QueueLedger.record]
  split
  · split
    · refine ⟨?_, ?_, hcontrol, hcritical⟩
      · rw [hreceived, withFate_append, withFate_cons, if_neg Fate.noConfusion]
        exact (append_nil _).symm
      · rw [hsegments, map_append]
        rfl
    · refine ⟨?_, ?_, hcontrol, hcritical⟩
      · rw [hreceived, withFate_enter, if_neg Fate.noConfusion,
          withFate_settle_of_ne Fate.noConfusion Fate.noConfusion]
      · rw [hsegments, map_fst_enter, map_fst_settle]
  · refine ⟨?_, ?_, hcontrol, hcritical⟩
    · rw [hreceived, withFate_enter, if_neg Fate.noConfusion]
    · rw [hsegments, map_fst_enter]

theorem Reads.recv (h : Reads events l) (hbalanced : Balanced limits l) :
    Reads (events ++ [(.recv, .output l.next)]) (l.record limits (.recv, .output l.next)) := by
  have hsegments : Vnc.segments (events ++ [(.recv, .output l.next)])
      = (l.frames.map Prod.fst, l.assembling) := by
    rw [segments_concat, h.segments]
  have hcontrol : acceptedControl (events ++ [(.recv, .output l.next)])
      = l.control.map Prod.fst := by
    rw [acceptedControl_concat, h.control]
    exact append_nil _
  have hcritical : acceptedCritical (events ++ [(.recv, .output l.next)])
      = l.critical.map Prod.fst := by
    rw [acceptedCritical_concat, h.critical]
    exact append_nil _
  have hreceived := receivedFrames_concat events (.recv, .output l.next)
  rw [h.received] at hreceived
  cases hnext : l.next with
  | none =>
    rw [hnext] at hsegments hcontrol hcritical hreceived
    exact ⟨hreceived.trans (append_nil _), hsegments, hcontrol, hcritical⟩
  | some out =>
    rw [hnext] at hsegments hcontrol hcritical hreceived
    rw [QueueLedger.record]
    cases out with
    | control message =>
      rw [QueueLedger.received]
      have hreceived' := hreceived.trans (append_nil _)
      split
      · exact ⟨hreceived', hsegments, by rw [hcontrol, map_fst_settle], hcritical⟩
      · exact ⟨hreceived', hsegments, hcontrol, by rw [hcritical, map_fst_settle]⟩
    | frame rects =>
      have hwaiting : l.frames.waiting.head? = some rects := by
        rw [QueueLedger.next] at hnext
        split at hnext
        · cases hnext
        · cases hnext
        · next frame rest _ _ hframes =>
          rw [hframes]
          cases hnext
          rfl
        · cases hnext
      refine ⟨?_, ?_, hcontrol, hcritical⟩
      · rw [hreceived, QueueLedger.received, hbalanced.frames.withFate_settle_received, hwaiting]
        rfl
      · rw [hsegments, QueueLedger.received, map_fst_settle]

theorem Reads.sendControl (h : Reads events l) (message : String) :
    Reads (events ++ [(.sendControl message, .done)])
      (l.record limits (.sendControl message, .done)) := by
  refine ⟨?_, ?_, ?_, ?_⟩
  · rw [receivedFrames_concat, h.received]
    exact append_nil _
  · rw [segments_concat, h.segments]
    rfl
  · rw [acceptedControl_concat, h.control, QueueLedger.record, map_fst_enter]
    split
    · rw [map_fst_settle]
      rfl
    · rfl
  · rw [acceptedCritical_concat, h.critical]
    exact append_nil _

theorem Reads.sendCriticalControl (h : Reads events l) (message : String) :
    Reads (events ++ [(.sendCriticalControl message, .done)])
      (l.record limits (.sendCriticalControl message, .done)) := by
  refine ⟨?_, ?_, ?_, ?_⟩
  · rw [receivedFrames_concat, h.received]
    exact append_nil _
  · rw [segments_concat, h.segments]
    rfl
  · rw [acceptedControl_concat, h.control]
    exact append_nil _
  · rw [acceptedCritical_concat, h.critical, QueueLedger.record, map_fst_enter]
    rfl

theorem Reads.pushRect (h : Reads events l) (bytes : Bytes) :
    Reads (events ++ [(.pushRect bytes, .done)]) (l.record limits (.pushRect bytes, .done)) := by
  refine ⟨?_, ?_, ?_, ?_⟩
  · rw [receivedFrames_concat, h.received]
    exact append_nil _
  · rw [segments_concat, h.segments]
    rfl
  · rw [acceptedControl_concat, h.control]
    exact append_nil _
  · rw [acceptedCritical_concat, h.critical]
    exact append_nil _

theorem Reads.clearFrames (h : Reads events l) :
    Reads (events ++ [(.clearFrames, .done)]) (l.record limits (.clearFrames, .done)) := by
  refine ⟨?_, ?_, ?_, ?_⟩
  · rw [receivedFrames_concat, h.received, QueueLedger.record,
      withFate_settle_of_ne Fate.noConfusion Fate.noConfusion]
    exact append_nil _
  · rw [segments_concat, h.segments, QueueLedger.record, map_fst_settle]
  · rw [acceptedControl_concat, h.control]
    exact append_nil _
  · rw [acceptedCritical_concat, h.critical]
    exact append_nil _

/-- One more event is read as it is recorded. -/
theorem Reads.record (h : Reads events l) (hbalanced : Balanced limits l)
    {c : QueueCall} {response : QueueResponse} (hdue : Due limits l (c, response)) :
    Reads (events ++ [(c, response)]) (l.record limits (c, response)) := by
  cases c with
  | pushRect bytes =>
    obtain rfl := hdue
    split
    · exact h.skip rfl rfl rfl (segments_concat _ _)
    · exact h.pushRect bytes
  | finishFrame =>
    obtain rfl := hdue
    exact h.finishFrame _
  | clearFrames =>
    obtain rfl := hdue
    exact h.clearFrames
  | sendControl message =>
    obtain rfl := hdue
    split
    · exact h.skip rfl rfl rfl (segments_concat _ _)
    · exact h.sendControl message
  | sendCriticalControl message =>
    obtain rfl := hdue
    split
    · exact h.skip rfl rfl rfl (segments_concat _ _)
    split
    · exact h.skip rfl rfl rfl (segments_concat _ _)
    · exact h.sendCriticalControl message
  | recv =>
    obtain rfl := hdue
    exact h.recv hbalanced

/-! ## Every run -/

theorem ledgerOf_concat (limits : RelayLimits) (events : List QueueEvent) (e : QueueEvent) :
    ledgerOf limits (events ++ [e]) = (ledgerOf limits events).record limits e :=
  foldl_concat ..

/-- Every event of a run was due. -/
def AllDue (limits : RelayLimits) (events : List QueueEvent) : Prop :=
  ∀ before e after, events = before ++ e :: after → Due limits (ledgerOf limits before) e

theorem AllDue.concat (h : AllDue limits events) {e : QueueEvent}
    (he : Due limits (ledgerOf limits events) e) : AllDue limits (events ++ [e]) := by
  intro before e' after heq
  rcases eq_nil_or_concat' after with rfl | ⟨rest, last, rfl⟩
  · obtain ⟨rfl, hlast⟩ := append_inj' heq rfl
    cases hlast
    exact he
  · rw [← cons_append, ← append_assoc] at heq
    obtain ⟨hinit, -⟩ := append_inj' heq rfl
    exact h before e' rest hinit

/-- The run lemma: every event is due, and state, history and events agree. -/
theorem queueRun_spec (limits : RelayLimits) (calls : List QueueCall) :
    AllDue limits (queueRun limits calls).2 ∧
      Agrees limits (queueRun limits calls).1 (ledgerOf limits (queueRun limits calls).2) ∧
      Balanced limits (ledgerOf limits (queueRun limits calls).2) ∧
      Reads (queueRun limits calls).2 (ledgerOf limits (queueRun limits calls).2) := by
  induction calls using List.reverseRecOn with
  | nil =>
    refine ⟨?_, agrees_new limits, balanced_empty limits, reads_empty⟩
    intro before e after heq
    exact absurd heq.symm (append_ne_nil_of_right_ne_nil _ (cons_ne_nil _ _))
  | append_singleton calls c ih =>
    obtain ⟨hall, hagrees, hbalanced, hreads⟩ := ih
    obtain ⟨hdue, hagrees'⟩ := hagrees.call c
    rw [queueRun_concat, ledgerOf_concat]
    exact ⟨hall.concat hdue, hagrees', hbalanced.record hdue, hreads.record hbalanced hdue⟩

/-- The queue answers every call as its history calls for. The frames received are those finished and
not lost, each once, in order and as pushed since the last boundary; at most the newest finished frame
waits. Critical messages are all received or waiting, in order; normal ones are received in order. A
frame never holds more than its budget. -/
theorem queue_loses_nothing_silently (limits : RelayLimits) (calls : List QueueCall) :
    let s := (queueRun limits calls).1
    let events := (queueRun limits calls).2
    let l := ledgerOf limits events
    AllDue limits events ∧
    receivedFrames events = l.frames.withFate .received ∧ l.frames.InOrder ∧
    segments events = (l.frames.map Prod.fst, l.assembling) ∧
    l.frames.waiting.length ≤ 1 ∧
    acceptedCritical events = l.critical.withFate .received ++ l.critical.waiting ∧
    acceptedControl events = l.control.map Prod.fst ∧ l.control.InOrder ∧
    (∀ e ∈ l.control, e.2 ≠ .cleared) ∧
    frameBytes s.building ≤ limits.maxFrameQueueBytes ∧
    ∀ e ∈ l.frames, e.2 ≠ .dropped → frameBytes e.1 ≤ limits.maxFrameQueueBytes := by
  obtain ⟨hall, hagrees, hbalanced, hreads⟩ := queueRun_spec limits calls
  have hone : (ledgerOf limits (queueRun limits calls).2).frames.waiting.length ≤ 1 := by
    rw [← hagrees.latest]
    cases (queueRun limits calls).1.latestFrame with
    | none => exact Nat.zero_le _
    | some frame => exact Nat.le_refl _
  have hcritical := hreads.critical.trans (hbalanced.critical.map_fst hbalanced.criticalKept)
  have hbuilding : frameBytes (queueRun limits calls).1.building ≤ limits.maxFrameQueueBytes := by
    rw [hagrees.building]
    split
    · exact Nat.zero_le _
    · next hfits =>
      rw [oversized, decide_eq_true_eq] at hfits
      exact Nat.not_lt.mp hfits
  exact ⟨hall, hreads.received, hbalanced.frames, hreads.segments, hone, hcritical, hreads.control,
    hbalanced.control, hbalanced.controlKept, hbuilding, hbalanced.budget⟩

/-- A frame is not what was pushed between two `finish_frame` calls when `clear_frames` came between
them. -/
theorem receivedFrames_not_finishSegments :
    ¬ ∀ limits calls, ∀ frame ∈ receivedFrames (queueRun limits calls).2,
      frame ∈ (finishSegments (queueRun limits calls).2).1 := by
  intro h
  have hframe := h .default
    [.pushRect [1], .clearFrames, .pushRect [2], .finishFrame, .recv] [[2]] (by decide)
  exact absurd hframe (by decide)

end Taomni.Vnc
