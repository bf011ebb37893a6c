import Taomni.Common.Runs
import Taomni.Rdp.Display

/-!
# The picture of a client converges

What is queued for a client always ends in the desktop that was published last, while a new client finds
it in the frame that was retained.

Reference: `src-tauri/src/servers/rdp/display/mailbox.rs`, `updates.rs`, `capture_loop.rs` and
`display.rs`.
-/

namespace Taomni.RdpDisplay

open List

/-! ## Pictures -/

def Desktop.contains (desktop : Desktop) (x y : ℕ) : Prop :=
  x < desktop.size.width ∧ y < desktop.size.height

def Picture.Shows (p : Picture) (desktop : Desktop) : Prop :=
  p.size = desktop.size ∧ ∀ x y, desktop.contains x y → p.pixel x y = some (desktop.pixel x y)

/-- The regions have the pixels of the new desktop, and every pixel that changed is in one of them. -/
def Covers (old new : Desktop) (frames : List Frame) : Prop :=
  (∀ frame ∈ frames, ∀ x y, frame.contains x y → new.contains x y → frame.pixel x y = new.pixel x y) ∧
    ∀ x y, new.contains x y → (old.contains x y → old.pixel x y ≠ new.pixel x y) →
      ∃ frame ∈ frames, frame.contains x y

/-- A full frame of a desktop. -/
def Frame.Pictures (frame : Frame) (desktop : Desktop) : Prop :=
  frame.size = desktop.size ∧
    ∀ x y, desktop.contains x y → frame.contains x y ∧ frame.pixel x y = desktop.pixel x y

theorem pictures_fullFrame (desktop : Desktop) : desktop.fullFrame.Pictures desktop := by
  refine ⟨rfl, fun x y hxy => ⟨?_, rfl⟩⟩
  unfold Frame.contains Desktop.fullFrame
  simp only [Nat.zero_le, decide_true, Bool.true_and, Nat.zero_add, Bool.and_eq_true, decide_eq_true_eq]
  exact hxy

namespace Picture

def drawAll (p : Picture) (frames : List Frame) : Picture := frames.foldl draw p

@[simp] theorem size_drawAll (p : Picture) (frames : List Frame) : (p.drawAll frames).size = p.size := by
  induction frames generalizing p with
  | nil => rfl
  | cons frame frames ih => exact ih (p.draw frame)

variable {frame : Frame} {p : Picture}

theorem pixel_draw_of_contains {x y : ℕ} (h : frame.contains x y) :
    (p.draw frame).pixel x y = some (frame.pixel x y) :=
  if_pos h

theorem pixel_draw_of_not_contains {x y : ℕ}
    (h : ¬frame.contains x y) : (p.draw frame).pixel x y = p.pixel x y :=
  if_neg h

/-- A pixel that has its value, or gets it, has it when all is drawn. -/
theorem pixel_drawAll {frames : List Frame} {x y : ℕ} {value : Pixel}
    (hframes : ∀ frame ∈ frames, frame.contains x y → frame.pixel x y = value)
    (h : p.pixel x y = some value ∨ ∃ frame ∈ frames, frame.contains x y) :
    (p.drawAll frames).pixel x y = some value := by
  induction frames generalizing p with
  | nil =>
    rcases h with h | ⟨frame, hmem, -⟩
    · exact h
    · exact absurd hmem not_mem_nil
  | cons frame frames ih =>
    refine ih (fun f hf => hframes f (mem_cons_of_mem _ hf)) ?_
    by_cases hin : frame.contains x y
    · left
      rw [pixel_draw_of_contains hin, hframes frame mem_cons_self hin]
    · rw [pixel_draw_of_not_contains hin]
      refine h.imp_right fun ⟨f, hf, hcontains⟩ => ⟨f, ?_, hcontains⟩
      rcases mem_cons.mp hf with rfl | hf
      · exact absurd hcontains hin
      · exact hf

theorem Shows.drawAll {old new : Desktop} {frames : List Frame} (h : p.Shows old)
    (hcovers : Covers old new frames) (hsize : new.size = old.size) : (p.drawAll frames).Shows new := by
  refine ⟨(size_drawAll p frames).trans (h.1.trans hsize.symm), fun x y hxy => ?_⟩
  have hold : old.contains x y := by
    unfold Desktop.contains at hxy ⊢
    rw [← hsize]
    exact hxy
  refine pixel_drawAll (fun frame hframe hin => hcovers.1 frame hframe x y hin hxy) ?_
  by_cases hsame : old.pixel x y = new.pixel x y
  · left
    rw [h.2 x y hold, hsame]
  · exact .inr (hcovers.2 x y hxy fun _ => hsame)

theorem shows_draw {desktop : Desktop} (h : frame.Pictures desktop)
    (hsize : p.size = desktop.size) : (p.draw frame).Shows desktop := by
  refine ⟨hsize, fun x y hxy => ?_⟩
  rw [pixel_draw_of_contains (h.2 x y hxy).1, (h.2 x y hxy).2]

/-- A region that is no bitmap has no pixels. -/
theorem draw_of_frameToBitmap (h : frameToBitmap frame = none) (p : Picture) : p.draw frame = p := by
  have hempty : frame.width = 0 ∨ frame.height = 0 := by
    unfold frameToBitmap at h
    split at h
    · rename_i hcond
      simp only [Bool.or_eq_true, decide_eq_true_eq] at hcond
      have hrow := frame.row_le
      omega
    · cases h
  unfold draw
  have hpixel (x y : ℕ) : frame.contains x y = false := by
    unfold Frame.contains
    rcases hempty with hw | hh
    · rw [hw, Nat.add_zero]
      simp only [Bool.and_eq_false_iff, decide_eq_false_iff_not]
      omega
    · rw [hh, Nat.add_zero]
      simp only [Bool.and_eq_false_iff, decide_eq_false_iff_not]
      omega
  simp only [hpixel, Bool.false_eq_true, if_false]

end Picture

/-! ## What is queued for a client -/

namespace Client

/-- A frame that is taken from the queue, while its call has not returned yet. -/
def inHand (c : Client) : List Frame :=
  match c.phase with
  | .finishing frame => [frame]
  | _ => []

/-- What the client shows when its producer has handed out what it holds. -/
def ahead (c : Client) : Picture :=
  c.picture.drawAll (c.inHand ++ c.updates.deferredFull.toList ++ c.updates.activeDamage)

/-- What the client shows when it has drained the mailbox too. -/
def drained (c : Client) : Option PendingFrames → Picture
  | none => c.ahead
  | some (.damage frames) => c.ahead.drawAll frames
  | some (.full frame) =>
    if frame.size = c.updates.currentSize then c.ahead.draw frame
    else (Picture.blank frame.size).draw frame

theorem picture_hand (c : Client) (frame : Frame) :
    (c.hand (frameToBitmap frame)).picture = c.picture.draw frame := by
  unfold hand
  cases h : frameToBitmap frame with
  | none => exact (Picture.draw_of_frameToBitmap h c.picture).symm
  | some update =>
    unfold frameToBitmap at h
    split at h
    · cases h
    · rw [← Option.some.inj h]
      rfl

end Client

/-- The mailbox and what the client holds end in the desktop. -/
def Ends (c : Client) (desktop : Desktop) : Option PendingFrames → Prop
  | none => c.ahead.Shows desktop
  | some (.damage frames) => (c.ahead.drawAll frames).Shows desktop
  | some (.full frame) => frame.Pictures desktop

/-- What is known of a client, between any two sections. -/
structure Client.Sound (c : Client) (pending : Option PendingFrames) (desktop : Desktop) : Prop where
  size : c.updates.currentSize = c.picture.size
  waiting : c.phase = .waiting → c.updates.activeDamage = [] ∧ c.updates.deferredFull = none
  finishing : ∀ frame, c.phase = .finishing frame → c.updates.deferredFull = none
  ends : Ends c desktop pending

variable {pending : Option PendingFrames}

theorem Ends.congr {c c' : Client} {desktop : Desktop}
    (h : Ends c desktop pending) (hahead : c'.ahead = c.ahead) : Ends c' desktop pending := by
  match pending, h with
  | none, h =>
    unfold Ends at h ⊢
    rw [hahead]
    exact h
  | some (.damage frames), h =>
    unfold Ends at h ⊢
    rw [hahead]
    exact h
  | some (.full frame), h => exact h

/-- A full frame waits when the regions of the client are dropped. -/
theorem ends_of_fullRefreshWaiting {c c' : Client} {desktop : Desktop} {m : LatestFrameMailbox}
    (h : Ends c desktop m.pending) (hwaiting : m.fullRefreshWaiting = true) :
    Ends c' desktop m.pending := by
  unfold LatestFrameMailbox.fullRefreshWaiting at hwaiting
  match hpending : m.pending with
  | some (.full frame) =>
    rw [hpending] at h
    exact h
  | some (.damage frames) =>
    rw [hpending] at hwaiting
    cases hwaiting
  | none =>
    rw [hpending] at hwaiting
    cases hwaiting

namespace Client

variable {c : Client} {m : LatestFrameMailbox} {desktop : Desktop}

theorem Sound.drained (h : c.Sound m.pending desktop) : (c.drained m.pending).Shows desktop := by
  have hends := h.ends
  match hpending : m.pending with
  | none =>
    rw [hpending] at hends
    exact hends
  | some (.damage frames) =>
    rw [hpending] at hends
    exact hends
  | some (.full frame) =>
    rw [hpending] at hends
    unfold Client.drained
    dsimp only
    split
    · rename_i hsize
      refine Picture.shows_draw hends ?_
      unfold ahead
      rw [Picture.size_drawAll, ← h.size, ← hsize]
      exact hends.1
    · exact Picture.shows_draw hends hends.1

theorem sound_start (h : c.Sound m.pending desktop) (hphase : c.phase = .start) :
    (c.nextUpdate m).1.Sound (c.nextUpdate m).2.pending desktop := by
  unfold nextUpdate
  rw [hphase]
  dsimp only
  split
  · rename_i hclear
    rw [Bool.and_eq_true] at hclear
    exact ⟨h.size, nofun, nofun, ends_of_fullRefreshWaiting h.ends hclear.2⟩
  · refine ⟨h.size, nofun, nofun, h.ends.congr ?_⟩
    unfold ahead inHand
    rw [hphase]

theorem sound_emitting (h : c.Sound m.pending desktop) (hphase : c.phase = .emitting) :
    (c.nextUpdate m).1.Sound (c.nextUpdate m).2.pending desktop := by
  obtain ⟨⟨active, currentSize, deferred⟩, phase, picture⟩ := c
  cases hphase
  cases deferred with
  | some frame =>
    have hpicture := picture_hand ⟨⟨active, currentSize, none⟩, .emitting, picture⟩ frame
    refine ⟨?_, nofun, fun _ _ => rfl, h.ends.congr ?_⟩
    · exact h.size.trans (congrArg Picture.size hpicture).symm
    · unfold ahead
      show (hand _ _).picture.drawAll _ = _
      rw [hpicture]
      rfl
  | none =>
    cases active with
    | nil => exact ⟨h.size, fun _ => ⟨rfl, rfl⟩, nofun, h.ends.congr rfl⟩
    | cons frame rest =>
      cases rest with
      | nil => exact ⟨h.size, nofun, fun _ _ => rfl, h.ends.congr rfl⟩
      | cons next rest =>
        have hpicture := picture_hand ⟨⟨next :: rest, currentSize, none⟩, .emitting, picture⟩ frame
        refine ⟨?_, nofun, fun _ _ => rfl, h.ends.congr ?_⟩
        · exact h.size.trans (congrArg Picture.size hpicture).symm
        · unfold ahead
          show (hand _ _).picture.drawAll _ = _
          rw [hpicture]
          rfl

theorem sound_waiting (h : c.Sound m.pending desktop) (hphase : c.phase = .waiting) :
    (c.nextUpdate m).1.Sound (c.nextUpdate m).2.pending desktop := by
  obtain ⟨hactive, hdeferred⟩ := h.waiting hphase
  obtain ⟨⟨active, currentSize, deferred⟩, phase, picture⟩ := c
  cases hphase
  cases hactive
  cases hdeferred
  obtain ⟨pending, latestFull, activeDamage, closed⟩ := m
  have hends := h.ends
  match pending, hends with
  | none, hends =>
    cases closed with
    | true => exact ⟨h.size, nofun, nofun, hends⟩
    | false => exact ⟨h.size, fun _ => ⟨rfl, rfl⟩, nofun, hends⟩
  | some (.damage frames), hends => exact ⟨h.size, nofun, nofun, hends⟩
  | some (.full frame), hends =>
    unfold nextUpdate LatestFrameMailbox.take
    dsimp only
    split
    · exact ⟨rfl, nofun, nofun, Picture.shows_draw hends hends.1⟩
    · rename_i hsize
      have hpicture := picture_hand ⟨⟨[], currentSize, none⟩, .waiting, picture⟩ frame
      refine ⟨h.size.trans (congrArg Picture.size hpicture).symm, nofun, fun _ _ => rfl, ?_⟩
      show (hand _ _).picture.Shows desktop
      rw [hpicture]
      refine Picture.shows_draw hends (h.size.symm.trans ?_)
      exact (not_not.mp hsize).symm.trans hends.1

theorem sound_nextUpdate (h : c.Sound m.pending desktop) :
    (c.nextUpdate m).1.Sound (c.nextUpdate m).2.pending desktop := by
  cases hphase : c.phase with
  | start => exact sound_start h hphase
  | emitting => exact sound_emitting h hphase
  | waiting => exact sound_waiting h hphase
  | clearing =>
    unfold nextUpdate
    rw [hphase]
    refine ⟨h.size, nofun, nofun, h.ends.congr ?_⟩
    unfold ahead inHand
    rw [hphase]
  | finishing frame =>
    have hdeferred := h.finishing frame hphase
    obtain ⟨⟨active, currentSize, deferred⟩, phase, picture⟩ := c
    cases hphase
    cases hdeferred
    have hpicture := picture_hand ⟨⟨active, currentSize, none⟩, .finishing frame, picture⟩ frame
    refine ⟨h.size.trans (congrArg Picture.size hpicture).symm, nofun, nofun, h.ends.congr ?_⟩
    unfold ahead
    show (hand _ _).picture.drawAll _ = _
    rw [hpicture]
    rfl

/-- A client does not touch what is retained. -/
theorem nextUpdate_mailbox (c : Client) (m : LatestFrameMailbox) :
    (c.nextUpdate m).2.latestFull = m.latestFull ∧ (c.nextUpdate m).2.closed = m.closed := by
  obtain ⟨⟨active, currentSize, deferred⟩, phase, picture⟩ := c
  obtain ⟨pending, latestFull, activeDamage, closed⟩ := m
  cases phase with
  | start =>
    unfold nextUpdate
    dsimp only
    split
    · exact ⟨rfl, rfl⟩
    · exact ⟨rfl, rfl⟩
  | clearing => exact ⟨rfl, rfl⟩
  | emitting =>
    cases deferred with
    | some frame => exact ⟨rfl, rfl⟩
    | none =>
      match active with
      | [] => exact ⟨rfl, rfl⟩
      | [frame] => exact ⟨rfl, rfl⟩
      | frame :: next :: rest => exact ⟨rfl, rfl⟩
  | finishing frame => exact ⟨rfl, rfl⟩
  | waiting =>
    match pending with
    | none =>
      cases closed with
      | true => exact ⟨rfl, rfl⟩
      | false => exact ⟨rfl, rfl⟩
    | some (.damage frames) => exact ⟨rfl, rfl⟩
    | some (.full frame) =>
      unfold nextUpdate LatestFrameMailbox.take
      dsimp only
      split
      · exact ⟨rfl, rfl⟩
      · exact ⟨rfl, rfl⟩

end Client

/-! ## The server -/

/-- Without regions the two desktops are the same. -/
theorem Ends.of_covers_nil {c : Client} {old new : Desktop}
    (h : Ends c old pending) (hcovers : Covers old new []) (hsize : new.size = old.size) :
    Ends c new pending := by
  match pending, h with
  | none, h =>
    have hshows : c.ahead.Shows old := h
    exact hshows.drawAll hcovers hsize
  | some (.damage frames), h =>
    have hshows : (c.ahead.drawAll frames).Shows old := h
    exact hshows.drawAll hcovers hsize
  | some (.full frame), h =>
    refine ⟨h.1.trans hsize.symm, fun x y hxy => ?_⟩
    have hold : old.contains x y := by
      unfold Desktop.contains at hxy ⊢
      rw [← hsize]
      exact hxy
    have hsame : old.pixel x y = new.pixel x y := by
      by_contra hne
      obtain ⟨frame, hframe, -⟩ := hcovers.2 x y hxy fun _ => hne
      exact not_mem_nil hframe
    rw [← hsame]
    exact h.2 x y hold

namespace Server

/-- What a capture reports is what it captured. -/
def Faithful (s : Server) : Event → Prop
  | .nextUpdates desktop frames => Covers s.desktop desktop frames
  | _ => True

/-- No regions are published for a desktop of another size, and a client that calls `updates` finds the
desktop that was published last in the frame that was retained. -/
def Retained (s : Server) : Event → Prop
  | .publishDamage =>
    ∀ frames, s.capture = .captured frames →
      (s.mailbox.publishDamage frames).2 = .needsFullRefresh ∨ s.desktop.size = s.published.size
  | .updates => ∀ frame, s.mailbox.latestFull = some frame → frame.Pictures s.published
  | _ => True

/-- Nothing is queued for the client. -/
def Drained (s : Server) (c : Client) : Prop :=
  s.mailbox.pending = none ∧ c.updates.activeDamage = [] ∧ c.updates.deferredFull = none ∧ c.inHand = []

/-- Where the loop is, and how the desktop that it captured last is related to the published one. -/
def Captured (s : Server) : Prop :=
  match s.capture with
  | .idle => s.desktop = s.published
  | .captured frames => Covers s.published s.desktop frames
  | .refused => True
  | .recaptured frame => frame.Pictures s.desktop
  | .stopped => False

structure Sound (s : Server) : Prop where
  captured : s.Captured
  retained : s.mailbox.latestFull.isSome
  opened : s.mailbox.closed = false
  client : ∀ c, s.client = some c → c.Sound s.mailbox.pending s.published

theorem sound_warmed (desktop : Desktop) : (warmed desktop).Sound := ⟨rfl, rfl, rfl, nofun⟩

/-- What the mailbox does with damage. -/
theorem publishDamage_cases (m : LatestFrameMailbox) (hopen : m.closed = false) (frames : List Frame) :
    (frames = [] ∧ m.publishDamage frames = (m, .published false)) ∨
      m.publishDamage frames = (m, .needsFullRefresh) ∨ (m.pending = none ∧
          m.publishDamage frames = ({ m with pending := some (.damage frames) }, .published false)) := by
  unfold LatestFrameMailbox.publishDamage
  rw [hopen, if_neg Bool.false_ne_true]
  split
  · rename_i hempty
    exact .inl ⟨List.isEmpty_iff.mp hempty, rfl⟩
  · split
    · exact .inr (.inl rfl)
    · rename_i hidle
      rw [Bool.or_eq_true, not_or, Option.not_isSome_iff_eq_none] at hidle
      exact .inr (.inr ⟨hidle.1, rfl⟩)

theorem sound_step (s : Server) (event : Event) (h : s.Sound)
    (hevent : s.Faithful event ∧ s.Retained event) : (s.step event).Sound := by
  obtain ⟨size, mailbox, capture, desktop, published, client⟩ := s
  obtain ⟨hcaptured, hretained, hopen, hclient⟩ := h
  obtain ⟨hfaithful, hkept⟩ := hevent
  cases event with
  | nextUpdates new frames =>
    cases capture with
    | idle =>
      have hsame : desktop = published := hcaptured
      refine ⟨?_, hretained, hopen, hclient⟩
      show Covers published new frames
      rw [← hsame]
      exact hfaithful
    | captured _ => exact ⟨hcaptured, hretained, hopen, hclient⟩
    | refused => exact ⟨hcaptured, hretained, hopen, hclient⟩
    | recaptured _ => exact ⟨hcaptured, hretained, hopen, hclient⟩
    | stopped => exact absurd hcaptured not_false
  | publishDamage =>
    cases capture with
    | captured frames =>
      have hcovers : Covers published desktop frames := hcaptured
      unfold step
      dsimp only
      rcases publishDamage_cases mailbox hopen frames with ⟨rfl, heq⟩ | heq | ⟨hidle, heq⟩
      · have hsize : desktop.size = published.size := by
          refine (hkept [] rfl).resolve_left fun hrefused => ?_
          rw [show mailbox.publishDamage [] = _ from heq] at hrefused
          cases hrefused
        rw [heq]
        exact ⟨rfl, hretained, hopen, fun c hc =>
          have hc := hclient c hc
          ⟨hc.size, hc.waiting, hc.finishing, Ends.of_covers_nil hc.ends hcovers hsize⟩⟩
      · rw [heq]
        exact ⟨trivial, hretained, hopen, hclient⟩
      · have hsize : desktop.size = published.size := by
          refine (hkept frames rfl).resolve_left fun hrefused => ?_
          rw [show mailbox.publishDamage frames = _ from heq] at hrefused
          cases hrefused
        rw [heq]
        refine ⟨rfl, hretained, hopen, fun c hc => ?_⟩
        have hc := hclient c hc
        have hends := hc.ends
        rw [show mailbox.pending = none from hidle] at hends
        exact ⟨hc.size, hc.waiting, hc.finishing, Picture.Shows.drawAll hends hcovers hsize⟩
    | idle => exact ⟨hcaptured, hretained, hopen, hclient⟩
    | refused => exact ⟨hcaptured, hretained, hopen, hclient⟩
    | recaptured _ => exact ⟨hcaptured, hretained, hopen, hclient⟩
    | stopped => exact absurd hcaptured not_false
  | captureFull new =>
    cases capture with
    | refused => exact ⟨pictures_fullFrame new, hretained, hopen, hclient⟩
    | idle => exact ⟨hcaptured, hretained, hopen, hclient⟩
    | captured _ => exact ⟨hcaptured, hretained, hopen, hclient⟩
    | recaptured _ => exact ⟨hcaptured, hretained, hopen, hclient⟩
    | stopped => exact absurd hcaptured not_false
  | publishFull =>
    cases capture with
    | recaptured frame =>
      unfold step LatestFrameMailbox.publishFull
      dsimp only
      rw [show mailbox.closed = false from hopen, if_neg Bool.false_ne_true]
      exact ⟨rfl, rfl, rfl, fun c hc =>
        have hc := hclient c hc
        ⟨hc.size, hc.waiting, hc.finishing, hcaptured⟩⟩
    | idle => exact ⟨hcaptured, hretained, hopen, hclient⟩
    | captured _ => exact ⟨hcaptured, hretained, hopen, hclient⟩
    | refused => exact ⟨hcaptured, hretained, hopen, hclient⟩
    | stopped => exact absurd hcaptured not_false
  | nextUpdate =>
    cases client with
    | none => exact ⟨hcaptured, hretained, hopen, hclient⟩
    | some c =>
      obtain ⟨hlatest, hclosed⟩ := c.nextUpdate_mailbox mailbox
      refine ⟨hcaptured, ?_, ?_, fun c' hc' => ?_⟩
      · exact (congrArg Option.isSome hlatest).trans hretained
      · exact hclosed.trans hopen
      · rw [← Option.some.inj hc']
        exact Client.sound_nextUpdate (hclient c rfl)
  | leave => exact ⟨hcaptured, hretained, hopen, nofun⟩
  | updates =>
    obtain ⟨frame, hframe⟩ := Option.isSome_iff_exists.mp hretained
    have hreplay : mailbox.replayLatestFull =
        { mailbox with pending := some (.full frame), activeDamage := false } := by
      unfold LatestFrameMailbox.replayLatestFull
      rw [show mailbox.closed = false from hopen, if_neg Bool.false_ne_true,
        show mailbox.latestFull = some frame from hframe]
    unfold step
    dsimp only
    rw [hreplay]
    refine ⟨hcaptured, hretained, hopen, fun c hc => ?_⟩
    rw [← Option.some.inj hc]
    exact ⟨rfl, nofun, nofun, hkept frame hframe⟩

/-- What a client ends in is the desktop that was published last. That is the last captured one when the
loop is between two captures. -/
def Converges (s : Server) : Prop :=
  (s.capture = .idle → s.published = s.desktop) ∧
    ∀ c, s.client = some c → (c.drained s.mailbox.pending).Shows s.published ∧
      (s.Drained c → c.picture.Shows s.published)

theorem Sound.converges {s : Server} (h : s.Sound) : s.Converges := by
  refine ⟨fun hidle => ?_, fun c hc => ?_⟩
  · have hcaptured := h.captured
    unfold Captured at hcaptured
    rw [hidle] at hcaptured
    exact hcaptured.symm
  · have hsound := h.client c hc
    refine ⟨hsound.drained, ?_⟩
    rintro ⟨hpending, hactive, hdeferred, hhand⟩
    have hends := hsound.ends
    rw [hpending] at hends
    have hahead : c.ahead = c.picture := by
      unfold Client.ahead
      rw [hactive, hdeferred, hhand]
      rfl
    rw [← hahead]
    exact hends

/-- Every client ends in the desktop that was published last, in a run where every new client finds it in the
frame that was retained. -/
theorem picture_converges (desktop : Desktop) (events : List Event)
    (hfaithful : Throughout step Faithful (warmed desktop) events)
    (hretained : Throughout step Retained (warmed desktop) events) :
    Always step Converges (warmed desktop) events := by
  have hboth : Throughout step (fun s event => s.Faithful event ∧ s.Retained event) (warmed desktop)
      events := fun before event after heq =>
    ⟨hfaithful before event after heq, hretained before event after heq⟩
  have hsound := hboth.always sound_step (sound_warmed desktop)
  exact fun before after heq => (hsound before after heq).converges

/-- Captures that report the whole desktop are faithful. -/
theorem faithful_of_fullFrame {events : List Event}
    (h : ∀ desktop frames, .nextUpdates desktop frames ∈ events → frames = [desktop.fullFrame])
    (s : Server) : Throughout step Faithful s events := by
  rintro before event after rfl
  cases event with
  | nextUpdates desktop frames =>
    rw [h desktop frames (mem_append_right _ mem_cons_self)]
    have hfull := pictures_fullFrame desktop
    refine ⟨fun frame hframe x y _ hxy => ?_, fun x y hxy _ => ?_⟩
    · rw [mem_singleton.mp hframe]
      exact (hfull.2 x y hxy).2
    · exact ⟨_, mem_cons_self, (hfull.2 x y hxy).1⟩
  | publishDamage => exact trivial
  | captureFull desktop => exact trivial
  | publishFull => exact trivial
  | nextUpdate => exact trivial
  | leave => exact trivial
  | updates => exact trivial

/-- A desktop of one pixel. -/
def dot (pixel : Pixel) : Desktop := ⟨⟨1, 1⟩, fun _ _ => pixel⟩

def dotTurns : Event := .nextUpdates (dot 1) [(dot 1).fullFrame]

theorem picture_converges_dot :
    Always step Converges (warmed (dot 0)) [.updates, dotTurns, .publishDamage, .nextUpdate] := by
  refine picture_converges (dot 0) _ (faithful_of_fullFrame ?_ _) ?_
  · intro desktop frames hmem
    simp only [dotTurns, mem_cons, Event.nextUpdates.injEq, reduceCtorEq, not_mem_nil, or_false,
      false_or] at hmem
    rw [hmem.1, hmem.2]
  · refine throughout_cons.mpr ⟨fun frame hframe => ?_, throughout_cons.mpr ⟨trivial, ?_⟩⟩
    · rw [← Option.some.inj hframe]
      exact pictures_fullFrame (dot 0)
    · exact throughout_cons.mpr ⟨fun _ _ => .inr rfl, throughout_cons.mpr ⟨trivial, throughout_nil⟩⟩

/-- A client draws the desktop and its change, and leaves. The next client draws what was retained. -/
def secondClient : List Event :=
  [.updates, .nextUpdate, .nextUpdate, .nextUpdate, dotTurns, .publishDamage, .nextUpdate, .nextUpdate,
    .nextUpdate, .nextUpdate, .nextUpdate, .nextUpdate, .leave, .updates, .nextUpdate, .nextUpdate,
    .nextUpdate]

theorem second_client_outdated : Throughout step Faithful (warmed (dot 0)) secondClient ∧
      ∃ c, (runFrom step (warmed (dot 0)) secondClient).client = some c ∧
        (runFrom step (warmed (dot 0)) secondClient).Drained c ∧
        (runFrom step (warmed (dot 0)) secondClient).capture = .idle ∧
        ¬c.picture.Shows (runFrom step (warmed (dot 0)) secondClient).desktop := by
  refine ⟨faithful_of_fullFrame ?_ _, _, rfl, ⟨rfl, rfl, rfl, rfl⟩, rfl, fun hshows => ?_⟩
  · intro desktop frames hmem
    simp only [secondClient, dotTurns, mem_cons, Event.nextUpdates.injEq, reduceCtorEq,
      not_mem_nil, or_false, false_or] at hmem
    rw [hmem.1, hmem.2]
  · have hpixel := hshows.2 0 0 ⟨Nat.zero_lt_one, Nat.zero_lt_one⟩
    exact absurd hpixel (by decide)

end Server

end Taomni.RdpDisplay
