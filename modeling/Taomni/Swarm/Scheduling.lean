import Mathlib.Data.List.Perm.Basic
import Taomni.Common.Lists
import Taomni.Common.Record
import Taomni.Common.Runs
import Taomni.Swarm.DownloadRun

/-!
# Requesting pieces

Reference: `schedule_requests` of `src-tauri/src/lanchat/swarm/scheduling.rs`, `handle_have`,
`handle_bitfield` and `handle_piece` of `pieces.rs`, `bitfield.rs`, `limits.rs`, and `accept_offer` of
`offers.rs`.

Times are milliseconds since the offer was accepted. The peers are iterated over in any order. What
`handle_piece` does is the model of a download; here its requests get a peer and a deadline.
-/

namespace Taomni.Swarm

open List

/-! ## Limits -/

/-- Max pieces requested but not yet received, across all peers, per transfer. -/
def MAX_INFLIGHT : ℕ := 32

/-- Max outstanding requests to a single peer. -/
def PER_PEER_WINDOW : ℕ := 8

/-- How long a requested piece may be outstanding before it is requested again. -/
def PIECE_TIMEOUT : ℕ := 10000

/-- Hard cap on a single control frame. -/
def MAX_FRAME_LEN : ℕ := 4 * 1024 * 1024

/-! ## Bitfields -/

namespace Bitfield

def full (n : ℕ) : Bitfield := ⟨List.replicate n true⟩

/-- Packed bytes, the most significant bit first. -/
def fromBytes (bytes : Bytes) (n : ℕ) : Bitfield :=
  ⟨(List.range n).map fun i =>
    match bytes[i / 8]? with
    | some b => b &&& (0x80 >>> UInt8.ofNat (i % 8)) ≠ 0
    | none => false⟩

/-- `from_base64`. -/
def fromBase64 (decode : String → Option Bytes) (s : String) (n : ℕ) : Bitfield :=
  match decode s with
  | some bytes => fromBytes bytes n
  | none => empty n

end Bitfield

/-! ## The state -/

/-- A piece that was requested, of whom, and until when. -/
structure Request where
  piece : UInt32
  peer : String
  deadline : ℕ
deriving DecidableEq, Repr

/-- A download with its peers and requests. -/
structure Leech where
  download : State
  peers : Record Bitfield
  inflight : List Request
  clock : ℕ

namespace Leech

def pieceCount (s : Leech) : ℕ := s.download.swarm.manifest.pieceCount

/-- The field `have`. -/
def held (s : Leech) : Bitfield := s.download.swarm.held

end Leech

/-- An offer that came in one frame, and so all of its pieces. -/
structure Offer where
  manifest : Manifest
  groupId : Option String
  /-- The field `from`. -/
  sender : String
  members : List String
  framed : manifest.pieceCount ≤ MAX_FRAME_LEN

/-- The download that `accept_offer` starts. -/
def Offer.accept (offer : Offer) (myId : String) (old : Bytes) : Leech where
  download := acceptOffer offer.manifest offer.groupId old
  peers := offer.members.foldl
    (fun peers m =>
      if m ≠ myId ∧ m ≠ offer.sender then peers.set m (Bitfield.empty offer.manifest.pieceCount)
      else peers)
    (Record.empty.set offer.sender (Bitfield.full offer.manifest.pieceCount))
  inflight := []
  clock := 0

/-! ## Scheduling -/

/-- The requests in flight to a peer. -/
def load (inflight : List Request) (peer : String) : ℕ := inflight.countP (·.peer = peer)

/-- How a map is iterated over. -/
structure Iteration where
  order : List (String × Bitfield) → List (String × Bitfield)
  perm : ∀ peers, (order peers).Perm peers

structure Scan where
  inflight : List Request
  perPeer : String → ℕ
  total : ℕ
  reqs : List (String × UInt32)

section

variable (perPeer : String → ℕ) (idx : ℕ)

/-- A peer is better when it has the piece, room, and less to do. -/
def better (best : Option (String × ℕ)) (entry : String × Bitfield) : Option (String × ℕ) :=
  let c := perPeer entry.1
  if !entry.2.get idx then best
  else if PER_PEER_WINDOW ≤ c then best
  else
    match best with
    | none => some (entry.1, c)
    | some (_, bc) => if c < bc then some (entry.1, c) else best

def best (peers : List (String × Bitfield)) : Option (String × ℕ) :=
  peers.foldl (better perPeer idx) none

end

section

variable (held : Bitfield) (peers : List (String × Bitfield)) (deadline : ℕ)

def scanPiece (s : Scan) (idx : ℕ) : Scan :=
  let piece := UInt32.ofNat idx
  if held.get idx ∨ piece ∈ s.inflight.map Request.piece then s
  else
    match best s.perPeer idx peers with
    | none => s
    | some (peer, _) => {
        inflight := s.inflight ++ [⟨piece, peer, deadline⟩]
        perPeer := Function.update s.perPeer peer (s.perPeer peer + 1)
        total := s.total + 1
        reqs := s.reqs ++ [(peer, piece)] }

end

namespace Leech

/-- The requests that have not expired. -/
def unexpired (s : Leech) (now : ℕ) : List Request := s.inflight.filter (now < ·.deadline)

/-- `schedule_requests`: the state and the requests to send. -/
def scheduleRequests (s : Leech) (now : ℕ) (iteration : Iteration) : Leech × List (String × UInt32) :=
  let kept := s.unexpired now
  let scan := scanUntil (fun scan : Scan => MAX_INFLIGHT ≤ scan.total)
    (scanPiece s.held (iteration.order s.peers.entries) (now + PIECE_TIMEOUT))
    { inflight := kept, perPeer := load kept, total := kept.length, reqs := [] }
    (List.range s.pieceCount)
  let requested := scan.inflight.map Request.piece
  ({ s with
      download := { s.download with swarm := { s.download.swarm with inflight := requested } }
      inflight := scan.inflight
      clock := now }, scan.reqs)

/-! ## Steps -/

/-- A step of a download removes the requests that it does not keep. -/
def stepDownload (sha256 : Bytes → String) (s : Leech) (event : Event) : Leech :=
  let download := Swarm.step sha256 s.download event
  { s with
    download := download
    inflight := s.inflight.filter fun r => r.piece ∈ download.swarm.inflight }

/-- `handle_have`. -/
def handleHave (s : Leech) (sender : String) (piece : ℕ) : Leech :=
  if s.download.registered then
    let bits := (s.peers.get? sender).getD (Bitfield.empty s.pieceCount)
    { s with peers := s.peers.set sender (bits.set piece) }
  else s

/-- `handle_bitfield`. -/
def handleBitfield (decode : String → Option Bytes) (s : Leech) (sender bits : String) : Leech :=
  if s.download.registered then
    { s with peers := s.peers.set sender (Bitfield.fromBase64 decode bits s.pieceCount) }
  else s

end Leech

/-- A piece arrives, a call that handles one goes on, peers tell what they have, or requests are
scheduled some time after the last time. -/
inductive LeechEvent where
  | handlePiece (piece : UInt32) (data : Bytes)
  | advance (call : ℕ) (io : Io)
  | handleHave (sender : String) (piece : ℕ)
  | handleBitfield (sender bits : String)
  | schedule (elapsed : ℕ) (iteration : Iteration)

def Leech.step (sha256 : Bytes → String) (decode : String → Option Bytes) (s : Leech) :
    LeechEvent → Leech
  | .handlePiece piece data => s.stepDownload sha256 (.handlePiece piece data)
  | .advance call io => s.stepDownload sha256 (.advance call io)
  | .handleHave sender piece => s.handleHave sender piece
  | .handleBitfield sender bits => s.handleBitfield decode sender bits
  | .schedule elapsed iteration => (s.scheduleRequests (s.clock + elapsed) iteration).1

/-!
# Runs of the scheduler

Loads only grow while the pieces are scanned. A piece that found no peer with room finds none later in the
same scan either, so a scan that ends below the limit has wasted nothing (`Settled`).
-/

/-! ## The best peer -/

/-- The best of the peers seen. -/
def Best (perPeer : String → ℕ) (idx : ℕ) (seen : List (String × Bitfield)) :
    Option (String × ℕ) → Prop
  | none => ∀ entry ∈ seen, entry.2.get idx = true → PER_PEER_WINDOW ≤ perPeer entry.1
  | some (peer, c) => c = perPeer peer ∧ c < PER_PEER_WINDOW ∧
      (∃ bits, (peer, bits) ∈ seen ∧ bits.get idx = true) ∧
      ∀ entry ∈ seen, entry.2.get idx = true → c ≤ perPeer entry.1

section

variable {perPeer : String → ℕ} {idx : ℕ} {seen : List (String × Bitfield)}
  {entry : String × Bitfield}

variable {found : Option (String × ℕ)}

/-- A peer that is no better. -/
theorem Best.skip (h : Best perPeer idx seen found) (hentry : entry.2.get idx = true →
      PER_PEER_WINDOW ≤ perPeer entry.1 ∨ ∃ b ∈ found, b.2 ≤ perPeer entry.1) :
    Best perPeer idx (seen ++ [entry]) found := by
  cases found with
  | none =>
    refine forall_mem_append.mpr ⟨h, forall_mem_singleton.mpr fun hget => ?_⟩
    rcases hentry hget with hfull | ⟨b, hb, -⟩
    · exact hfull
    · cases hb
  | some found =>
    obtain ⟨hc, hroom, ⟨bits, hmem, hget⟩, hleast⟩ := h
    refine ⟨hc, hroom, ⟨bits, mem_append_left _ hmem, hget⟩, ?_⟩
    refine forall_mem_append.mpr ⟨hleast, forall_mem_singleton.mpr fun hget => ?_⟩
    rcases hentry hget with hfull | ⟨b, hb, hle⟩
    · exact hroom.le.trans hfull
    · cases hb
      exact hle

/-- A better one. -/
theorem Best.take (h : Best perPeer idx seen found)
    (hget : entry.2.get idx = true) (hroom : perPeer entry.1 < PER_PEER_WINDOW)
    (hless : ∀ b ∈ found, perPeer entry.1 < b.2) :
    Best perPeer idx (seen ++ [entry]) (some (entry.1, perPeer entry.1)) := by
  refine ⟨rfl, hroom, ⟨entry.2, mem_append_right _ (mem_singleton.mpr rfl), hget⟩, ?_⟩
  refine forall_mem_append.mpr ⟨fun other hother hhas => ?_, forall_mem_singleton.mpr fun _ => le_rfl⟩
  cases found with
  | none => exact hroom.le.trans (h other hother hhas)
  | some found => exact (hless found rfl).le.trans (h.2.2.2 other hother hhas)

theorem Best.next (h : Best perPeer idx seen found) :
    Best perPeer idx (seen ++ [entry]) (better perPeer idx found entry) := by
  rw [better.eq_def]
  dsimp only
  by_cases hget : entry.2.get idx = true
  · rw [if_neg (by rw [hget]; exact Bool.false_ne_true)]
    by_cases hfull : PER_PEER_WINDOW ≤ perPeer entry.1
    · rw [if_pos hfull]
      exact h.skip fun _ => .inl hfull
    · rw [if_neg hfull]
      cases found with
      | none => exact h.take hget (not_le.mp hfull) nofun
      | some found =>
        dsimp only
        split
        · next hlt =>
          refine h.take hget (not_le.mp hfull) fun b hb => ?_
          cases hb
          exact hlt
        · next hle => exact h.skip fun _ => .inr ⟨found, rfl, not_lt.mp hle⟩
  · rw [if_pos (by rw [Bool.not_eq_true] at hget; rw [hget]; rfl)]
    exact h.skip fun hhas => absurd hhas hget

theorem best_spec (perPeer : String → ℕ) (idx : ℕ) (peers : List (String × Bitfield)) :
    Best perPeer idx peers (best perPeer idx peers) := by
  have hfold : ∀ (rest seen : List (String × Bitfield)) (found : Option (String × ℕ)),
      Best perPeer idx seen found →
        Best perPeer idx (seen ++ rest) (rest.foldl (better perPeer idx) found) := by
    intro rest
    induction rest with
    | nil =>
      intro seen found h
      rwa [append_nil]
    | cons entry rest ih =>
      intro seen found h
      rw [foldl_cons, append_cons]
      exact ih _ _ h.next
  exact hfold peers [] none nofun

end

/-! ## One scan -/

/-- The requests that are sent. -/
def requested (deadline : ℕ) (reqs : List (String × UInt32)) : List Request :=
  reqs.map fun (peer, piece) => ⟨piece, peer, deadline⟩

/-- A piece may be requested of a peer: it is missing and not in flight, the peer has it, and no other
that has it has less to do. -/
structure Asked (s : Leech) (inflight : List Request) (peer : String) (piece : UInt32) : Prop where
  missing : s.held.get piece.toNat = false
  idle : piece ∉ inflight.map Request.piece
  advertised : ∃ bits, s.peers.get? peer = some bits ∧ bits.get piece.toNat = true
  least : ∀ other bits, s.peers.get? other = some bits → bits.get piece.toNat = true →
    load inflight peer ≤ load inflight other

/-- The piece is held or in flight, or those that have it have no room. -/
def Settled (s : Leech) (idx : ℕ) (inflight : List Request) : Prop :=
  s.held.get idx = true ∨ UInt32.ofNat idx ∈ inflight.map Request.piece ∨
    ∀ peer bits, s.peers.get? peer = some bits → bits.get idx = true →
      PER_PEER_WINDOW ≤ load inflight peer

/-- What holds of the requests at any time. -/
structure Windowed (inflight : List Request) : Prop where
  nodup : (inflight.map Request.piece).Nodup
  total : inflight.length ≤ MAX_INFLIGHT
  window : ∀ peer, load inflight peer ≤ PER_PEER_WINDOW

/-- The counts are those of the requests, and all new requests could be made when they were. -/
structure Counted (s : Leech) (kept : List Request) (deadline : ℕ) (scan : Scan) : Prop where
  inflight : scan.inflight = kept ++ requested deadline scan.reqs
  perPeer : scan.perPeer = load scan.inflight
  total : scan.total = scan.inflight.length
  windowed : Windowed scan.inflight
  asked : ∀ before peer piece after, scan.reqs = before ++ (peer, piece) :: after →
    Asked s (kept ++ requested deadline before) peer piece

theorem load_append (inflight more : List Request) (peer : String) :
    load (inflight ++ more) peer = load inflight peer + load more peer := countP_append

theorem load_singleton (r : Request) (peer : String) :
    load [r] peer = if r.peer = peer then 1 else 0 := by
  simp only [load, countP_singleton, decide_eq_true_eq]

variable {inflight : List Request}

theorem Windowed.sublist {inflight' : List Request} (h : Windowed inflight)
    (hsub : inflight'.Sublist inflight) : Windowed inflight' where
  nodup := h.nodup.sublist (hsub.map _)
  total := hsub.length_le.trans h.total
  window := fun peer => hsub.countP_le.trans (h.window peer)

theorem Settled.append {s : Leech} {idx : ℕ} (h : Settled s idx inflight)
    (more : List Request) : Settled s idx (inflight ++ more) := by
  refine h.imp_right (Or.imp (fun hmem => ?_) fun hfull peer bits hpeer hget => ?_)
  · rw [map_append]
    exact mem_append_left _ hmem
  · rw [load_append]
    exact (hfull peer bits hpeer hget).trans (Nat.le_add_right _ _)

section

variable {s : Leech} {peers : List (String × Bitfield)} {kept : List Request} {deadline : ℕ}
  {scan : Scan} {idx : ℕ}

/-- A piece is settled as it is, or requested of the best peer. -/
theorem scanPiece_cases (hpeers : peers.Perm s.peers.entries) (hidx : idx < 2 ^ 32)
    (h : Counted s kept deadline scan) :
    scanPiece s.held peers deadline scan idx = scan ∧ Settled s idx scan.inflight ∨
    ∃ peer, Asked s scan.inflight peer (UInt32.ofNat idx) ∧ load scan.inflight peer < PER_PEER_WINDOW ∧
      scanPiece s.held peers deadline scan idx = {
        inflight := scan.inflight ++ [⟨UInt32.ofNat idx, peer, deadline⟩]
        perPeer := Function.update scan.perPeer peer (scan.perPeer peer + 1)
        total := scan.total + 1
        reqs := scan.reqs ++ [(peer, UInt32.ofNat idx)] } := by
  have hmem : ∀ peer bits, (peer, bits) ∈ peers ↔ s.peers.get? peer = some bits := fun peer bits =>
    hpeers.mem_iff.trans Record.mem_entries_iff
  have htoNat : (UInt32.ofNat idx).toNat = idx := UInt32.toNat_ofNat_of_lt' hidx
  rw [scanPiece]
  by_cases hskip : s.held.get idx = true ∨ UInt32.ofNat idx ∈ scan.inflight.map Request.piece
  · rw [if_pos hskip]
    exact .inl ⟨rfl, hskip.imp_right .inl⟩
  · rw [if_neg hskip]
    obtain ⟨hmissing, hidle⟩ := not_or.mp hskip
    have hbest := best_spec scan.perPeer idx peers
    cases hfound : best scan.perPeer idx peers with
    | none =>
      rw [hfound] at hbest
      refine .inl ⟨rfl, .inr (.inr fun peer bits hpeer hget => ?_)⟩
      have hfull := hbest (peer, bits) ((hmem peer bits).mpr hpeer) hget
      rwa [h.perPeer] at hfull
    | some found =>
      rw [hfound] at hbest
      obtain ⟨peer, c⟩ := found
      obtain ⟨rfl, hroom, ⟨bits, hpeer, hget⟩, hleast⟩ := hbest
      rw [h.perPeer] at hroom hleast
      refine .inr ⟨peer, ⟨?_, hidle, ⟨bits, (hmem peer bits).mp hpeer, ?_⟩, ?_⟩, hroom, rfl⟩
      · rw [htoNat]
        exact Bool.not_eq_true _ ▸ hmissing
      · rwa [htoNat]
      · intro other bits' hother hhas
        rw [htoNat] at hhas
        exact hleast (other, bits') ((hmem other bits').mpr hother) hhas

theorem Windowed.request (h : Windowed inflight) (hroom : inflight.length < MAX_INFLIGHT) {r : Request}
    (hidle : r.piece ∉ inflight.map Request.piece) (hpeer : load inflight r.peer < PER_PEER_WINDOW) :
    Windowed (inflight ++ [r]) where
  nodup := by
    rw [map_append, map_singleton]
    exact nodup_append.mpr ⟨h.nodup, nodup_singleton _, fun piece hmem piece' hmem' heq => by
      rw [mem_singleton.mp hmem'] at heq
      exact hidle (heq ▸ hmem)⟩
  total := by
    rw [length_append, length_singleton]
    exact hroom
  window := fun peer => by
    rw [load_append, load_singleton]
    by_cases hsame : r.peer = peer
    · rw [if_pos hsame]
      exact hsame ▸ hpeer
    · rw [if_neg hsame]
      exact h.window peer

theorem Counted.scanPiece (hpeers : peers.Perm s.peers.entries) (hidx : idx < 2 ^ 32)
    (h : Counted s kept deadline scan) (hroom : ¬ MAX_INFLIGHT ≤ scan.total) :
    Counted s kept deadline (scanPiece s.held peers deadline scan idx) := by
  rcases scanPiece_cases hpeers hidx h with ⟨hsame, -⟩ | ⟨peer, hasked, hpeer, hnext⟩
  · rwa [hsame]
  · rw [hnext]
    refine ⟨?_, ?_, ?_, ?_, ?_⟩
    · rw [h.inflight, append_assoc, requested, requested, map_append]
      rfl
    · funext other
      dsimp only
      rw [load_append, load_singleton, h.perPeer, Function.update_apply]
      by_cases hsame : other = peer
      · rw [if_pos hsame, if_pos hsame.symm, hsame]
      · rw [if_neg hsame, if_neg (Ne.symm hsame)]
        rfl
    · rw [h.total, length_append]
      rfl
    · exact h.windowed.request (by rw [← h.total]; exact not_le.mp hroom) hasked.idle hpeer
    · intro before peer' piece after heq
      rcases eq_nil_or_concat after with rfl | ⟨after, last, rfl⟩
      · obtain ⟨rfl, hlast⟩ := append_inj' heq rfl
        cases hlast
        rwa [← h.inflight]
      · rw [concat_eq_append, ← cons_append, ← append_assoc] at heq
        exact h.asked before peer' piece after (append_inj' heq rfl).1

theorem settled_scanPiece (hpeers : peers.Perm s.peers.entries) (hidx : idx < 2 ^ 32)
    (h : Counted s kept deadline scan) :
    Settled s idx (scanPiece s.held peers deadline scan idx).inflight := by
  rcases scanPiece_cases hpeers hidx h with ⟨hsame, hsettled⟩ | ⟨peer, -, -, hnext⟩
  · rwa [hsame]
  · rw [hnext, Settled, map_append]
    exact .inr (.inl (mem_append_right _ (mem_singleton.mpr rfl)))

/-- Later requests take no room away from those before. -/
theorem Settled.scanPiece (hpeers : peers.Perm s.peers.entries) (hidx : idx < 2 ^ 32)
    (h : Counted s kept deadline scan) {i : ℕ} (hi : Settled s i scan.inflight) :
    Settled s i (scanPiece s.held peers deadline scan idx).inflight := by
  rcases scanPiece_cases hpeers hidx h with ⟨hsame, -⟩ | ⟨peer, -, -, hnext⟩
  · rwa [hsame]
  · rw [hnext]
    exact hi.append _

end

/-! ## Scheduling -/

/-- What is asked of a call of the scheduler. -/
structure Scheduled (s : Leech) (now : ℕ) (reqs : List (String × UInt32)) (s' : Leech) : Prop where
  inflight : s'.inflight = s.unexpired now ++ requested (now + PIECE_TIMEOUT) reqs
  unexpired : ∀ r ∈ s'.inflight, now < r.deadline
  total : s'.inflight.length ≤ MAX_INFLIGHT
  window : ∀ peer, load s'.inflight peer ≤ PER_PEER_WINDOW
  asked : ∀ before peer piece after, reqs = before ++ (peer, piece) :: after →
    Asked s (s.unexpired now ++ requested (now + PIECE_TIMEOUT) before) peer piece
  wastesNone : s'.inflight.length < MAX_INFLIGHT → ∀ idx < s.pieceCount, Settled s idx s'.inflight
  keeps : s'.held = s.held ∧ s'.peers = s.peers

/-- What holds between the steps: the requests are those of the download, and all pieces have a number of
32 bits. -/
structure Leech.Sound (s : Leech) : Prop where
  framed : s.pieceCount ≤ MAX_FRAME_LEN
  pieces : s.inflight.map Request.piece = s.download.swarm.inflight
  windowed : Windowed s.inflight

section

variable {s : Leech}

/-- The scan of all pieces. -/
theorem scanned_spec (h : s.Sound) (now : ℕ) (iteration : Iteration) :
    ∃ scan, s.scheduleRequests now iteration = ({ s with
              download := { s.download with swarm :=
                { s.download.swarm with inflight := scan.inflight.map Request.piece } }
              inflight := scan.inflight
              clock := now }, scan.reqs) ∧
      Counted s (s.unexpired now) (now + PIECE_TIMEOUT) scan ∧
      (MAX_INFLIGHT ≤ scan.total ∨ ∀ idx ∈ List.range s.pieceCount, Settled s idx scan.inflight) := by
  have hidx : ∀ idx ∈ List.range s.pieceCount, idx < 2 ^ 32 := fun idx hmem =>
    (mem_range.mp hmem).trans_le (h.framed.trans (by decide))
  have hpeers := iteration.perm s.peers.entries
  have hstart : Counted s (s.unexpired now) (now + PIECE_TIMEOUT)
      ⟨s.unexpired now, load (s.unexpired now), (s.unexpired now).length, []⟩ := by
    refine ⟨(append_nil _).symm, rfl, rfl, h.windowed.sublist filter_sublist, ?_⟩
    exact fun before peer piece after heq =>
      absurd heq.symm (append_ne_nil_of_right_ne_nil before (cons_ne_nil _ _))
  have hkept : ∀ scan, ∀ idx ∈ List.range s.pieceCount,
      Counted s (s.unexpired now) (now + PIECE_TIMEOUT) scan → ¬ MAX_INFLIGHT ≤ scan.total →
        Counted s (s.unexpired now) (now + PIECE_TIMEOUT)
          (scanPiece s.held (iteration.order s.peers.entries) (now + PIECE_TIMEOUT) scan idx) :=
    fun scan idx hmem hcounted hroom => hcounted.scanPiece hpeers (hidx idx hmem) hroom
  refine ⟨_, rfl, scanUntil_induct hkept hstart, ?_⟩
  exact @scanUntil_settles _ _ _ _ _ _ (fun idx scan => Settled s idx scan.inflight) _ hkept
    (fun scan idx hmem hcounted _ => settled_scanPiece hpeers (hidx idx hmem) hcounted)
    (fun scan idx hmem j hcounted _ hj => hj.scanPiece hpeers (hidx idx hmem) hcounted) _ hstart

theorem scheduled_scheduleRequests (h : s.Sound) (now : ℕ) (iteration : Iteration) :
    Scheduled s now (s.scheduleRequests now iteration).2 (s.scheduleRequests now iteration).1 ∧
      (s.scheduleRequests now iteration).1.Sound := by
  obtain ⟨scan, heq, hcounted, hdone⟩ := scanned_spec h now iteration
  rw [heq]
  refine ⟨⟨hcounted.inflight, ?_, hcounted.windowed.total, hcounted.windowed.window, hcounted.asked,
    fun hroom idx hlt => ?_, rfl, rfl⟩, h.framed, rfl, hcounted.windowed⟩
  · intro r hr
    rw [hcounted.inflight] at hr
    rcases mem_append.mp hr with hr | hr
    · exact of_decide_eq_true (mem_filter.mp hr).2
    · obtain ⟨⟨peer, piece⟩, -, rfl⟩ := mem_map.mp hr
      exact Nat.lt_add_of_pos_right (by decide)
  · rcases hdone with hfull | hsettled
    · rw [hcounted.total] at hfull
      exact absurd hfull (not_le.mpr hroom)
    · exact hsettled idx (mem_range.mpr hlt)

/-! ## Runs -/

/-- A call that goes on removes at most its own request. -/
theorem inflight_advance (sha256 : Bytes → String) (d : State) (call : Call) (io : Io) :
    (advance sha256 d call io).1.swarm.manifest = d.swarm.manifest ∧
    ((advance sha256 d call io).1.swarm.inflight = d.swarm.inflight ∨
      (advance sha256 d call io).1.swarm.inflight = d.swarm.inflight.filter (· != call.piece)) := by
  unfold advance
  cases call.phase <;> dsimp only
  case verify =>
    split
    · exact ⟨rfl, .inr rfl⟩
    · exact ⟨rfl, .inl rfl⟩
  case mark => exact ⟨rfl, .inr rfl⟩
  case write f done =>
    split
    · exact ⟨rfl, .inl rfl⟩
    · split <;> exact ⟨rfl, .inl rfl⟩
  case handle | finalize | rename | reopen => split <;> exact ⟨rfl, .inl rfl⟩
  all_goals exact ⟨rfl, .inl rfl⟩

theorem inflight_step (sha256 : Bytes → String) (d : State) {event : Event}
    (hevent : ∀ inflight, event ≠ .schedule inflight) :
    (Swarm.step sha256 d event).swarm.manifest = d.swarm.manifest ∧ ∃ keep : UInt32 → Bool,
      (Swarm.step sha256 d event).swarm.inflight = d.swarm.inflight.filter keep := by
  have hall : d.swarm.inflight = d.swarm.inflight.filter fun _ => true :=
    (filter_eq_self.mpr fun _ _ => rfl).symm
  cases event with
  | handlePiece piece data => exact ⟨rfl, _, hall⟩
  | schedule inflight => exact absurd rfl (hevent inflight)
  | advance k io =>
    rw [Swarm.step]
    cases hget : d.calls[k]? with
    | none => exact ⟨rfl, _, hall⟩
    | some call =>
      obtain ⟨hmanifest, hinflight | hinflight⟩ := inflight_advance sha256 d call io
      · exact ⟨hmanifest, _, hinflight.trans hall⟩
      · exact ⟨hmanifest, _, hinflight⟩

theorem Leech.Sound.stepDownload (h : s.Sound) (sha256 : Bytes → String) {event : Event}
    (hevent : ∀ inflight, event ≠ .schedule inflight) : (s.stepDownload sha256 event).Sound := by
  obtain ⟨hmanifest, keep, hinflight⟩ := inflight_step sha256 s.download hevent
  refine ⟨?_, ?_, h.windowed.sublist filter_sublist⟩
  · rw [Leech.pieceCount, Leech.stepDownload, hmanifest]
    exact h.framed
  · rw [Leech.stepDownload]
    dsimp only
    rw [hinflight, ← h.pieces, filter_map]
    refine congrArg (List.map Request.piece) (filter_congr fun r hr => ?_)
    have hmem : r.piece ∈ s.inflight.map Request.piece := mem_map_of_mem hr
    rw [← filter_map, Bool.eq_iff_iff, decide_eq_true_iff, mem_filter]
    exact and_iff_right hmem

theorem Leech.Sound.step (h : s.Sound) (sha256 : Bytes → String) (decode : String → Option Bytes)
    (event : LeechEvent) : (s.step sha256 decode event).Sound := by
  cases event with
  | handlePiece piece data => exact h.stepDownload sha256 nofun
  | advance call io => exact h.stepDownload sha256 nofun
  | schedule elapsed iteration => exact (scheduled_scheduleRequests h _ iteration).2
  | handleHave sender piece =>
    rw [Leech.step, Leech.handleHave]
    split
    · exact ⟨h.framed, h.pieces, h.windowed⟩
    · exact h
  | handleBitfield sender bits =>
    rw [Leech.step, Leech.handleBitfield]
    split
    · exact ⟨h.framed, h.pieces, h.windowed⟩
    · exact h

end

theorem Offer.sound_accept (offer : Offer) (myId : String) (old : Bytes) :
    (offer.accept myId old).Sound where
  framed := offer.framed
  pieces := rfl
  windowed := ⟨nodup_nil, Nat.zero_le _, fun _ => Nat.zero_le _⟩

/-- In any run of a download, whenever requests are scheduled, the windows hold, nothing that expired is
left, every new request is one that may be made, of the peer with the least to do, and nothing that could
have been requested was left out. -/
theorem schedule_respects_windows (sha256 : Bytes → String) (decode : String → Option Bytes)
    (offer : Offer) (myId : String) (old : Bytes) (before : List LeechEvent) (elapsed : ℕ)
    (iteration : Iteration) : let s := runFrom (Leech.step sha256 decode) (offer.accept myId old) before
    Scheduled s (s.clock + elapsed) (s.scheduleRequests (s.clock + elapsed) iteration).2
      (s.step sha256 decode (.schedule elapsed iteration)) := by
  intro s
  have hsound : s.Sound := Always.last
    (always_of_step (fun s event h => h.step sha256 decode event) (offer.sound_accept myId old) before)
  exact (scheduled_scheduleRequests hsound _ iteration).1

end Taomni.Swarm
