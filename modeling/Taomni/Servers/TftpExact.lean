import Taomni.Servers.Tftp

/-!
# Exact transfers

The client and the server are never more than one block apart. So a packet with the expected number is
the packet of the expected block, and a file arrives as it was sent.

Reference: `src-tauri/src/servers/tftp.rs`.
-/

namespace Taomni.Servers

open List
open Nat (le_succ zero_mul)

/-! ## Uploads -/

namespace WriteServer

theorem ending_eq_none {fileData payload : Bytes} {writeError : Option String}
    (h : ending fileData payload writeError = none) : blockSize ≤ payload.length := by
  refine le_of_not_gt fun hshort => ?_
  unfold ending at h
  rw [if_pos hshort] at h
  cases writeError <;> cases h

theorem ending_eq_ok {fileData payload bytes : Bytes} {writeError : Option String}
    (h : ending fileData payload writeError = some (.ok bytes)) :
    payload.length < blockSize ∧ bytes = fileData := by
  unfold ending at h
  split at h
  · rename_i hshort
    cases writeError with
    | none => exact ⟨hshort, (Except.ok.inj (Option.some.inj h)).symm⟩
    | some e => cases h
  · cases h

end WriteServer

variable {p : Packet}

namespace Upload

/-- The server has stored `k` blocks, and the client is at the last one of them or at the next one. -/
structure Inv (file : Bytes) (k : ℕ) (u : Upload) : Prop where
  file_eq : u.file = file
  data : u.server.outcome = none → u.server.fileData = file.take (k * blockSize)
  expected : u.server.outcome = none → u.server.expected = (k + 1) % numbers
  stored_le : k ≤ u.clientBlock
  client_le : u.clientBlock ≤ k + 1
  sent : ∀ p ∈ u.toServer,
    (p.block ≤ u.clientBlock ∧ 0 < p.block ∧ p.bytes = dataPacket p.block (chunk file p.block)) ∨
      ∃ code message, p.bytes = errorPacket code message
  acks : ∀ p ∈ u.toClient, p.block ≤ k ∧ p.bytes = ackPacket p.block
  running : u.server.outcome = none → k * blockSize ≤ file.length
  stored : ∀ bytes, u.server.outcome = some (.ok bytes) → bytes = file

namespace Inv

variable {file : Bytes} {k : ℕ} {u : Upload}

theorem serverBlock_eq (h : Inv file k u) (hrunning : u.server.outcome = none) :
    u.serverBlock = k + 1 := by
  have hpos : 0 < blockSize := by decide
  unfold serverBlock
  rw [h.data hrunning, length_take, min_eq_left (h.running hrunning), Nat.mul_div_cancel _ hpos]

/-- The server gives up. -/
theorem fail (h : Inv file k u) {server : WriteServer} {e : String}
    (hfail : server.outcome = some (.error e)) : Inv file k { u with server, toClient := u.toClient ++ [] } := by
  have hrunning : server.outcome ≠ none := by
    rw [hfail]
    exact Option.some_ne_none _
  refine ⟨h.file_eq, fun hnone => absurd hnone hrunning, fun hnone => absurd hnone hrunning, h.stored_le,
    h.client_le, h.sent, ?_, fun hnone => absurd hnone hrunning, fun bytes hok => ?_⟩
  · rw [append_nil]
    exact h.acks
  · cases hfail.symm.trans hok

/-- The server says nothing. -/
theorem silent (h : Inv file k u) : Inv file k { u with toClient := u.toClient ++ [] } := by
  rw [append_nil]
  exact h

/-- A block that the server has is acknowledged. -/
theorem acknowledge (h : Inv file k u) {block : ℕ} (hle : block ≤ k) :
    Inv file k { u with toClient := u.toClient ++ [⟨block, ackPacket block⟩] } :=
  { h with
    acks := fun p hp => by
      rcases mem_append.mp hp with hp | hp
      · exact h.acks p hp
      · rw [mem_singleton.mp hp]
        exact ⟨hle, rfl⟩ }

/-- The next block is stored and acknowledged. -/
theorem store (h : Inv file k u) (hrunning : u.server.outcome = none) (hclient : k + 1 ≤ u.clientBlock)
    (writeError : Option String) : let r := u.server.store (chunk file (k + 1)) none writeError
    Inv file (k + 1)
      { u with server := r.1, toClient := u.toClient ++ r.2.map fun bytes => ⟨k + 1, bytes⟩ } := by
  have hdata : u.server.fileData ++ chunk file (k + 1) = file.take ((k + 1) * blockSize) := by
    rw [h.data hrunning, take_append_chunk]
  refine ⟨h.file_eq, fun _ => hdata, fun _ => ?_, hclient, h.client_le.trans (le_succ _), h.sent, ?_,
    fun hnone => le_of_not_short (WriteServer.ending_eq_none hnone), fun bytes hok => ?_⟩
  · show (u.server.expected + 1) % numbers = _
    rw [h.expected hrunning, Nat.mod_add_mod]
  · intro p hp
    rcases mem_append.mp hp with hp | hp
    · exact ⟨(h.acks p hp).1.trans (le_succ _), (h.acks p hp).2⟩
    · have hp : p ∈ [(⟨k + 1, ackPacket u.server.expected⟩ : Packet)] := hp
      rw [mem_singleton.mp hp, h.expected hrunning]
      exact ⟨le_rfl, ackPacket_mod _⟩
  · obtain ⟨hshort, rfl⟩ := WriteServer.ending_eq_ok hok
    exact hdata.trans (take_of_short hshort)

/-- Whatever the server gets, it keeps what it has or stores the next block. -/
theorem serverReceive (h : Inv file k u) (hp : p ∈ u.toServer)
    (htimely : u.serverBlock < p.block + numbers) (sendError writeError : Option String) :
    ∃ k', Inv file k' (u.serverReceive p.block (.packet p.bytes) sendError writeError) := by
  unfold Upload.serverReceive WriteServer.receive
  dsimp only
  cases hrunning : u.server.outcome with
  | some outcome => exact ⟨k, h.silent⟩
  | none =>
    rw [h.serverBlock_eq hrunning] at htimely
    rw [if_neg (by simp)]
    rcases h.sent p hp with ⟨hle, hpos, hbytes⟩ | ⟨code, message, hbytes⟩
    · rw [hbytes, fields_dataPacket _ (length_chunk_le file p.block)]
      dsimp only
      rw [if_neg (by decide), if_neg (by decide), h.expected hrunning]
      split
      · rename_i hnumber
        -- The block is the next one: it is not later, and not so old that its number came again.
        have hblock : p.block = k + 1 := eq_of_number_eq (hle.trans h.client_le) htimely hnumber
        rw [hblock] at hle ⊢
        cases sendError with
        | none => exact ⟨k + 1, h.store hrunning hle writeError⟩
        | some e => exact ⟨k, h.fail rfl⟩
      · rename_i hnumber
        have hne : p.block ≠ k + 1 := fun heq => hnumber (by rw [heq])
        have hblock : p.block ≤ k := Nat.le_of_lt_succ ((hle.trans h.client_le).lt_of_ne hne)
        cases sendError with
        | none =>
          refine ⟨k, ?_⟩
          have hack := h.acknowledge hblock
          rwa [← ackPacket_mod] at hack
        | some e => exact ⟨k, h.fail rfl⟩
    · obtain ⟨payload, hfields⟩ := fields_errorPacket code message
      rw [hbytes, hfields]
      dsimp only
      rw [if_pos rfl]
      exact ⟨k, h.fail rfl⟩

/-- The client sends its block. -/
theorem send (h : Inv file k u) : Inv file k u.send := by
  unfold Upload.send
  split
  · exact h
  · rename_i hblock
    refine { h with sent := fun p hp => ?_ }
    rcases mem_append.mp hp with hp | hp
    · exact h.sent p hp
    · rw [mem_singleton.mp hp, h.file_eq]
      exact .inl ⟨le_rfl, Nat.pos_of_ne_zero hblock, rfl⟩

theorem clientReceive (h : Inv file k u) (hp : p ∈ u.toClient)
    (htimely : u.clientBlock < p.block + numbers) : Inv file k (u.clientReceive p.bytes) := by
  obtain ⟨hle, hbytes⟩ := h.acks p hp
  unfold Upload.clientReceive
  rw [hbytes, fields_ackPacket]
  dsimp only
  split
  · rename_i hanswer
    have hblock : p.block = u.clientBlock :=
      eq_of_number_eq (hle.trans h.stored_le) htimely hanswer.2.1
    refine send { h with
      stored_le := h.stored_le.trans (le_succ _)
      client_le := Nat.succ_le_succ (hblock ▸ hle)
      sent := fun p hp => ?_ }
    exact (h.sent p hp).imp_left fun ⟨hle, hsent⟩ => ⟨hle.trans (le_succ _), hsent⟩
  · exact h

theorem step (h : Inv file k u) {e : UploadEvent} (htimely : u.Timely e) :
    ∃ k', Inv file k' (u.step e) := by
  cases e with
  | toServer index sendError writeError =>
    unfold Upload.step
    dsimp only
    split
    · rename_i p hp
      exact h.serverReceive (mem_of_getElem? hp) (htimely p hp) sendError writeError
    · exact ⟨k, h⟩
  | toClient index =>
    unfold Upload.step
    dsimp only
    split
    · rename_i p hp
      exact ⟨k, h.clientReceive (mem_of_getElem? hp) (htimely p hp)⟩
    · exact ⟨k, h⟩
  | resend => exact ⟨k, h.send⟩
  | abort code message =>
    refine ⟨k, { h with sent := fun p hp => ?_ }⟩
    rcases mem_append.mp hp with hp | hp
    · exact h.sent p hp
    · rw [mem_singleton.mp hp]
      exact .inr ⟨code, message, rfl⟩
  | timeout =>
    unfold Upload.step Upload.serverReceive WriteServer.receive
    dsimp only
    split
    · exact ⟨k, h.silent⟩
    · exact ⟨k, h.fail rfl⟩
  | recvError message =>
    unfold Upload.step Upload.serverReceive WriteServer.receive
    dsimp only
    split
    · exact ⟨k, h.silent⟩
    · exact ⟨k, h.fail rfl⟩

theorem fresh (file : Bytes) {toClient : List Packet}
    (hacks : ∀ p ∈ toClient, p.block ≤ 0 ∧ p.bytes = ackPacket p.block) :
    Inv file 0 { file, server := {}, toClient } where
  file_eq := rfl
  data _ := by rw [zero_mul, take_zero]
  expected _ := rfl
  stored_le := le_rfl
  client_le := Nat.zero_le _
  sent _ hp := absurd hp not_mem_nil
  acks := hacks
  running _ := by
    rw [zero_mul]
    exact Nat.zero_le _
  stored _ hok := by cases hok

theorem start (file : Bytes) (sendError : Option String) : Inv file 0 (Upload.start file sendError) := by
  cases sendError with
  | none =>
    refine fresh file fun p hp => ?_
    have hp : p ∈ [(⟨0, ackPacket 0⟩ : Packet)] := hp
    rw [mem_singleton.mp hp]
    exact ⟨le_rfl, rfl⟩
  | some e => exact (fresh file fun p hp => absurd hp not_mem_nil).fail rfl

end Inv

/-- The file that is stored is the one that was sent. -/
theorem exact_of_timely (file : Bytes) (sendError : Option String) (events : List UploadEvent)
    (h : Throughout Upload.step Upload.Timely (Upload.start file sendError) events) :
    ∀ bytes, (runFrom Upload.step (Upload.start file sendError) events).server.outcome =
      some (.ok bytes) → bytes = file := by
  have hstep : ∀ u e, (∃ k, Inv file k u) → Timely u e → ∃ k, Inv file k (u.step e) :=
    fun u e ⟨k, hk⟩ htimely => hk.step htimely
  have hrun := h.always hstep ⟨0, Inv.start file sendError⟩
  obtain ⟨k, hk⟩ := hrun.last
  exact hk.stored

end Upload

/-! ## Downloads -/

namespace Download

/-- The server sends block `b`, and the client has accepted all blocks before it, or that block too. -/
structure Inv (data : Bytes) (b : ℕ) (d : Download) : Prop where
  data_eq : d.server.data = data
  pos : 0 < b
  offset : d.server.outcome = none → d.server.offset = (b - 1) * blockSize
  block : d.server.outcome = none → d.server.block = b % numbers
  reached : (b - 1) * blockSize ≤ data.length
  client_le : d.accepted.length ≤ b
  server_le : b ≤ d.accepted.length + 1
  accepted : d.accepted = (List.range d.accepted.length).map fun i => chunk data (i + 1)
  sent : ∀ p ∈ d.toClient, p.block ≤ b ∧ p.bytes = dataPacket p.block (chunk data p.block)
  acks : ∀ p ∈ d.toServer, p.block ≤ d.accepted.length ∧
    (p.bytes = ackPacket p.block ∨ ∃ code message, p.bytes = errorPacket code message)
  acked : ∀ i < d.accepted.length, ⟨i + 1, ackPacket (i + 1)⟩ ∈ d.toServer
  inOrder : (d.toServer.map Packet.block).Pairwise (· ≤ ·)
  complete : d.server.outcome = some (.ok ()) →
    d.accepted.length = b ∧ (chunk data b).length < blockSize

namespace Inv

variable {data : Bytes} {b : ℕ} {d : Download}

theorem silent (h : Inv data b d) : Inv data b { d with toClient := d.toClient ++ [] } := by
  rw [append_nil]
  exact h

theorem serverBlock_eq (h : Inv data b d) (hrunning : d.server.outcome = none) : d.serverBlock = b := by
  have hpos : 0 < blockSize := by decide
  unfold serverBlock
  rw [h.offset hrunning, Nat.mul_div_cancel _ hpos, Nat.sub_add_cancel h.pos]

/-- The server gives up, or a block is sent. -/
theorem transmit (h : Inv data b d) (s : ReadServer) (hdata : s.data = data)
    (hoffset : s.offset = (b - 1) * blockSize) (hblock : s.block = b % numbers)
    (houtcome : s.outcome = none) (sendError : Option String) : let r := s.transmit sendError
    Inv data b { d with
      server := r.1
      toClient := d.toClient ++ r.2.map fun bytes => ⟨r.1.offset / blockSize + 1, bytes⟩ } := by
  cases sendError with
  | some e =>
    exact { h.silent with
      data_eq := hdata
      offset := fun _ => hoffset
      block := fun _ => hblock
      complete := fun hok => by cases hok }
  | none =>
    refine { h with
      data_eq := hdata
      offset := fun _ => hoffset
      block := fun _ => hblock
      sent := fun p hp => ?_
      complete := fun hok => by cases houtcome.symm.trans hok }
    rcases mem_append.mp hp with hp | hp
    · exact h.sent p hp
    · have hpos : 0 < blockSize := by decide
      have hp : p ∈ [(⟨s.offset / blockSize + 1, dataPacket s.block s.chunk⟩ : Packet)] := hp
      rw [hoffset, Nat.mul_div_cancel _ hpos, Nat.sub_add_cancel h.pos] at hp
      rw [mem_singleton.mp hp, hblock, dataPacket_mod]
      refine ⟨le_rfl, ?_⟩
      unfold ReadServer.chunk chunk
      rw [hdata, hoffset]

theorem retry (h : Inv data b d) (hrunning : d.server.outcome = none) (sendError : Option String) :
    let r := d.server.retry sendError
    Inv data b { d with
      server := r.1
      toClient := d.toClient ++ r.2.map fun bytes => ⟨r.1.offset / blockSize + 1, bytes⟩ } := by
  unfold ReadServer.retry
  split
  · exact h.transmit { d.server with tries := d.server.tries + 1 } h.data_eq (h.offset hrunning)
      (h.block hrunning) hrunning sendError
  · exact { h.silent with
      offset := fun hnone => by cases hnone
      block := fun hnone => by cases hnone
      complete := fun hok => by cases hok }

/-- The block was acknowledged. -/
theorem advance (h : Inv data b d) (hrunning : d.server.outcome = none)
    (hclient : d.accepted.length = b) (sendError : Option String) : let r := d.server.advance sendError
    ∃ b', Inv data b' { d with
      server := r.1
      toClient := d.toClient ++ r.2.map fun bytes => ⟨r.1.offset / blockSize + 1, bytes⟩ } := by
  have hchunk : d.server.chunk = chunk data b := by
    unfold ReadServer.chunk chunk
    rw [h.data_eq, h.offset hrunning]
  obtain ⟨k, rfl⟩ : ∃ k, b = k + 1 := Nat.exists_eq_succ_of_ne_zero (Nat.pos_iff_ne_zero.mp h.pos)
  unfold ReadServer.advance
  rw [hchunk]
  split
  · rename_i hshort
    exact ⟨k + 1, { h.silent with
      offset := fun hnone => by cases hnone
      block := fun hnone => by cases hnone
      complete := fun _ => ⟨hclient, hshort⟩ }⟩
  · rename_i hlong
    have hle := le_of_not_short (Nat.not_lt.mp hlong)
    have hend : min (d.server.offset + blockSize) d.server.data.length = (k + 1) * blockSize := by
      rw [h.data_eq, h.offset hrunning, Nat.add_sub_cancel]
      rw [Nat.add_mul, Nat.one_mul] at hle ⊢
      exact min_eq_left hle
    let next : ReadServer := { d.server with
      offset := (k + 1) * blockSize, block := (d.server.block + 1) % numbers, tries := 1 }
    have hnext : Inv data (k + 2) { d with server := next } :=
      { h with
        pos := Nat.succ_pos _
        offset := fun _ => rfl
        block := fun _ => by
          show (d.server.block + 1) % numbers = _
          rw [h.block hrunning, Nat.mod_add_mod]
        reached := hle
        client_le := h.client_le.trans (le_succ _)
        server_le := by rw [hclient]
        sent := fun p hp => ⟨(h.sent p hp).1.trans (le_succ _), (h.sent p hp).2⟩
        complete := fun hok => by cases hrunning.symm.trans hok }
    rw [hend]
    exact ⟨k + 2, hnext.transmit next h.data_eq rfl (hnext.block hrunning) hrunning sendError⟩

theorem serverReceive (h : Inv data b d) (hp : p ∈ d.toServer)
    (htimely : d.serverBlock < p.block + numbers) (sendError : Option String) :
    ∃ b', Inv data b' (d.serverReceive (.packet p.bytes) sendError) := by
  obtain ⟨hle, hbytes⟩ := h.acks p hp
  unfold Download.serverReceive ReadServer.receive
  dsimp only
  cases hrunning : d.server.outcome with
  | some outcome => exact ⟨b, h.silent⟩
  | none =>
    rw [h.serverBlock_eq hrunning] at htimely
    rw [if_neg (by simp)]
    rcases hbytes with hbytes | ⟨code, message, hbytes⟩
    · rw [hbytes, fields_ackPacket]
      dsimp only
      split
      · rename_i hanswer
        rw [h.block hrunning] at hanswer
        have hblock : p.block = b := eq_of_number_eq (hle.trans h.client_le) htimely hanswer.2
        exact h.advance hrunning (le_antisymm h.client_le (hblock ▸ hle)) sendError
      · rw [if_neg (by decide)]
        exact ⟨b, h.retry hrunning sendError⟩
    · obtain ⟨payload, hfields⟩ := fields_errorPacket code message
      rw [hbytes, hfields]
      dsimp only
      rw [if_neg fun h => absurd h.1 (by decide), if_pos rfl]
      exact ⟨b, { h.silent with
        offset := fun hnone => by cases hnone
        block := fun hnone => by cases hnone
        complete := fun hok => by cases hok }⟩

theorem acknowledge (h : Inv data b d) : Inv data b d.acknowledge := by
  unfold Download.acknowledge
  split
  · exact h
  · rename_i hne
    have hpos : 0 < d.accepted.length :=
      length_pos_iff.mpr fun hnil => hne (List.isEmpty_iff.mpr hnil)
    refine { h with acks := fun p hp => ?_, acked := fun i hi => ?_, inOrder := ?_ }
    · rcases mem_append.mp hp with hp | hp
      · exact h.acks p hp
      · rw [mem_singleton.mp hp]
        exact ⟨le_rfl, .inl rfl⟩
    · exact mem_append_left _ (h.acked i hi)
    · rw [map_append, pairwise_append]
      refine ⟨h.inOrder, pairwise_singleton _ _, fun i hi j hj => ?_⟩
      obtain ⟨p, hp, rfl⟩ := mem_map.mp hi
      rw [map_singleton, mem_singleton] at hj
      rw [hj]
      exact (h.acks p hp).1

/-- The client accepts the block that the server sends. -/
theorem accept (h : Inv data b d) (hblock : b = d.accepted.length + 1) :
    Inv data b ({ d with accepted := d.accepted ++ [chunk data b] } : Download).acknowledge := by
  have hlength : (d.accepted ++ [chunk data b]).length = d.accepted.length + 1 := by
    rw [length_append, length_singleton]
  have heq : ({ d with accepted := d.accepted ++ [chunk data b] } : Download).acknowledge =
      { d with
        accepted := d.accepted ++ [chunk data b]
        toServer := d.toServer ++
          [⟨(d.accepted ++ [chunk data b]).length, ackPacket (d.accepted ++ [chunk data b]).length⟩] } :=
    if_neg (by simp)
  rw [heq]
  refine { h with
    client_le := by
      rw [hlength]
      exact hblock.ge
    server_le := by
      rw [hlength]
      exact h.server_le.trans (le_succ _)
    accepted := ?_
    acks := fun p hp => ?_
    acked := fun i hi => ?_
    inOrder := ?_
    complete := fun hok => ?_ }
  · show d.accepted ++ [chunk data b] = _
    rw [hlength, range_succ, map_append, ← h.accepted, map_singleton, hblock]
  · rcases mem_append.mp hp with hp | hp
    · exact ⟨(h.acks p hp).1.trans (by rw [hlength]; exact le_succ _), (h.acks p hp).2⟩
    · rw [mem_singleton.mp hp]
      exact ⟨le_rfl, .inl rfl⟩
  · rw [hlength] at hi ⊢
    rcases Nat.lt_succ_iff_lt_or_eq.mp hi with hi | rfl
    · exact mem_append_left _ (h.acked i hi)
    · exact mem_append_right _ mem_cons_self
  · rw [map_append, pairwise_append]
    refine ⟨h.inOrder, pairwise_singleton _ _, fun i hi j hj => ?_⟩
    obtain ⟨p, hp, rfl⟩ := mem_map.mp hi
    rw [map_singleton, mem_singleton] at hj
    rw [hj, hlength]
    exact (h.acks p hp).1.trans (le_succ _)
  · have hclient := (h.complete hok).1
    omega

theorem clientReceive (h : Inv data b d) (hp : p ∈ d.toClient)
    (htimely : d.clientBlock < p.block + numbers) : Inv data b (d.clientReceive p.bytes) := by
  obtain ⟨hle, hbytes⟩ := h.sent p hp
  unfold Download.clientReceive
  rw [hbytes, fields_dataPacket _ (length_chunk_le data p.block)]
  dsimp only
  split
  · rename_i hnext
    have hblock : p.block = d.accepted.length + 1 :=
      eq_of_number_eq (hle.trans h.server_le) htimely hnext.2.1
    have hb : b = d.accepted.length + 1 := le_antisymm h.server_le (hblock ▸ hle)
    rw [show p.block = b from hblock.trans hb.symm]
    exact h.accept hb
  · exact h

theorem step (h : Inv data b d) {e : DownloadEvent} (htimely : d.Timely e) :
    ∃ b', Inv data b' (d.step e) := by
  cases e with
  | toServer index sendError =>
    unfold Download.step
    dsimp only
    split
    · rename_i p hp
      exact h.serverReceive (mem_of_getElem? hp) (htimely p hp) sendError
    · exact ⟨b, h⟩
  | toClient index =>
    unfold Download.step
    dsimp only
    split
    · rename_i p hp
      exact ⟨b, h.clientReceive (mem_of_getElem? hp) (htimely p hp)⟩
    · exact ⟨b, h⟩
  | resend => exact ⟨b, h.acknowledge⟩
  | abort code message =>
    refine ⟨b, { h with
      acks := fun p hp => ?_
      acked := fun i hi => mem_append_left _ (h.acked i hi)
      inOrder := ?_ }⟩
    · rcases mem_append.mp hp with hp | hp
      · exact h.acks p hp
      · rw [mem_singleton.mp hp]
        exact ⟨le_rfl, .inr ⟨code, message, rfl⟩⟩
    · show ((d.toServer ++ [_]).map Packet.block).Pairwise _
      rw [map_append, pairwise_append]
      refine ⟨h.inOrder, pairwise_singleton _ _, fun i hi j hj => ?_⟩
      obtain ⟨p, hp, rfl⟩ := mem_map.mp hi
      rw [map_singleton, mem_singleton] at hj
      rw [hj]
      exact (h.acks p hp).1
  | timeout sendError =>
    unfold Download.step Download.serverReceive ReadServer.receive
    dsimp only
    cases hrunning : d.server.outcome with
    | some outcome => exact ⟨b, h.silent⟩
    | none => exact ⟨b, h.retry hrunning sendError⟩
  | recvError message =>
    unfold Download.step Download.serverReceive ReadServer.receive
    dsimp only
    split
    · exact ⟨b, h.silent⟩
    · exact ⟨b, { h.silent with
        offset := fun hnone => by cases hnone
        block := fun hnone => by cases hnone
        complete := fun hok => by cases hok }⟩

theorem start (data : Bytes) (sendError : Option String) :
    Inv data 1 (Download.start data sendError) := by
  have hfresh : Inv data 1 { server := { data }, toClient := [] } :=
    { data_eq := rfl
      pos := Nat.one_pos
      offset := fun _ => (zero_mul _).symm
      block := fun _ => rfl
      reached := by
        rw [Nat.sub_self, zero_mul]
        exact Nat.zero_le _
      client_le := Nat.zero_le _
      server_le := le_rfl
      accepted := rfl
      sent := fun _ hp => absurd hp not_mem_nil
      acks := fun _ hp => absurd hp not_mem_nil
      acked := fun _ hi => absurd hi (Nat.not_lt_zero _)
      inOrder := .nil
      complete := fun hok => by cases hok }
  have hsent := hfresh.transmit { data } rfl (zero_mul _).symm rfl rfl sendError
  cases sendError <;> exact hsent

end Inv

/-- A client has acknowledged every block of a file in order, and has accepted the file. -/
structure Exact (data : Bytes) (d : Download) : Prop where
  accepted : d.accepted.flatten = data
  blocks : d.accepted.length = data.length / blockSize + 1
  acked : ∀ i < d.accepted.length, ⟨i + 1, ackPacket (i + 1)⟩ ∈ d.toServer
  inOrder : (d.toServer.map Packet.block).Pairwise (· ≤ ·)

theorem Inv.exact {data : Bytes} {b : ℕ} {d : Download} (h : Inv data b d)
    (hok : d.server.outcome = some (.ok ())) : Exact data d := by
  obtain ⟨hclient, hshort⟩ := h.complete hok
  obtain ⟨k, rfl⟩ : ∃ k, b = k + 1 := Nat.exists_eq_succ_of_ne_zero (Nat.pos_iff_ne_zero.mp h.pos)
  refine ⟨?_, ?_, h.acked, h.inOrder⟩
  · rw [h.accepted, flatten_chunks, hclient, take_of_short hshort]
  · have hpos : 0 < blockSize := by decide
    have hle := h.reached
    rw [Nat.add_sub_cancel] at hle
    rw [length_chunk] at hshort
    rw [hclient, Nat.add_right_cancel_iff]
    refine (Nat.div_eq_of_lt_le hle ?_).symm
    rw [Nat.add_mul, Nat.one_mul]
    omega

end Download

/-! ## Both directions -/

/-- Over every run whose packets are timely, an upload stores the file that was sent, and a download that
is reported complete has arrived as it was. -/
theorem transfers_exact (file : Bytes) (sendError : Option String) :
    (∀ events, Throughout Upload.step Upload.Timely (Upload.start file sendError) events →
      ∀ bytes, (runFrom Upload.step (Upload.start file sendError) events).server.outcome =
        some (.ok bytes) → bytes = file) ∧
    ∀ events, Throughout Download.step Download.Timely (Download.start file sendError) events →
      let d := runFrom Download.step (Download.start file sendError) events
      d.server.outcome = some (.ok ()) → d.Exact file := by
  refine ⟨Upload.exact_of_timely file sendError, ?_⟩
  intro events h d hok
  have hstep : ∀ d e, (∃ b, Download.Inv file b d) → Download.Timely d e →
      ∃ b, Download.Inv file b (d.step e) := fun d e ⟨b, hb⟩ htimely => hb.step htimely
  have hrun := h.always hstep ⟨1, Download.Inv.start file sendError⟩
  obtain ⟨b, hb⟩ := hrun.last
  exact hb.exact hok

theorem transfers_exact_short :
    let u := runFrom Upload.step (Upload.start [1, 2, 3] none) [.toClient 0, .toServer 0 none none]
    let d := runFrom Download.step (Download.start [1, 2, 3] none) [.toClient 0, .toServer 0 none]
    (∃ bytes, u.server.outcome = some (.ok bytes) ∧ bytes = [1, 2, 3]) ∧ d.Exact [1, 2, 3] := by
  have hexact := transfers_exact [1, 2, 3] none
  have hstored : (runFrom Upload.step (Upload.start [1, 2, 3] none)
      [.toClient 0, .toServer 0 none none]).server.outcome = some (.ok [1, 2, 3]) := by
    decide
  refine ⟨⟨_, hstored, hexact.1 _ ?_ _ hstored⟩, hexact.2 _ ?_ rfl⟩
  · refine throughout_cons.mpr ⟨fun p hp => ?_, throughout_cons.mpr ⟨fun p hp => ?_, throughout_nil⟩⟩
    · obtain rfl := Option.some.inj hp
      decide
    · obtain rfl := Option.some.inj hp
      decide
  · refine throughout_cons.mpr ⟨fun p hp => ?_, throughout_cons.mpr ⟨fun p hp => ?_, throughout_nil⟩⟩
    · obtain rfl := Option.some.inj hp
      decide
    · obtain rfl := Option.some.inj hp
      decide

end Taomni.Servers
