import Mathlib.Tactic.Ring
import Taomni.Common.Runs

/-!
# TFTP transfers

The two transfer loops of the server, as machines that are driven by what they receive, and a client that
follows RFC 1350: it goes on to the next block when it has got the answer to the last one, and sends its
last packet again whenever it likes.

Reference: `src-tauri/src/servers/tftp.rs`.
-/

namespace Taomni.Servers

open List

abbrev Bytes := List UInt8

def blockSize : ℕ := 512

def retries : ℕ := 5

/-- The numbers of blocks. -/
def numbers : ℕ := 65536

/-! ## Packets -/

/-- `u16::to_be_bytes`. -/
def toBe (n : ℕ) : Bytes := [UInt8.ofNat (n / 256), UInt8.ofNat n]

/-- `u16::from_be_bytes`. -/
def fromBe (high low : UInt8) : ℕ := high.toNat * 256 + low.toNat

def opData : ℕ := 3

def opAck : ℕ := 4

def opError : ℕ := 5

def dataPacket (block : ℕ) (payload : Bytes) : Bytes := toBe opData ++ toBe block ++ payload

def ackPacket (block : ℕ) : Bytes := toBe opAck ++ toBe block

def errorPacket (code : ℕ) (message : Bytes) : Bytes := toBe opError ++ toBe code ++ message ++ [0]

/-- The opcode, the number and the payload of a packet of four bytes or more. The buffer has 1024. -/
def fields (packet : Bytes) : Option (ℕ × ℕ × Bytes) :=
  match packet.take 1024 with
  | a :: b :: c :: d :: payload => some (fromBe a b, fromBe c d, payload)
  | _ => none

/-- What `recv` gives. -/
inductive Received where
  | packet (bytes : Bytes)
  | timeout
  | error (message : String)

/-! ## Sending a file -/

/-- `serve_read` while it waits for an answer. -/
structure ReadServer where
  data : Bytes
  block : ℕ := 1
  offset : ℕ := 0
  /-- How many times the block has been sent. -/
  tries : ℕ := 1
  outcome : Option (Except String Unit) := none

namespace ReadServer

variable (s : ReadServer)

def finish (outcome : Except String Unit) : ReadServer × List Bytes :=
  ({ s with outcome := some outcome }, [])

def chunk : Bytes := (s.data.drop s.offset).take blockSize

/-- The packet of the block is sent, unless `send` fails. -/
def transmit (sendError : Option String) : ReadServer × List Bytes :=
  match sendError with
  | none => (s, [dataPacket s.block s.chunk])
  | some e => s.finish (.error e)

def start (data : Bytes) (sendError : Option String) : ReadServer × List Bytes :=
  ({ data } : ReadServer).transmit sendError

/-- The next round of the loop over the tries. -/
def retry (sendError : Option String) : ReadServer × List Bytes :=
  if s.tries < retries then { s with tries := s.tries + 1 }.transmit sendError
  else s.finish (.error "timed out waiting for ACK")

/-- The next round of the loop over the blocks. -/
def advance (sendError : Option String) : ReadServer × List Bytes :=
  if s.chunk.length < blockSize then s.finish (.ok ())
  else
    let end_ := min (s.offset + blockSize) s.data.length
    { s with offset := end_, block := (s.block + 1) % numbers, tries := 1 }.transmit sendError

def receive (received : Received) (sendError : Option String) : ReadServer × List Bytes :=
  if s.outcome.isSome then (s, [])
  else
    match received with
    | .error e => s.finish (.error e)
    | .timeout => s.retry sendError
    | .packet bytes =>
      match fields bytes with
      | none => s.retry sendError
      | some (op, number, _) =>
        if op = opAck ∧ number = s.block then s.advance sendError
        else if op = opError then s.finish (.error "client aborted")
        else s.retry sendError

end ReadServer

/-! ## Storing a file -/

/-- `serve_write` while it waits for a block. A stored file is its outcome. -/
structure WriteServer where
  expected : ℕ := 1
  fileData : Bytes := []
  outcome : Option (Except String Bytes) := none

namespace WriteServer

variable (s : WriteServer)

def finish (outcome : Except String Bytes) : WriteServer × List Bytes :=
  ({ s with outcome := some outcome }, [])

/-- `send_ack`. -/
def acknowledge (block : ℕ) (sendError : Option String) : WriteServer × List Bytes :=
  match sendError with
  | none => (s, [ackPacket block])
  | some e => s.finish (.error e)

def start (sendError : Option String) : WriteServer × List Bytes :=
  ({} : WriteServer).acknowledge 0 sendError

/-- The end of the transfer after a short block. -/
def ending (fileData payload : Bytes) (writeError : Option String) : Option (Except String Bytes) :=
  if payload.length < blockSize then
    match writeError with
    | none => some (.ok fileData)
    | some e => some (.error ("failed to write file: " ++ e))
  else none

/-- The block that was expected. -/
def store (payload : Bytes) (sendError writeError : Option String) : WriteServer × List Bytes :=
  let s := { s with fileData := s.fileData ++ payload }
  match sendError with
  | some e => s.finish (.error e)
  | none =>
    ({ s with
        expected := (s.expected + 1) % numbers
        outcome := ending s.fileData payload writeError }, [ackPacket s.expected])

def receive (received : Received) (sendError writeError : Option String) :
    WriteServer × List Bytes :=
  if s.outcome.isSome then (s, [])
  else
    match received with
    | .error e => s.finish (.error e)
    | .timeout => s.finish (.error "timed out waiting for DATA")
    | .packet bytes =>
      match fields bytes with
      | none => (s, [])
      | some (op, number, payload) =>
        if op = opError then s.finish (.error "client aborted")
        else if op ≠ opData then (s, [])
        else if number = s.expected then s.store payload sendError writeError
        else s.acknowledge number sendError

end WriteServer

/-!
# Transfers over a lossy network

The network keeps every packet that was sent. It may deliver a packet never, more than once, and after
later ones. Numbers wrap, so no packet may be late by 65536 blocks: the receiver must not be that far past
the block that the packet is about. An acknowledgement that is sent again is about its old block.

Reference: `src-tauri/src/servers/tftp.rs`.
-/

/-- A packet on the network, with the block that it is about. -/
structure Packet where
  block : ℕ
  bytes : Bytes

/-- A block of a file. The first one is block 1. -/
def chunk (file : Bytes) (block : ℕ) : Bytes := (file.drop ((block - 1) * blockSize)).take blockSize

/-! ## Uploads -/

/-- A client that sends a file to `serve_write`. Block 0 is its request. -/
structure Upload where
  file : Bytes
  clientBlock : ℕ := 0
  server : WriteServer
  toServer : List Packet := []
  toClient : List Packet

inductive UploadEvent where
  | toServer (index : ℕ) (sendError writeError : Option String)
  | toClient (index : ℕ)
  | resend
  | abort (code : ℕ) (message : Bytes)
  | timeout
  | recvError (message : String)

namespace Upload

def start (file : Bytes) (sendError : Option String) : Upload :=
  let (server, packets) := WriteServer.start sendError
  { file, server, toClient := packets.map fun bytes => ⟨0, bytes⟩ }

variable (u : Upload)

/-- The client sends its block, which is not the first one only before the answer to its request. -/
def send : Upload :=
  if u.clientBlock = 0 then u
  else
    { u with
      toServer := u.toServer ++
        [⟨u.clientBlock, dataPacket u.clientBlock (chunk u.file u.clientBlock)⟩] }

/-- The client goes on when the answer to its block comes. A short block was the last one. -/
def clientReceive (bytes : Bytes) : Upload :=
  match fields bytes with
  | some (op, number, _) =>
    if op = opAck ∧ number = u.clientBlock % numbers ∧
        (u.clientBlock = 0 ∨ blockSize ≤ (chunk u.file u.clientBlock).length) then
      { u with clientBlock := u.clientBlock + 1 }.send
    else u
  | none => u

/-- The answers of the server are about the block of the packet that they answer. -/
def serverReceive (block : ℕ) (received : Received) (sendError writeError : Option String) : Upload :=
  let (server, packets) := u.server.receive received sendError writeError
  { u with server, toClient := u.toClient ++ packets.map fun bytes => ⟨block, bytes⟩ }

def step : UploadEvent → Upload
  | .toServer index sendError writeError =>
    match u.toServer[index]? with
    | some p => u.serverReceive p.block (.packet p.bytes) sendError writeError
    | none => u
  | .toClient index =>
    match u.toClient[index]? with
    | some p => u.clientReceive p.bytes
    | none => u
  | .resend => u.send
  | .abort code message =>
    { u with toServer := u.toServer ++ [⟨u.clientBlock, errorPacket code message⟩] }
  | .timeout => u.serverReceive 0 .timeout none none
  | .recvError message => u.serverReceive 0 (.error message) none none

/-- The block that the server waits for. -/
def serverBlock : ℕ := u.server.fileData.length / blockSize + 1

/-- A packet is delivered while its receiver is less than 65536 blocks past it. -/
def Timely : UploadEvent → Prop
  | .toServer index _ _ => ∀ p, u.toServer[index]? = some p → u.serverBlock < p.block + numbers
  | .toClient index => ∀ p, u.toClient[index]? = some p → u.clientBlock < p.block + numbers
  | _ => True

end Upload

/-! ## Downloads -/

/-- A client that gets a file from `serve_read`. It has accepted some payloads. -/
structure Download where
  accepted : List Bytes := []
  server : ReadServer
  toServer : List Packet := []
  toClient : List Packet

inductive DownloadEvent where
  | toServer (index : ℕ) (sendError : Option String)
  | toClient (index : ℕ)
  | resend
  | abort (code : ℕ) (message : Bytes)
  | timeout (sendError : Option String)
  | recvError (message : String)

namespace Download

def start (data : Bytes) (sendError : Option String) : Download :=
  let (server, packets) := ReadServer.start data sendError
  { server, toClient := packets.map fun bytes => ⟨server.offset / blockSize + 1, bytes⟩ }

variable (d : Download)

/-- The block that the server sends. -/
def serverBlock : ℕ := d.server.offset / blockSize + 1

/-- The block that the client waits for. -/
def clientBlock : ℕ := d.accepted.length + 1

/-- The client acknowledges the last block that it has accepted. -/
def acknowledge : Download :=
  if d.accepted.isEmpty then d
  else
    { d with toServer := d.toServer ++ [⟨d.accepted.length, ackPacket d.accepted.length⟩] }

/-- A short block is the last one. -/
def isComplete : Bool := d.accepted.getLast?.any fun payload => payload.length < blockSize

def clientReceive (bytes : Bytes) : Download :=
  match fields bytes with
  | some (op, number, payload) =>
    if op = opData ∧ number = d.clientBlock % numbers ∧ d.isComplete = false then
      { d with accepted := d.accepted ++ [payload] }.acknowledge
    else d
  | none => d

def serverReceive (received : Received) (sendError : Option String) : Download :=
  let (server, packets) := d.server.receive received sendError
  { d with server, toClient := d.toClient ++
      packets.map fun bytes => ⟨server.offset / blockSize + 1, bytes⟩ }

def step : DownloadEvent → Download
  | .toServer index sendError =>
    match d.toServer[index]? with
    | some p => d.serverReceive (.packet p.bytes) sendError
    | none => d
  | .toClient index =>
    match d.toClient[index]? with
    | some p => d.clientReceive p.bytes
    | none => d
  | .resend => d.acknowledge
  | .abort code message =>
    { d with toServer := d.toServer ++ [⟨d.accepted.length, errorPacket code message⟩] }
  | .timeout sendError => d.serverReceive .timeout sendError
  | .recvError message => d.serverReceive (.error message) none

/-- A packet is delivered while its receiver is less than 65536 blocks past it. -/
def Timely : DownloadEvent → Prop
  | .toServer index _ => ∀ p, d.toServer[index]? = some p → d.serverBlock < p.block + numbers
  | .toClient index => ∀ p, d.toClient[index]? = some p → d.clientBlock < p.block + numbers
  | _ => True

end Download

/-! ## Packets -/

theorem fromBe_toBe (n : ℕ) : fromBe (UInt8.ofNat (n / 256)) (UInt8.ofNat n) = n % numbers := by
  unfold fromBe numbers
  rw [UInt8.toNat_ofNat', UInt8.toNat_ofNat']
  omega

theorem toBe_mod (n : ℕ) : toBe (n % numbers) = toBe n := by
  unfold toBe numbers
  have hlow : UInt8.ofNat (n % 65536) = UInt8.ofNat n :=
    UInt8.toNat_inj.mp (by rw [UInt8.toNat_ofNat', UInt8.toNat_ofNat']; omega)
  have hhigh : UInt8.ofNat (n % 65536 / 256) = UInt8.ofNat (n / 256) :=
    UInt8.toNat_inj.mp (by rw [UInt8.toNat_ofNat', UInt8.toNat_ofNat']; omega)
  rw [hlow, hhigh]

variable (file : Bytes) (block : ℕ)

/-- The bytes of an acknowledgement are those of its number. -/
theorem ackPacket_mod : ackPacket (block % numbers) = ackPacket block := by
  unfold ackPacket
  rw [toBe_mod]

theorem dataPacket_mod (payload : Bytes) :
    dataPacket (block % numbers) payload = dataPacket block payload := by
  unfold dataPacket
  rw [toBe_mod]

theorem fields_dataPacket {payload : Bytes} (h : payload.length ≤ blockSize) :
    fields (dataPacket block payload) = some (opData, block % numbers, payload) := by
  have hpacket : dataPacket block payload = UInt8.ofNat (opData / 256) :: UInt8.ofNat opData ::
      UInt8.ofNat (block / 256) :: UInt8.ofNat block :: payload := rfl
  have htake : payload.take 1020 = payload := take_of_length_le (by unfold blockSize at h; omega)
  unfold fields
  rw [hpacket]
  simp only [take_succ_cons, htake]
  rw [fromBe_toBe, fromBe_toBe]
  rfl

theorem fields_ackPacket : fields (ackPacket block) = some (opAck, block % numbers, []) := by
  have hpacket : ackPacket block = [UInt8.ofNat (opAck / 256), UInt8.ofNat opAck,
      UInt8.ofNat (block / 256), UInt8.ofNat block] := rfl
  unfold fields
  rw [hpacket]
  simp only [take_succ_cons, take_nil]
  rw [fromBe_toBe, fromBe_toBe]
  rfl

theorem fields_errorPacket (code : ℕ) (message : Bytes) :
    ∃ payload, fields (errorPacket code message) = some (opError, code % numbers, payload) := by
  have hpacket : errorPacket code message = UInt8.ofNat (opError / 256) :: UInt8.ofNat opError ::
      UInt8.ofNat (code / 256) :: UInt8.ofNat code :: (message ++ [0]) := rfl
  refine ⟨(message ++ [0]).take 1020, ?_⟩
  unfold fields
  rw [hpacket]
  simp only [take_succ_cons]
  rw [fromBe_toBe, fromBe_toBe]
  rfl

/-! ## Blocks of a file -/

theorem length_chunk_le : (chunk file block).length ≤ blockSize :=
  length_take_le _ _

theorem take_append_chunk (k : ℕ) :
    file.take (k * blockSize) ++ chunk file (k + 1) = file.take ((k + 1) * blockSize) := by
  unfold chunk
  rw [Nat.add_sub_cancel, Nat.add_mul, Nat.one_mul, take_add]

theorem length_chunk (k : ℕ) :
    (chunk file (k + 1)).length = min blockSize (file.length - k * blockSize) := by
  unfold chunk
  rw [Nat.add_sub_cancel, length_take, length_drop]

/-- A short block is the end of the file. -/
theorem take_of_short {file : Bytes} {k : ℕ} (h : (chunk file (k + 1)).length < blockSize) :
    file.take ((k + 1) * blockSize) = file := by
  rw [length_chunk] at h
  refine take_of_length_le ?_
  rw [Nat.add_mul, Nat.one_mul]
  omega

/-- The file goes on after a block that is not short. -/
theorem le_of_not_short {file : Bytes} {k : ℕ} (h : blockSize ≤ (chunk file (k + 1)).length) :
    (k + 1) * blockSize ≤ file.length := by
  rw [length_chunk] at h
  have hpos : 0 < blockSize := by decide
  rw [Nat.add_mul, Nat.one_mul]
  omega

theorem flatten_chunks (n : ℕ) :
    ((List.range n).map fun i => chunk file (i + 1)).flatten = file.take (n * blockSize) := by
  induction n with
  | zero => rw [Nat.zero_mul, take_zero, range_zero, map_nil, flatten_nil]
  | succ n ih =>
    rw [range_succ, map_append, flatten_append, ih, map_singleton,
      flatten_singleton, take_append_chunk]

/-- Close blocks with one number are the same. -/
theorem eq_of_number_eq {i j : ℕ} (hle : i ≤ j) (hlt : j < i + numbers)
    (h : i % numbers = j % numbers) : i = j := by
  unfold numbers at *
  omega

end Taomni.Servers
