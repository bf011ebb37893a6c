import Mathlib.Algebra.Group.Nat.Defs
import Taomni.Common.Fallible
import Taomni.Common.Positioned

/-!
# The manifest of a file

Reference: `src-tauri/src/lanchat/swarm/manifest.rs`.

The lowercase hex of SHA-256 is a parameter. A read of the file may return fewer bytes than there is
room for. `buildManifest` hashes the pieces of the file (`describes_buildManifest`): the last one may
be short, and an empty file has one piece without bytes.
-/

namespace Taomni.Swarm

open List

abbrev Bytes := List UInt8

/-! ## Manifests -/

structure Manifest where
  fileId : String
  name : String
  size : ℕ
  pieceSize : ℕ
  pieces : List String
deriving DecidableEq, Repr

namespace Manifest

def pieceCount (m : Manifest) : ℕ := m.pieces.length

/-- Byte length of piece `i` (the last piece may be short). -/
def pieceLen (m : Manifest) (i : ℕ) : ℕ :=
  let start := i * m.pieceSize
  if m.size ≤ start then 0 else min (m.size - start) m.pieceSize

/-- Where piece `i` ends in the file. -/
def pieceEnd (m : Manifest) (i : ℕ) : ℕ := i * m.pieceSize + m.pieceLen i

/-- The bytes of piece `i`. -/
def piece (m : Manifest) (bytes : Bytes) (i : ℕ) : Bytes :=
  slice bytes (i * m.pieceSize) (m.pieceEnd i)

end Manifest

/-! ## Building the manifest -/

/-- The piece size that manifests are built with. -/
def PIECE_SIZE : ℕ := 256 * 1024

/-- An open file whose bytes stay the same: its length, and how many bytes are read at a position into
so much room. -/
structure File where
  bytes : Bytes
  metadata : Except String ℕ
  read : ℕ → ℕ → Except String ℕ
  metadata_eq : ∀ {n}, metadata = .ok n → n = bytes.length
  read_le : ∀ {pos room n}, read pos room = .ok n → n ≤ room ∧ n ≤ bytes.length - pos
  read_zero : ∀ {pos room}, read pos room = .ok 0 → room = 0 ∨ bytes.length ≤ pos

section

variable (sha256 : Bytes → String)

/-- The inner loop: the buffer is filled from a position on, until it is full or the file ends. -/
def fill (file : File) (pieceSize pos : ℕ) : ℕ → Bytes → Except String Bytes
  | 0, buf => .ok buf
  | fuel + 1, buf =>
    if buf.length < pieceSize then
      match file.read (pos + buf.length) (pieceSize - buf.length) with
      | .error e => .error s!"read: {e}"
      | .ok 0 => .ok buf
      | .ok n => fill file pieceSize pos fuel
          (buf ++ slice file.bytes (pos + buf.length) (pos + buf.length + n))
    else .ok buf

/-- The outer loop: one piece after the other. -/
def hashPieces (file : File) (pieceSize : ℕ) : ℕ → ℕ → List String → Except String (List String)
  | 0, _, pieces => .ok pieces
  | fuel + 1, pos, pieces => do
    let buf ← fill file pieceSize pos (pieceSize + 1) []
    if buf.isEmpty then .ok pieces
    else if buf.length < pieceSize then .ok (pieces ++ [sha256 buf])
    else hashPieces file pieceSize fuel (pos + buf.length) (pieces ++ [sha256 buf])

def buildManifest (openFile : String → Except String File) (path name : String) (pieceSize : ℕ) :
    Except String Manifest := do
  let file ← (openFile path).mapError fun e => s!"open {path}: {e}"
  let size ← file.metadata
  let pieces ← hashPieces sha256 file pieceSize (file.bytes.length + 1) 0 []
  -- an empty file has one piece, so that there is always something to have
  let pieces := if pieces.isEmpty then [sha256 []] else pieces
  .ok {
    fileId := sha256 (pieces.flatMap fun hex => hex.toUTF8.data.toList)
    name := name
    size := size
    pieceSize := pieceSize % 2 ^ 32
    pieces := pieces }

end

/-! ## What a manifest says -/

/-- The manifest lists the hashes of all pieces of the file. -/
structure Manifest.Describes (sha256 : Bytes → String) (m : Manifest) (bytes : Bytes) : Prop where
  size : m.size = bytes.length
  covers : bytes.length ≤ m.pieceCount * m.pieceSize
  hashes : ∀ i hex, m.pieces[i]? = some hex → hex = sha256 (m.piece bytes i)

/-- A piece ends where the next one begins, or with the file. -/
theorem Manifest.pieceEnd_eq (m : Manifest) {i : ℕ} (h : i * m.pieceSize ≤ m.size) :
    m.pieceEnd i = min ((i + 1) * m.pieceSize) m.size := by
  rw [pieceEnd, pieceLen, Nat.add_one_mul]
  split <;> omega

variable {bytes : Bytes} {m : Manifest}

theorem Manifest.piece_eq (hsize : m.size = bytes.length) (i : ℕ) :
    m.piece bytes i = slice bytes (i * m.pieceSize) (min ((i + 1) * m.pieceSize) bytes.length) := by
  by_cases hpos : i * m.pieceSize ≤ m.size
  · rw [piece, m.pieceEnd_eq hpos, hsize]
  · have hnone : min ((i + 1) * m.pieceSize) bytes.length - i * m.pieceSize = 0 := by omega
    rw [piece, pieceEnd, pieceLen, if_pos (by omega), Nat.add_zero, slice_self, slice, hnone,
      take_zero]

theorem Manifest.length_piece (hsize : m.size = bytes.length) (i : ℕ) :
    (m.piece bytes i).length = m.pieceLen i := by
  rw [piece, pieceEnd, pieceLen, hsize]
  split
  · rw [Nat.add_zero, slice_self]
    rfl
  · rw [length_slice _ (by omega)]
    omega

variable {file : File} {pieceSize : ℕ}

/-- The buffer ends up with the bytes of one piece. -/
theorem fill_eq {pos filled fuel : ℕ} {buf : Bytes}
    (hend : pos + filled ≤ file.bytes.length) (hroom : filled ≤ pieceSize)
    (hfuel : pieceSize - filled < fuel)
    (h : fill file pieceSize pos fuel (slice file.bytes pos (pos + filled)) = .ok buf) :
    buf = slice file.bytes pos (min (pos + pieceSize) file.bytes.length) := by
  induction fuel generalizing filled with
  | zero => omega
  | succ fuel ih =>
    have hlength : (slice file.bytes pos (pos + filled)).length = filled := by
      rw [length_slice _ hend, Nat.add_sub_cancel_left]
    rw [fill, hlength] at h
    by_cases hfull : filled < pieceSize
    · rw [if_pos hfull] at h
      cases hread : file.read (pos + filled) (pieceSize - filled) with
      | error e =>
        rw [hread] at h
        cases h
      | ok n =>
        rw [hread] at h
        obtain ⟨hn, hrest⟩ := file.read_le hread
        cases n with
        | zero =>
          -- the file ends here
          have hmin : min (pos + pieceSize) file.bytes.length = pos + filled := by
            rcases file.read_zero hread with hzero | hzero <;> omega
          rw [hmin, ← Except.ok.inj h]
        | succ n =>
          change fill file pieceSize pos fuel (_ ++ slice _ _ (pos + filled + (n + 1))) = _ at h
          rw [slice_append _ (by omega) (by omega), Nat.add_assoc] at h
          exact ih (by omega) (by omega) (by omega) h
    · rw [if_neg hfull] at h
      have hmin : min (pos + pieceSize) file.bytes.length = pos + filled := by omega
      rw [hmin, ← Except.ok.inj h]

theorem fill_nil_eq {pos : ℕ} {buf : Bytes}
    (hpos : pos ≤ file.bytes.length) (h : fill file pieceSize pos (pieceSize + 1) [] = .ok buf) :
    buf = slice file.bytes pos (min (pos + pieceSize) file.bytes.length) := by
  rw [← slice_self file.bytes pos] at h
  rw [← Nat.add_zero pos] at hpos
  exact fill_eq hpos (Nat.zero_le _) (by omega) h

/-- The hashes of the first pieces. -/
def Hashed (sha256 : Bytes → String) (bytes : Bytes) (pieceSize : ℕ) (pieces : List String) : Prop :=
  ∀ i hex, pieces[i]? = some hex →
    hex = sha256 (slice bytes (i * pieceSize) (min ((i + 1) * pieceSize) bytes.length))

variable {pieces : List String}

theorem Hashed.concat {sha256 : Bytes → String} (h : Hashed sha256 bytes pieceSize pieces) :
    Hashed sha256 bytes pieceSize (pieces ++ [sha256 (slice bytes (pieces.length * pieceSize)
      (min ((pieces.length + 1) * pieceSize) bytes.length))]) := by
  intro i hex hi
  by_cases hfirst : i < pieces.length
  · rw [getElem?_append_left hfirst] at hi
    exact h i hex hi
  · obtain ⟨hlast, -⟩ := List.getElem?_eq_some_iff.mp hi
    rw [length_append, length_singleton] at hlast
    obtain rfl : i = pieces.length := by omega
    rw [getElem?_concat_length] at hi
    exact (Option.some.inj hi).symm

/-- The outer loop hashes the pieces that are left. -/
theorem hashPieces_hashed {sha256 : Bytes → String} {fuel : ℕ}
    {hashed : List String} (hsize : 0 < pieceSize) (hpieces : Hashed sha256 file.bytes pieceSize pieces)
    (hpos : pieces.length * pieceSize ≤ file.bytes.length)
    (hfuel : file.bytes.length - pieces.length * pieceSize < fuel)
    (h : hashPieces sha256 file pieceSize fuel (pieces.length * pieceSize) pieces = .ok hashed) :
    Hashed sha256 file.bytes pieceSize hashed ∧ file.bytes.length ≤ hashed.length * pieceSize := by
  induction fuel generalizing pieces with
  | zero => omega
  | succ fuel ih =>
    rw [hashPieces] at h
    cases hfill : fill file pieceSize (pieces.length * pieceSize) (pieceSize + 1) [] with
    | error e =>
      rw [hfill] at h
      cases h
    | ok buf =>
      rw [hfill] at h
      change (if buf.isEmpty then _ else _) = _ at h
      have hnext := Nat.add_one_mul pieces.length pieceSize
      have hbuf := fill_nil_eq hpos hfill
      have hlength : buf.length =
          min (pieces.length * pieceSize + pieceSize) file.bytes.length - pieces.length * pieceSize := by
        rw [hbuf, length_slice _ (by omega)]
      rw [← hnext] at hbuf
      have hconcat := hpieces.concat
      rw [← hbuf] at hconcat
      have hcount : (pieces ++ [sha256 buf]).length = pieces.length + 1 := by
        rw [length_append, length_singleton]
      by_cases hempty : buf.isEmpty
      · rw [if_pos hempty] at h
        cases h
        rw [isEmpty_iff_length_eq_zero] at hempty
        exact ⟨hpieces, by omega⟩
      rw [if_neg hempty] at h
      by_cases hshort : buf.length < pieceSize
      · rw [if_pos hshort] at h
        cases h
        rw [hcount]
        exact ⟨hconcat, by omega⟩
      · rw [if_neg hshort] at h
        have hpos' : pieces.length * pieceSize + buf.length =
            (pieces ++ [sha256 buf]).length * pieceSize := by
          rw [hcount]
          omega
        rw [hpos'] at h
        refine ih hconcat ?_ ?_ h <;> rw [hcount] <;> omega

/-- All pieces are hashed, also the one of an empty file. -/
theorem hashPieces_complete {sha256 : Bytes → String} (hsize : 0 < pieceSize)
    (h : hashPieces sha256 file pieceSize (file.bytes.length + 1) 0 [] = .ok pieces) :
    let pieces := if pieces.isEmpty then [sha256 []] else pieces
    Hashed sha256 file.bytes pieceSize pieces ∧ file.bytes.length ≤ pieces.length * pieceSize := by
  have hnone : Hashed sha256 file.bytes pieceSize [] := fun i hex hi => by cases hi
  have hpos : ([] : List String).length * pieceSize = 0 := Nat.zero_mul pieceSize
  rw [← hpos] at h
  obtain ⟨hhashed, hcovers⟩ :=
    hashPieces_hashed hsize hnone (by rw [hpos]; exact Nat.zero_le _) (by omega) h
  by_cases hempty : pieces.isEmpty
  · rw [if_pos hempty]
    obtain rfl := List.isEmpty_iff.mp hempty
    have hbytes : file.bytes = [] := eq_nil_of_length_eq_zero (by omega)
    have hfirst := hnone.concat
    rw [hbytes] at hfirst ⊢
    rw [slice, drop_nil, take_nil] at hfirst
    exact ⟨hfirst, Nat.zero_le _⟩
  · rw [if_neg hempty]
    exact ⟨hhashed, hcovers⟩

/-- The manifest of a file describes it. -/
theorem describes_buildManifest {sha256 : Bytes → String} {openFile : String → Except String File}
    {path name : String} (hsize : 0 < pieceSize)
    (hu32 : pieceSize < 2 ^ 32) (hopen : openFile path = .ok file)
    (h : buildManifest sha256 openFile path name pieceSize = .ok m) :
    m.pieceSize = pieceSize ∧ m.Describes sha256 file.bytes := by
  obtain ⟨opened, hopened, h⟩ := exists_of_bind_eq_ok h
  obtain rfl : file = opened := Except.ok.inj (hopen.symm.trans (eq_ok_of_mapError hopened))
  obtain ⟨size, hmetadata, h⟩ := exists_of_bind_eq_ok h
  obtain ⟨pieces, hpieces, h⟩ := exists_of_bind_eq_ok h
  cases h
  have hu32 := Nat.mod_eq_of_lt hu32
  obtain ⟨hhashed, hcovers⟩ := hashPieces_complete hsize hpieces
  have hsize := file.metadata_eq hmetadata
  refine ⟨hu32, hsize, hu32.symm ▸ hcovers, fun i hex hi => ?_⟩
  rw [Manifest.piece_eq hsize]
  exact hu32.symm ▸ hhashed i hex hi

/-!
# Downloading a file

Reference: `handle_piece` and `finalize_leecher` of `src-tauri/src/lanchat/swarm/pieces.rs`,
`accept_offer` of `offers.rs`, `bitfield.rs`, and `pwrite_all` of `file_io.rs`.

Calls of `handle_piece` run side by side, each up to its next await or lock in one step; between two
steps of a call any other may run. What the system answers (how many bytes are written, whether the
file can be renamed) comes with the step.
-/

/-! ## Bitfields -/

structure Bitfield where
  bits : List Bool
deriving DecidableEq, Repr

namespace Bitfield

def empty (n : ℕ) : Bitfield := ⟨List.replicate n false⟩

def set (b : Bitfield) (i : ℕ) : Bitfield := ⟨b.bits.set i true⟩

def get (b : Bitfield) (i : ℕ) : Bool := b.bits[i]?.getD false

def isComplete (b : Bitfield) : Bool := !b.bits.isEmpty && b.bits.all id

end Bitfield

/-! ## The state -/

inductive Handle where
  | readWrite
  | readOnly
deriving DecidableEq, Repr

/-- What `handle_piece` has still to do. -/
inductive Phase where
  | lookup
  | duplicate
  | verify
  | handle
  | write (handle : Handle) (done : ℕ)
  | mark
  | whole
  | finalize
  | close
  | rename
  | reopen
  | release
  | returned
deriving DecidableEq, Repr

structure Call where
  piece : UInt32
  data : Bytes
  phase : Phase
deriving DecidableEq, Repr

def Call.idx (call : Call) : ℕ := call.piece.toNat

structure SwarmFile where
  manifest : Manifest
  groupId : Option String
  file : Option Handle
  /-- The field `have`. -/
  held : Bitfield
  inflight : List UInt32
  finalized : Bool
deriving DecidableEq, Repr

/-- The swarm, the file on disk and the calls. `temp` are the bytes of the temp file, also after it was
renamed; `registered` says that the swarm is in the map of swarms. -/
structure State where
  swarm : SwarmFile
  registered : Bool
  temp : Bytes
  renamed : Bool
  calls : List Call
deriving DecidableEq, Repr

/-- The swarm that `accept_offer` starts, when the temp file had these bytes before: it is opened without
truncation. -/
def acceptOffer (manifest : Manifest) (groupId : Option String) (old : Bytes) : State where
  swarm := {
    manifest := manifest
    groupId := groupId
    file := some .readWrite
    held := Bitfield.empty manifest.pieceCount
    inflight := []
    finalized := false }
  registered := true
  temp := setLen 0 old manifest.size
  renamed := false
  calls := []

/-! ## Steps -/

/-- How the system answers a call: so many bytes were written, or it succeeds, or it fails. -/
inductive Io where
  | ok (n : ℕ)
  | failed
deriving DecidableEq, Repr

section

variable (sha256 : Bytes → String)

/-- One step of a call, and what it has to do then. -/
def advance (s : State) (call : Call) (io : Io) : State × Phase :=
  let idx := call.idx
  let requested := s.swarm.inflight.filter (· != call.piece)
  match call.phase with
  | .lookup => (s, if s.registered then .duplicate else .returned)
  | .duplicate => (s, if s.swarm.held.get idx then .returned else .verify)
  | .verify =>
    if s.swarm.manifest.pieces[idx]? ≠ some (sha256 call.data) then
      ({ s with swarm := { s.swarm with inflight := requested } }, .returned)
    else (s, .handle)
  | .handle =>
    match s.swarm.file with
    | none => (s, .returned)
    | some f => (s, .write f 0)
  | .write f done =>
    -- `pwrite_all`: one `write_at` of what is left
    if call.data.length ≤ done then (s, .mark)
    else
      match f, io with
      | .readWrite, .ok (n + 1) =>
        let off := idx * s.swarm.manifest.pieceSize
        let written := (call.data.drop done).take (n + 1)
        ({ s with temp := writeAt 0 s.temp (off + done) written }, .write f (done + written.length))
      | _, _ => (s, .returned)
  | .mark =>
    ({ s with swarm := { s.swarm with held := s.swarm.held.set idx, inflight := requested } }, .whole)
  | .whole => (s, if s.swarm.held.isComplete then .finalize else .returned)
  | .finalize =>
    if s.swarm.finalized then (s, .returned)
    else ({ s with swarm := { s.swarm with finalized := true } }, .close)
  | .close => ({ s with swarm := { s.swarm with file := none } }, .rename)
  | .rename =>
    match io with
    | .ok _ => ({ s with renamed := true }, if s.swarm.groupId.isSome then .reopen else .release)
    | .failed => (s, .release)
  | .reopen =>
    match io with
    | .ok _ => ({ s with swarm := { s.swarm with file := some .readOnly } }, .returned)
    | .failed => (s, .returned)
  | .release => ({ s with registered := false }, .returned)
  | .returned => (s, .returned)

/-- A piece arrives from a peer, a call goes on, or the scheduler requests pieces and drops requests. -/
inductive Event where
  | handlePiece (piece : UInt32) (data : Bytes)
  | advance (call : ℕ) (io : Io)
  | schedule (inflight : List UInt32)
deriving DecidableEq, Repr

def step (s : State) : Event → State
  | .handlePiece piece data => { s with calls := s.calls ++ [⟨piece, data, .lookup⟩] }
  | .advance k io =>
    match s.calls[k]? with
    | none => s
    | some call =>
      let (s', phase) := advance sha256 s call io
      { s' with calls := s.calls.set k { call with phase := phase } }
  | .schedule inflight => { s with swarm := { s.swarm with inflight := inflight } }

def run (s : State) (events : List Event) : State := events.foldl (step sha256) s

end

/-- No data that arrives has the hash of a part of the file without being that part. -/
def CollisionFree (sha256 : Bytes → String) (bytes : Bytes) (events : List Event) : Prop :=
  ∀ piece data, .handlePiece piece data ∈ events →
    ∀ p q, sha256 data = sha256 (slice bytes p q) → data = slice bytes p q

end Taomni.Swarm
