import Mathlib.Algebra.Group.Nat.Defs
import Mathlib.Data.List.Nodup
import Taomni.Agent.CommandLine

/-!
# Files of the remote clipboard

A list of files is staged as empty files, and their contents are asked for in chunks. Every response is
matched to a file and a position by the id of its stream alone.

Reference: `src-tauri/src/rdp/session/clipboard/remote_files.rs` and `remote_receive.rs`.
-/

namespace Taomni.RdpClipboard

open List
open Agent (trim)

abbrev Text := List Char

abbrev Bytes := List UInt8

def maxClipboardFileItems : ℕ := 256

def maxClipboardFileBytes : ℕ := 512 * 1024 * 1024

def maxClipboardTotalBytes : ℕ := 1024 * 1024 * 1024

def remoteFileChunkSize : ℕ := 1024 * 1024

/-- The ids of streams are 32 bits wide. -/
def streamIds : ℕ := 2 ^ 32

/-! ## Names -/

def separator (c : Char) : Bool := c = '\\' || c = '/'

/-- `remote_clipboard_safe_path` below the staging directory. -/
def remoteClipboardSafePath (remoteName : Text) : Option (List Text) :=
  let parts := ((remoteName.splitOnP separator).map trim).filter fun part =>
    !(part.isEmpty || part = ['.'])
  if parts.any (fun part => part = ['.', '.'] || part.contains ':') then none
  else if parts.isEmpty then none
  else some parts

def remoteTopLevelName (remoteName : Text) : Option Text :=
  (remoteName.splitOnP separator).find? fun part =>
    !(trim part).isEmpty && part ≠ ['.'] && part ≠ ['.', '.']

/-! ## Transfers -/

structure RemoteClipboardFile where
  path : List Text
  size : ℕ
  isDirectory : Bool

structure RemoteFileStream where
  index : ℕ
  position : ℕ
deriving DecidableEq

/-- A transfer with the contents of its staged files, by their indexes. -/
structure RemoteFileTransfer where
  files : List RemoteClipboardFile
  contents : List Bytes
  topLevel : List Text
  streams : List (ℕ × RemoteFileStream)
  nextStreamId : ℕ
  receivedBytes : ℕ

structure FileContentsRequest where
  streamId : ℕ
  index : ℕ
  position : ℕ
  requestedSize : ℕ
deriving DecidableEq

/-- A file of a list. `made` tells whether the system can make it with its directories. -/
structure ListedFile where
  name : Text
  isDirectory : Bool
  fileSize : Option ℕ
  made : Bool

namespace RemoteFileTransfer

def insertStream (t : RemoteFileTransfer) (streamId : ℕ) (stream : RemoteFileStream) :
    RemoteFileTransfer :=
  { t with streams := (streamId, stream) :: t.streams.filter (·.1 ≠ streamId) }

def removeStream (t : RemoteFileTransfer) (streamId : ℕ) : RemoteFileTransfer :=
  { t with streams := t.streams.filter (·.1 ≠ streamId) }

/-- `next_remote_file_request`. -/
def nextRequest (t : RemoteFileTransfer) (index position : ℕ) :
    RemoteFileTransfer × FileContentsRequest :=
  let size := (t.files[index]?.map (·.size)).getD 0
  let streamId := t.nextStreamId
  let t' := { t with nextStreamId := max ((streamId + 1) % streamIds) 1 }
  (t'.insertStream streamId ⟨index, position⟩,
    ⟨streamId, index, position, min (size - position) remoteFileChunkSize⟩)

/-- The first requests, of these indexes. -/
def firstRequests : RemoteFileTransfer → List ℕ → RemoteFileTransfer × List FileContentsRequest
  | t, [] => (t, [])
  | t, index :: rest =>
    let (t', request) := t.nextRequest index 0
    let (t'', requests) := firstRequests t' rest
    (t'', request :: requests)

end RemoteFileTransfer

/-- What is staged so far of a list. -/
structure Staged where
  files : List RemoteClipboardFile
  topLevel : List Text
  totalBytes : ℕ

/-- One file of the loop of `build_remote_file_transfer`. -/
def stageFile (s : Staged) (file : ListedFile) : Option Staged := do
  let path ← remoteClipboardSafePath file.name
  let fileSize := file.fileSize.getD 0
  if s.files.any (·.path = path) then none
  else if !file.isDirectory && maxClipboardFileBytes < fileSize then none
  else if maxClipboardTotalBytes < s.totalBytes + fileSize then none
  else if !file.made then none
  else
    some
      { files := s.files ++ [⟨path, fileSize, file.isDirectory⟩]
        topLevel := match remoteTopLevelName file.name with
          | some name => if s.topLevel.contains name then s.topLevel else s.topLevel ++ [name]
          | none => s.topLevel
        totalBytes := s.totalBytes + fileSize }

/-- The indexes of the files that have contents, from an index on. -/
def contentIndexes (index : ℕ) : List RemoteClipboardFile → List ℕ
  | [] => []
  | file :: files =>
    if !file.isDirectory && 0 < file.size then index :: contentIndexes (index + 1) files
    else contentIndexes (index + 1) files

def buildRemoteFileTransfer (list : List ListedFile) :
    Option (RemoteFileTransfer × List FileContentsRequest) :=
  if maxClipboardFileItems < list.length then none
  else do
    let staged ← list.foldlM stageFile ⟨[], [], 0⟩
    let transfer : RemoteFileTransfer :=
      { files := staged.files
        contents := staged.files.map fun _ => []
        topLevel := staged.topLevel
        streams := []
        nextStreamId := 1
        receivedBytes := 0 }
    some (transfer.firstRequests (contentIndexes 0 staged.files))

/-- `write_remote_file_chunk` on the contents of a file. -/
def writeChunk (contents : Bytes) (position : ℕ) (data : Bytes) : Bytes :=
  contents.take position ++ List.replicate (position - contents.length) 0 ++ data ++
    contents.drop (position + data.length)

/-! ## Receiving -/

/-- What a response does to the transfer. -/
inductive Reaction where
  | failed
  | waiting (transfer : RemoteFileTransfer) (requests : List FileContentsRequest)
  | completed (transfer : RemoteFileTransfer)

/-- The data of a response is not that of its stream. -/
def refused (t : RemoteFileTransfer) (file : RemoteClipboardFile) (stream : RemoteFileStream)
    (data : Bytes) : Bool :=
  file.isDirectory || (data.isEmpty && stream.position < file.size) ||
    (remoteFileChunkSize < data.length || file.size - stream.position < data.length) ||
    maxClipboardTotalBytes < t.receivedBytes + data.length

/-- The part of `handle_remote_file_contents_response` with a transfer. `writable` tells whether the chunk
can be written. -/
def receiveChunk (t : RemoteFileTransfer) (streamId : ℕ) (data : Bytes) (writable : Bool) : Reaction :=
  match t.streams.lookup streamId with
  | none => .failed
  | some stream =>
    let t := t.removeStream streamId
    match t.files[stream.index]? with
    | none => .failed
    | some file =>
      if refused t file stream data then .failed
      else if !data.isEmpty && !writable then .failed
      else
        let t : RemoteFileTransfer := if data.isEmpty then t else
          { t with
            contents := t.contents.modify stream.index fun contents =>
              writeChunk contents stream.position data
            receivedBytes := t.receivedBytes + data.length }
        let newPosition := stream.position + data.length
        if newPosition < file.size && !data.isEmpty then
          let (t', request) := t.nextRequest stream.index newPosition
          .waiting t' [request]
        else if t.streams.isEmpty then .completed t
        else .waiting t []

inductive Status where
  | empty | error | ready
deriving DecidableEq

structure Bridge where
  transfer : Option RemoteFileTransfer
  completed : List RemoteFileTransfer

/-- The bridge after a call, the requests it sends, its statuses, and the transfer that is finished. -/
structure Outcome where
  bridge : Bridge
  requests : List FileContentsRequest
  statuses : List Status
  finished : Option RemoteFileTransfer

namespace Bridge

def startRemoteFileReceive (b : Bridge) (list : List ListedFile) : Outcome :=
  match buildRemoteFileTransfer list with
  | none => ⟨b, [], [.error], none⟩
  | some (transfer, requests) =>
    if requests.isEmpty then
      if transfer.topLevel.isEmpty then ⟨b, [], [.empty], none⟩
      else ⟨{ b with completed := [transfer] }, [], [.ready], some transfer⟩
    else ⟨⟨some transfer, []⟩, requests, [], none⟩

def handleRemoteFileContentsResponse (b : Bridge) (streamId : ℕ) (data : Bytes) (writable : Bool) :
    Outcome :=
  match b.transfer with
  | none => ⟨b, [], [.error], none⟩
  | some transfer =>
    match receiveChunk transfer streamId data writable with
    | .failed => ⟨{ b with transfer := none }, [], [.error], none⟩
    | .waiting transfer' requests => ⟨{ b with transfer := some transfer' }, requests, [], none⟩
    | .completed transfer' => ⟨⟨none, b.completed ++ [transfer']⟩, [], [.ready], some transfer'⟩

end Bridge

/-!
# A transfer makes progress

Every file with contents is either complete or has one stream, which is at the end of what is staged.

Reference: `src-tauri/src/rdp/session/clipboard/remote_files.rs` and `remote_receive.rs`.
-/

/-! ## Streams -/

/-- The files in `waiting` wait for their next request. -/
structure Progress (t : RemoteFileTransfer) (waiting : List ℕ) : Prop where
  length : t.contents.length = t.files.length
  items : t.files.length ≤ maxClipboardFileItems
  received : t.receivedBytes ≤ maxClipboardTotalBytes
  next : t.nextStreamId + waiting.length ≤ 1 + t.files.length + t.receivedBytes
  ids : ∀ p ∈ t.streams, p.1 < t.nextStreamId
  idsNodup : (t.streams.map Prod.fst).Nodup
  indexes : (t.streams.map fun p => p.2.index).Nodup
  waitingNodup : waiting.Nodup
  idle : ∀ i ∈ waiting, ∀ p ∈ t.streams, p.2.index ≠ i
  streams : ∀ p ∈ t.streams, ∃ file contents, t.files[p.2.index]? = some file ∧
    t.contents[p.2.index]? = some contents ∧ file.isDirectory = false ∧
    contents.length = p.2.position ∧ p.2.position < file.size
  rest : ∀ i file contents, t.files[i]? = some file → t.contents[i]? = some contents →
    file.isDirectory = false →
      (∃ p ∈ t.streams, p.2.index = i) ∨ i ∈ waiting ∨ contents.length = file.size

variable {stream : RemoteFileStream}

variable {file : RemoteClipboardFile} {streamId : ℕ}

namespace Progress

variable {t : RemoteFileTransfer} {waiting : List ℕ} {index position : ℕ}

theorem filter_next (h : Progress t waiting) : t.streams.filter (·.1 ≠ t.nextStreamId) = t.streams :=
  filter_eq_self.mpr fun p hp => decide_eq_true (Nat.ne_of_lt (h.ids p hp))

/-- The ids do not wrap around: every request but the first ones follows a byte. -/
theorem next_lt (h : Progress t (index :: waiting)) : t.nextStreamId + 1 < streamIds := by
  have hnext := h.next
  have hitems := h.items
  have hreceived := h.received
  unfold maxClipboardFileItems at hitems
  unfold maxClipboardTotalBytes at hreceived
  unfold streamIds
  rw [length_cons] at hnext
  omega

theorem nextRequest_eq (h : Progress t (index :: waiting)) : (t.nextRequest index position).1 = { t with
        streams := (t.nextStreamId, ⟨index, position⟩) :: t.streams
        nextStreamId := t.nextStreamId + 1 } := by
  have hnext : max ((t.nextStreamId + 1) % streamIds) 1 = t.nextStreamId + 1 := by
    rw [Nat.mod_eq_of_lt h.next_lt, Nat.max_eq_left (Nat.le_add_left 1 _)]
  unfold RemoteFileTransfer.nextRequest RemoteFileTransfer.insertStream
  dsimp only
  rw [hnext, h.filter_next]

theorem nextRequest (h : Progress t (index :: waiting)) {contents : Bytes}
    (hfile : t.files[index]? = some file) (hcontents : t.contents[index]? = some contents)
    (hdir : file.isDirectory = false) (hposition : contents.length = position)
    (hlt : position < file.size) : Progress (t.nextRequest index position).1 waiting := by
  rw [h.nextRequest_eq]
  have hnotMem := (nodup_cons.mp h.waitingNodup).1
  refine ⟨h.length, h.items, h.received, ?_, ?_, ?_, ?_, (nodup_cons.mp h.waitingNodup).2, ?_, ?_, ?_⟩
  · have hnext := h.next
    rw [length_cons] at hnext
    show t.nextStreamId + 1 + waiting.length ≤ 1 + t.files.length + t.receivedBytes
    omega
  · refine forall_mem_cons.mpr ⟨Nat.lt_succ_self _, fun p hp => ?_⟩
    exact Nat.lt_succ_of_lt (h.ids p hp)
  · refine nodup_cons.mpr ⟨fun hmem => ?_, h.idsNodup⟩
    obtain ⟨p, hp, heq⟩ := mem_map.mp hmem
    exact Nat.ne_of_lt (h.ids p hp) heq
  · refine nodup_cons.mpr ⟨fun hmem => ?_, h.indexes⟩
    obtain ⟨p, hp, heq⟩ := mem_map.mp hmem
    exact h.idle index mem_cons_self p hp heq
  · intro i hi
    refine forall_mem_cons.mpr ⟨fun heq => hnotMem ((show index = i from heq) ▸ hi), ?_⟩
    exact h.idle i (mem_cons_of_mem _ hi)
  · exact forall_mem_cons.mpr ⟨⟨file, contents, hfile, hcontents, hdir, hposition, hlt⟩, h.streams⟩
  · intro i f c hf hc hd
    rcases h.rest i f c hf hc hd with ⟨p, hp, heq⟩ | hmem | hdone
    · exact .inl ⟨p, mem_cons_of_mem _ hp, heq⟩
    · rcases mem_cons.mp hmem with rfl | hmem
      · exact .inl ⟨_, mem_cons_self, rfl⟩
      · exact .inr (.inl hmem)
    · exact .inr (.inr hdone)

/-- A file that is complete waits for nothing. -/
theorem finish (h : Progress t (index :: waiting)) {file : RemoteClipboardFile} {contents : Bytes}
    (hfile : t.files[index]? = some file) (hcontents : t.contents[index]? = some contents)
    (hdone : contents.length = file.size) : Progress t waiting := by
  refine ⟨h.length, h.items, h.received, ?_, h.ids, h.idsNodup, h.indexes,
    (nodup_cons.mp h.waitingNodup).2, fun i hi => h.idle i (mem_cons_of_mem _ hi), h.streams, ?_⟩
  · have hnext := h.next
    rw [length_cons] at hnext
    omega
  · intro i f c hf hc hd
    refine (h.rest i f c hf hc hd).imp_right fun hwaits => ?_
    rcases hwaits with hmem | hfull
    · rcases mem_cons.mp hmem with rfl | hmem
      · rw [hfile] at hf
        rw [hcontents] at hc
        rw [← Option.some.inj hf, ← Option.some.inj hc]
        exact .inr hdone
      · exact .inl hmem
    · exact .inr hfull

/-- A stream that has got its response: what was staged of its file is longer. -/
theorem receive (h : Progress t [])
    (hstream : (streamId, stream) ∈ t.streams) {data : Bytes} (hdata : data ≠ [])
    (hreceived : t.receivedBytes + data.length ≤ maxClipboardTotalBytes) : Progress
      { t.removeStream streamId with
        contents := t.contents.modify stream.index fun contents =>
          writeChunk contents stream.position data
        receivedBytes := t.receivedBytes + data.length } [stream.index] := by
  have hmem (p : ℕ × RemoteFileStream) (hp : p ∈ (t.removeStream streamId).streams) :
      p ∈ t.streams ∧ p.2.index ≠ stream.index := by
    obtain ⟨hp, hne⟩ := mem_filter.mp hp
    refine ⟨hp, fun heq => of_decide_eq_true hne ?_⟩
    exact congrArg Prod.fst (inj_on_of_nodup_map h.indexes hp hstream heq)
  have hlength : 0 < data.length := length_pos_of_ne_nil hdata
  refine ⟨?_, h.items, hreceived, ?_, fun p hp => h.ids p (hmem p hp).1, ?_, ?_,
    nodup_singleton _, ?_, ?_, ?_⟩
  · show (t.contents.modify _ _).length = _
    rw [length_modify]
    exact h.length
  · have hnext := h.next
    show t.nextStreamId + 1 ≤ 1 + t.files.length + (t.receivedBytes + data.length)
    rw [length_nil] at hnext
    omega
  · exact h.idsNodup.sublist (filter_sublist.map _)
  · exact h.indexes.sublist (filter_sublist.map _)
  · intro i hi p hp
    rw [mem_singleton.mp hi]
    exact (hmem p hp).2
  · intro p hp
    obtain ⟨file, contents, hfile, hcontents, hrest⟩ := h.streams p (hmem p hp).1
    refine ⟨file, contents, hfile, ?_, hrest⟩
    show (t.contents.modify _ _)[p.2.index]? = _
    rw [getElem?_modify_ne _ _ (hmem p hp).2.symm]
    exact hcontents
  · intro i file contents hfile hcontents hdir
    change (t.contents.modify _ _)[i]? = _ at hcontents
    by_cases hi : i = stream.index
    · exact .inr (.inl (mem_singleton.mpr hi))
    · rw [getElem?_modify_ne _ _ (Ne.symm hi)] at hcontents
      rcases h.rest i file contents hfile hcontents hdir with ⟨p, hp, heq⟩ | hnil | hdone
      · refine .inl ⟨p, mem_filter.mpr ⟨hp, decide_eq_true fun hid => hi ?_⟩, heq⟩
        have hsame : p = (streamId, stream) := inj_on_of_nodup_map h.idsNodup hp hstream hid
        rw [← heq, hsame]
      · cases hnil
      · exact .inr (.inr hdone)

end Progress

/-! ## First requests -/

/-- What the first requests do to a transfer. -/
structure Asked (t t' : RemoteFileTransfer) (requests : List FileContentsRequest) : Prop where
  progress : Progress t' []
  files : t'.files = t.files
  contents : t'.contents = t.contents
  old : ∀ p ∈ t.streams, p ∈ t'.streams
  new : ∀ p ∈ t'.streams, p ∈ t.streams ∨ ∃ r ∈ requests, r.streamId = p.1
  matched : ∀ r ∈ requests, (r.streamId, ⟨r.index, r.position⟩) ∈ t'.streams
  next : ∀ r ∈ requests, t.nextStreamId ≤ r.streamId
  apart : requests.Pairwise fun r s => r.streamId ≠ s.streamId

/-- Every file with contents is staged as an empty file. -/
def Empty (t : RemoteFileTransfer) (index : ℕ) : Prop :=
  ∃ file, t.files[index]? = some file ∧ t.contents[index]? = some [] ∧ file.isDirectory = false ∧
    0 < file.size

theorem asked_firstRequests {t : RemoteFileTransfer} {indexes : List ℕ} (h : Progress t indexes)
    (hempty : ∀ i ∈ indexes, Empty t i) :
    Asked t (t.firstRequests indexes).1 (t.firstRequests indexes).2 := by
  induction indexes generalizing t with
  | nil =>
    exact ⟨h, rfl, rfl, fun _ hp => hp, fun _ hp => .inl hp, fun _ hr => absurd hr not_mem_nil,
      fun _ hr => absurd hr not_mem_nil, .nil⟩
  | cons index rest ih =>
    obtain ⟨file, hfile, hcontents, hdir, hsize⟩ := hempty index mem_cons_self
    have hone : Progress (t.nextRequest index 0).1 rest :=
      h.nextRequest hfile hcontents hdir rfl hsize
    have hrest : ∀ i ∈ rest, Empty (t.nextRequest index 0).1 i := by
      intro i hi
      exact hempty i (mem_cons_of_mem _ hi)
    have hasked := ih hone hrest
    have hstreams : (t.nextRequest index 0).1.streams =
        (t.nextStreamId, ⟨index, 0⟩) :: t.streams :=
      congrArg RemoteFileTransfer.streams h.nextRequest_eq
    have hnext : (t.nextRequest index 0).1.nextStreamId = t.nextStreamId + 1 :=
      congrArg RemoteFileTransfer.nextStreamId h.nextRequest_eq
    show Asked t ((t.nextRequest index 0).1.firstRequests rest).1
      ((t.nextRequest index 0).2 :: ((t.nextRequest index 0).1.firstRequests rest).2)
    generalize ((t.nextRequest index 0).1.firstRequests rest).1 = t' at hasked ⊢
    generalize ((t.nextRequest index 0).1.firstRequests rest).2 = requests at hasked ⊢
    refine ⟨hasked.progress, hasked.files, hasked.contents, ?_, ?_, ?_, ?_, ?_⟩
    · intro p hp
      exact hasked.old p (hstreams ▸ mem_cons_of_mem _ hp)
    · intro p hp
      rcases hasked.new p hp with hold | ⟨r, hr, hid⟩
      · rw [hstreams] at hold
        rcases mem_cons.mp hold with rfl | hold
        · exact .inr ⟨_, mem_cons_self, rfl⟩
        · exact .inl hold
      · exact .inr ⟨r, mem_cons_of_mem _ hr, hid⟩
    · refine forall_mem_cons.mpr ⟨hasked.old _ ?_, hasked.matched⟩
      rw [hstreams]
      exact mem_cons_self
    · refine forall_mem_cons.mpr ⟨Nat.le_refl _, fun r hr => ?_⟩
      have hle := hasked.next r hr
      omega
    · refine List.pairwise_cons.mpr ⟨fun r hr => ?_, hasked.apart⟩
      have hle := hasked.next r hr
      show t.nextStreamId ≠ r.streamId
      omega

theorem mem_contentIndexes {files : List RemoteClipboardFile} {start i : ℕ} :
    i ∈ contentIndexes start files ↔ start ≤ i ∧ ∃ file, files[i - start]? = some file ∧
      file.isDirectory = false ∧ 0 < file.size := by
  induction files generalizing start with
  | nil =>
    refine iff_of_false not_mem_nil ?_
    rintro ⟨-, file, hfile, -⟩
    cases hfile
  | cons file files ih =>
    have hlater : i ∈ contentIndexes (start + 1) files ↔ start + 1 ≤ i ∧
        ∃ f, (file :: files)[i - start]? = some f ∧ f.isDirectory = false ∧ 0 < f.size := by
      rw [ih]
      refine and_congr_right fun hle => ?_
      rw [show i - start = i - (start + 1) + 1 by omega, getElem?_cons_succ]
    have hfirst : (∃ f, (file :: files)[start - start]? = some f ∧ f.isDirectory = false ∧ 0 < f.size) ↔
        file.isDirectory = false ∧ 0 < file.size := by
      rw [Nat.sub_self, getElem?_cons_zero]
      constructor
      · rintro ⟨f, hf, hrest⟩
        rw [Option.some.inj hf]
        exact hrest
      · exact fun hrest => ⟨file, rfl, hrest⟩
    have hsplit : start ≤ i ↔ i = start ∨ start + 1 ≤ i := by omega
    have hcons : contentIndexes start (file :: files) =
        if !file.isDirectory && 0 < file.size then start :: contentIndexes (start + 1) files
        else contentIndexes (start + 1) files := rfl
    rw [hsplit, or_and_right, ← hlater, hcons]
    split
    · rename_i hcond
      rw [Bool.and_eq_true, Bool.not_eq_true', decide_eq_true_eq] at hcond
      rw [mem_cons]
      refine or_congr_left (⟨fun heq => ⟨heq, ?_⟩, And.left⟩ : i = start ↔ _)
      rw [heq]
      exact hfirst.mpr hcond
    · rename_i hcond
      rw [Bool.and_eq_true, Bool.not_eq_true', decide_eq_true_eq] at hcond
      refine (or_iff_right fun hhere => hcond ?_).symm
      rw [hhere.1] at hhere
      exact hfirst.mp hhere.2

theorem nodup_contentIndexes (start : ℕ) (files : List RemoteClipboardFile) :
    (contentIndexes start files).Nodup ∧ (contentIndexes start files).length ≤ files.length := by
  induction files generalizing start with
  | nil => exact ⟨.nil, Nat.le_refl 0⟩
  | cons file files ih =>
    unfold contentIndexes
    split
    · refine ⟨nodup_cons.mpr ⟨fun hmem => ?_, (ih (start + 1)).1⟩, Nat.succ_le_succ (ih (start + 1)).2⟩
      exact Nat.not_succ_le_self start (mem_contentIndexes.mp hmem).1
    · exact ⟨(ih (start + 1)).1, Nat.le_succ_of_le (ih (start + 1)).2⟩

/-! ## Staging -/

/-- The files that a list declares are those of the transfer. -/
def Declares (list : List ListedFile) (files : List RemoteClipboardFile) : Prop :=
  files.map (fun file => (file.size, file.isDirectory)) =
    list.map fun file => (file.fileSize.getD 0, file.isDirectory)

theorem stageFile_files {s s' : Staged} {file : ListedFile} (h : stageFile s file = some s') :
    ∃ path, s'.files = s.files ++ [⟨path, file.fileSize.getD 0, file.isDirectory⟩] := by
  unfold stageFile at h
  obtain ⟨path, -, h⟩ := Option.bind_eq_some_iff.mp h
  dsimp only at h
  split at h
  · cases h
  · split at h
    · cases h
    · split at h
      · cases h
      · split at h
        · cases h
        · cases h
          exact ⟨path, rfl⟩

theorem declares_foldlM {list earlier : List ListedFile} {s s' : Staged} (hs : Declares earlier s.files)
    (h : list.foldlM stageFile s = some s') : Declares (earlier ++ list) s'.files := by
  induction list generalizing s earlier with
  | nil =>
    cases h
    rw [append_nil]
    exact hs
  | cons file list ih =>
    rw [foldlM_cons] at h
    obtain ⟨next, hnext, h⟩ := Option.bind_eq_some_iff.mp h
    obtain ⟨path, hfiles⟩ := stageFile_files hnext
    have hlater : Declares (earlier ++ [file]) next.files := by
      unfold Declares
      rw [hfiles, map_append, map_append, show s.files.map _ = _ from hs]
      rfl
    have hall := ih hlater h
    rw [append_assoc] at hall
    exact hall

/-- The transfer of a list, before its first response. -/
structure Started (list : List ListedFile) (t : RemoteFileTransfer)
    (requests : List FileContentsRequest) : Prop where
  progress : Progress t []
  declares : Declares list t.files
  empty : ∀ contents ∈ t.contents, contents = []
  matched : ∀ r ∈ requests, (r.streamId, ⟨r.index, r.position⟩) ∈ t.streams
  apart : requests.Pairwise fun r s => r.streamId ≠ s.streamId
  asked : requests = [] → t.streams = []

theorem started_build {list : List ListedFile} {t : RemoteFileTransfer}
    {requests : List FileContentsRequest} (h : buildRemoteFileTransfer list = some (t, requests)) :
    Started list t requests := by
  unfold buildRemoteFileTransfer at h
  split at h
  · cases h
  rename_i hitems
  obtain ⟨staged, hstaged, h⟩ := Option.bind_eq_some_iff.mp h
  have hdeclares : Declares list staged.files :=
    @declares_foldlM list [] ⟨[], [], 0⟩ staged rfl hstaged
  have hlength : staged.files.length = list.length := by
    have hmap := congrArg List.length hdeclares
    rw [length_map, length_map] at hmap
    exact hmap
  obtain ⟨hnodup, hshort⟩ := nodup_contentIndexes 0 staged.files
  generalize hnew : (⟨staged.files, staged.files.map fun _ => [], staged.topLevel, [], 1, 0⟩ :
    RemoteFileTransfer) = new at h
  have hcontents (i : ℕ) {file : RemoteClipboardFile} (hfile : staged.files[i]? = some file) :
      new.contents[i]? = some [] := by
    rw [← hnew]
    show (staged.files.map fun _ => ([] : Bytes))[i]? = _
    rw [getElem?_map, hfile]
    rfl
  have hwaits {i : ℕ} {file : RemoteClipboardFile} (hfile : staged.files[i]? = some file)
      (hdir : file.isDirectory = false) (hsize : 0 < file.size) : i ∈ contentIndexes 0 staged.files :=
    mem_contentIndexes.mpr ⟨Nat.zero_le i, file, hfile, hdir, hsize⟩
  have hprogress : Progress new (contentIndexes 0 staged.files) := by
    have hstreams (p : ℕ × RemoteFileStream) : p ∉ new.streams := by
      rw [← hnew]
      exact not_mem_nil
    refine ⟨?_, ?_, ?_, ?_, fun p hp => absurd hp (hstreams p), ?_, ?_, hnodup,
      fun _ _ p hp => absurd hp (hstreams p), fun p hp => absurd hp (hstreams p), ?_⟩
    · rw [← hnew]
      exact length_map _
    · rw [← hnew]
      show staged.files.length ≤ _
      rw [hlength]
      exact Nat.le_of_not_lt hitems
    · rw [← hnew]
      exact Nat.zero_le _
    · rw [← hnew]
      show 1 + (contentIndexes 0 staged.files).length ≤ 1 + staged.files.length + 0
      omega
    · rw [← hnew]
      exact .nil
    · rw [← hnew]
      exact .nil
    · intro i file contents hfile hc hdir
      rw [← hnew] at hfile
      rw [hcontents i hfile] at hc
      rw [← Option.some.inj hc]
      rcases Nat.eq_zero_or_pos file.size with hzero | hpos
      · exact .inr (.inr hzero.symm)
      · exact .inr (.inl (hwaits hfile hdir hpos))
  have hasked := asked_firstRequests hprogress fun i hi => by
    obtain ⟨-, file, hfile, hdir, hsize⟩ := mem_contentIndexes.mp hi
    refine ⟨file, ?_, hcontents i hfile, hdir, hsize⟩
    rw [← hnew]
    exact hfile
  rw [show new.firstRequests _ = (t, requests) from Option.some.inj h] at hasked
  refine ⟨hasked.progress, ?_, ?_, hasked.matched, hasked.apart, fun hnil => ?_⟩
  · rw [hasked.files, ← hnew]
    exact hdeclares
  · rw [hasked.contents, ← hnew]
    intro contents hmem
    obtain ⟨-, -, rfl⟩ := mem_map.mp hmem
    rfl
  · refine eq_nil_iff_forall_not_mem.mpr fun p hp => ?_
    rcases hasked.new p hp with hold | ⟨r, hr, -⟩
    · rw [← hnew] at hold
      exact not_mem_nil hold
    · rw [hnil] at hr
      exact not_mem_nil hr

/-! ## Responses -/

/-- The transfer with the data of a response. -/
def RemoteFileTransfer.extended (t : RemoteFileTransfer) (streamId : ℕ) (stream : RemoteFileStream)
    (data : Bytes) : RemoteFileTransfer :=
  { t.removeStream streamId with
    contents := t.contents.modify stream.index fun contents => writeChunk contents stream.position data
    receivedBytes := t.receivedBytes + data.length }

/-- A response fails, or the data is at the end of what is staged of the file. -/
inductive Received (t : RemoteFileTransfer) (streamId : ℕ) (data : Bytes) : Reaction → Prop
  | failed : Received t streamId data .failed
  | next {stream : RemoteFileStream} (member : (streamId, stream) ∈ t.streams) (nonempty : data ≠ [])
      (waits : Progress (t.extended streamId stream data) [stream.index])
      (progress : Progress ((t.extended streamId stream data).nextRequest stream.index
        (stream.position + data.length)).1 []) :
      Received t streamId data (.waiting ((t.extended streamId stream data).nextRequest stream.index
        (stream.position + data.length)).1 [((t.extended streamId stream data).nextRequest stream.index
        (stream.position + data.length)).2])
  | waiting {stream : RemoteFileStream} (member : (streamId, stream) ∈ t.streams) (nonempty : data ≠ [])
      (progress : Progress (t.extended streamId stream data) []) :
      Received t streamId data (.waiting (t.extended streamId stream data) [])
  | completed {stream : RemoteFileStream} (member : (streamId, stream) ∈ t.streams) (nonempty : data ≠ [])
      (progress : Progress (t.extended streamId stream data) [])
      (streams : (t.extended streamId stream data).streams = []) :
      Received t streamId data (.completed (t.extended streamId stream data))

theorem lookup_eq_some_mem {streams : List (ℕ × RemoteFileStream)} {id : ℕ}
    (h : streams.lookup id = some stream) : (id, stream) ∈ streams := by
  obtain ⟨before, after, rfl, -⟩ := List.lookup_eq_some_iff.mp h
  exact mem_append_right _ mem_cons_self

theorem writeChunk_end (contents data : Bytes) :
    writeChunk contents contents.length data = contents ++ data := by
  unfold writeChunk
  rw [take_length, Nat.sub_self, replicate_zero, append_nil,
    drop_eq_nil_of_le (Nat.le_add_right _ _), append_nil]

namespace Progress

variable {t : RemoteFileTransfer}

/-- What a response stages of its file. -/
theorem extended_contents (h : Progress t []) (hstream : (streamId, stream) ∈ t.streams) (data : Bytes) :
    ∃ file contents, t.files[stream.index]? = some file ∧ t.contents[stream.index]? = some contents ∧
      contents.length = stream.position ∧ stream.position < file.size ∧ file.isDirectory = false ∧
      (t.extended streamId stream data).contents[stream.index]? = some (contents ++ data) := by
  obtain ⟨file, contents, hfile, hcontents, hdir, hlength, hlt⟩ := h.streams _ hstream
  refine ⟨file, contents, hfile, hcontents, hlength, hlt, hdir, ?_⟩
  show (t.contents.modify _ _)[stream.index]? = _
  rw [getElem?_modify_eq, hcontents, ← writeChunk_end, hlength]
  rfl

/-- The data of a response that is taken. -/
theorem not_refused (h : Progress t []) (hstream : (streamId, stream) ∈ t.streams)
    (hfile : t.files[stream.index]? = some file) {data : Bytes}
    (hrefused : ¬refused (t.removeStream streamId) file stream data = true) :
    data ≠ [] ∧ stream.position + data.length ≤ file.size ∧
      t.receivedBytes + data.length ≤ maxClipboardTotalBytes := by
  obtain ⟨file', -, hfile', -, -, -, hlt⟩ := h.streams _ hstream
  rw [hfile] at hfile'
  rw [← Option.some.inj hfile'] at hlt
  unfold refused at hrefused
  simp only [Bool.or_eq_true, Bool.and_eq_true, decide_eq_true_eq, List.isEmpty_iff, not_or, not_and,
    Nat.not_lt] at hrefused
  obtain ⟨⟨⟨-, hempty⟩, -, hsize⟩, htotal⟩ := hrefused
  refine ⟨fun hnil => ?_, ?_, htotal⟩
  · exact Nat.not_lt_of_le (hempty hnil) hlt
  · have hposition : stream.position < file.size := hlt
    omega

theorem receiveChunk (h : Progress t []) (streamId : ℕ) (data : Bytes) (writable : Bool) :
    Received t streamId data (receiveChunk t streamId data writable) := by
  unfold RdpClipboard.receiveChunk
  split
  · exact .failed
  rename_i stream hlookup
  have hstream := lookup_eq_some_mem hlookup
  obtain ⟨file, contents, hfile, -, hlength, -, hdir, hextended⟩ := h.extended_contents hstream data
  dsimp only
  rw [show (t.removeStream streamId).files[stream.index]? = some file from hfile]
  dsimp only
  split
  · exact .failed
  rename_i hrefused
  split
  · exact .failed
  obtain ⟨hnonempty, hsize, htotal⟩ := h.not_refused hstream hfile hrefused
  have hwaits : Progress (t.extended streamId stream data) [stream.index] :=
    h.receive hstream hnonempty htotal
  have hstaged : (contents ++ data).length = stream.position + data.length := by
    rw [length_append, hlength]
  rw [isEmpty_eq_false_iff.mpr hnonempty, if_neg Bool.false_ne_true]
  split
  · rename_i hmore
    rw [Bool.not_false, Bool.and_true, decide_eq_true_eq] at hmore
    exact .next hstream hnonempty hwaits (hwaits.nextRequest hfile hextended hdir hstaged hmore)
  · rename_i hmore
    rw [Bool.not_false, Bool.and_true, decide_eq_true_eq] at hmore
    have hdone : Progress (t.extended streamId stream data) [] :=
      hwaits.finish hfile hextended (hstaged.trans (Nat.le_antisymm hsize (Nat.le_of_not_lt hmore)))
    split
    · rename_i hnone
      exact .completed hstream hnonempty hdone (List.isEmpty_iff.mp hnone)
    · exact .waiting hstream hnonempty hdone

end Progress

end Taomni.RdpClipboard
