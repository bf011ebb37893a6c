import Mathlib.Data.List.Perm.Basic
import Taomni.Common.Runs
import Taomni.Rdp.RemoteFiles

/-!
# Whose data the staged files hold

A server announces lists and answers every request once, in any order. The files of a transfer hold their
own data exactly while no response to the request of an earlier list comes in.

Reference: `src-tauri/src/rdp/session/clipboard/remote_files.rs` and `remote_receive.rs`.
-/

namespace Taomni.RdpClipboard

open List

/-! ## Server and bridge -/

/-- A request on the wire, with the number of the list that it was sent for. -/
structure Issued where
  list : ℕ
  request : FileContentsRequest
deriving DecidableEq

structure Answer where
  issued : Issued
  data : Bytes

/-- The bridge with what is on the wire. The transfer under way is that of the list `current`. -/
structure World where
  bridge : Bridge
  lists : List (List ListedFile)
  current : ℕ
  outstanding : List Issued
  answered : List Answer
  finished : List (ℕ × RemoteFileTransfer)

/-- The server announces a list, or answers one of the requests on the wire. -/
inductive Event where
  | announce (list : List ListedFile)
  | respond (place : ℕ) (data : Bytes) (writable : Bool)

namespace World

def initial : World := ⟨⟨none, []⟩, [], 0, [], [], []⟩

/-- A response is never longer than its request. -/
def outcome (w : World) : Event → Outcome
  | .announce list => w.bridge.startRemoteFileReceive list
  | .respond place data writable =>
    match w.outstanding[place]? with
    | none => ⟨w.bridge, [], [], none⟩
    | some issued =>
      w.bridge.handleRemoteFileContentsResponse issued.request.streamId
        (data.take issued.request.requestedSize) writable

def step (w : World) (event : Event) : World :=
  let outcome := w.outcome event
  match event with
  | .announce list =>
    { bridge := outcome.bridge
      lists := w.lists ++ [list]
      current := if outcome.requests.isEmpty then w.current else w.lists.length
      outstanding := w.outstanding ++ outcome.requests.map (⟨w.lists.length, ·⟩)
      answered := w.answered
      finished := w.finished ++ outcome.finished.toList.map (w.lists.length, ·) }
  | .respond place data _ =>
    match w.outstanding[place]? with
    | none => w
    | some issued =>
      { bridge := outcome.bridge
        lists := w.lists
        current := w.current
        outstanding := w.outstanding.eraseIdx place ++ outcome.requests.map (⟨w.current, ·⟩)
        answered := w.answered ++ [⟨issued, data.take issued.request.requestedSize⟩]
        finished := w.finished ++ outcome.finished.toList.map (w.current, ·) }

/-- A response to a request of another list than that of the transfer under way. -/
def Superseded (w : World) : Event → Prop
  | .announce _ => False
  | .respond place _ _ =>
    w.bridge.transfer.isSome ∧ ∃ issued, w.outstanding[place]? = some issued ∧ issued.list ≠ w.current

/-- A response of another list leaves the transfer with the files it had. -/
def Harmless (w : World) (event : Event) : Prop :=
  w.Superseded event → ∃ t t', w.bridge.transfer = some t ∧
    ((w.outcome event).bridge.transfer = some t' ∨ (w.outcome event).finished = some t') ∧
      t'.contents = t.contents

end World

/-- A byte of a file that came in the response to a request for that file. -/
def Answer.Holds (a : Answer) (list index offset : ℕ) (byte : UInt8) : Prop :=
  a.issued.list = list ∧ a.issued.request.index = index ∧ a.issued.request.position ≤ offset ∧
    a.data[offset - a.issued.request.position]? = some byte

/-- Every file of a list is as long as it was declared, and holds its own data. -/
def World.Exact (w : World) (p : ℕ × RemoteFileTransfer) : Prop :=
  ∃ list, w.lists[p.1]? = some list ∧ p.2.contents.length = list.length ∧
    ∀ index file, list[index]? = some file → file.isDirectory = false →
      ∃ contents, p.2.contents[index]? = some contents ∧ contents.length = file.fileSize.getD 0 ∧
        ∀ offset byte, contents[offset]? = some byte →
          ∃ a ∈ w.answered, a.Holds p.1 index offset byte

/-! ## Invariants -/

/-- The transfer of a list makes progress, also when it gets the data of another list. -/
structure Known (w : World) : Prop where
  issued : ∀ o ∈ w.outstanding, o.list < w.lists.length
  progress : ∀ t, w.bridge.transfer = some t →
    Progress t [] ∧ ∃ list, w.lists[w.current]? = some list ∧ Declares list t.files

/-- The requests of a list are for its streams, and its files hold what was answered to it. -/
structure Tracked (number : ℕ) (t : RemoteFileTransfer) (outstanding : List Issued)
    (answered : List Answer) : Prop where
  matched : ∀ o ∈ outstanding, o.list = number →
    (o.request.streamId, ⟨o.request.index, o.request.position⟩) ∈ t.streams
  origin : ∀ index contents, t.contents[index]? = some contents →
    ∀ offset byte, contents[offset]? = some byte → ∃ a ∈ answered, a.Holds number index offset byte

def Apart (o o' : Issued) : Prop := o.list = o'.list → o.request.streamId ≠ o'.request.streamId

structure Safe (w : World) : Prop extends Known w where
  apart : w.outstanding.Pairwise Apart
  tracked : ∀ t, w.bridge.transfer = some t → Tracked w.current t w.outstanding w.answered
  finished : ∀ p ∈ w.finished, w.Exact p

/-! ## Announcements -/

/-- A list is refused, has no contents, or is the one under way from now on. -/
theorem startRemoteFileReceive_cases (b : Bridge) (list : List ListedFile) :
    let outcome := b.startRemoteFileReceive list
    (outcome.requests = [] ∧ outcome.bridge.transfer = b.transfer ∧
        ∀ t, outcome.finished = some t → Started list t []) ∨
      (outcome.requests ≠ [] ∧ outcome.finished = none ∧
        ∃ t, outcome.bridge.transfer = some t ∧ Started list t outcome.requests) := by
  unfold Bridge.startRemoteFileReceive
  split
  · exact .inl ⟨rfl, rfl, nofun⟩
  · rename_i t requests hbuild
    have hstarted := started_build hbuild
    split
    · rename_i hempty
      rw [List.isEmpty_iff.mp hempty] at hstarted
      split
      · exact .inl ⟨rfl, rfl, nofun⟩
      · refine .inl ⟨rfl, rfl, fun t' ht' => ?_⟩
        rw [← Option.some.inj ht']
        exact hstarted
    · rename_i hempty
      exact .inr ⟨fun hnil => hempty (List.isEmpty_iff.mpr hnil), rfl, t, rfl, hstarted⟩

variable {t : RemoteFileTransfer}

variable {list : List ListedFile}

/-- A transfer without streams has all its files. -/
theorem Progress.complete (h : Progress t []) (hstreams : t.streams = [])
    (hdeclares : Declares list t.files) {index : ℕ} {file : ListedFile}
    (hfile : list[index]? = some file) (hdir : file.isDirectory = false) :
    ∃ contents, t.contents[index]? = some contents ∧ contents.length = file.fileSize.getD 0 := by
  have hmap : (t.files.map fun f => (f.size, f.isDirectory))[index]? =
      some (file.fileSize.getD 0, file.isDirectory) := by
    rw [show t.files.map _ = list.map _ from hdeclares, getElem?_map, hfile]
    rfl
  rw [getElem?_map] at hmap
  obtain ⟨remote, hremote, heq⟩ := Option.map_eq_some_iff.mp hmap
  obtain ⟨hsize, hremoteDir⟩ := Prod.mk.inj heq
  have hlt : index < t.contents.length := by
    rw [h.length]
    exact (List.getElem?_eq_some_iff.mp hremote).1
  refine ⟨t.contents[index], getElem?_eq_getElem hlt, ?_⟩
  rcases h.rest index remote _ hremote (getElem?_eq_getElem hlt) (hremoteDir.trans hdir) with
    ⟨p, hp, -⟩ | hnil | hdone
  · rw [hstreams] at hp
    cases hp
  · cases hnil
  · exact hdone.trans hsize

theorem Declares.length {files : List RemoteClipboardFile}
    (h : Declares list files) : files.length = list.length := by
  have hmap := congrArg List.length h
  rw [length_map, length_map] at hmap
  exact hmap

variable {outstanding : List Issued}

variable {w : World} {number : ℕ}

/-- A transfer without streams is exact. -/
theorem Tracked.exact
    (h : Tracked number t outstanding w.answered) (hprogress : Progress t []) (hstreams : t.streams = [])
    (hlist : w.lists[number]? = some list) (hdeclares : Declares list t.files) :
    w.Exact (number, t) := by
  refine ⟨list, hlist, hprogress.length.trans hdeclares.length, fun index file hfile hdir => ?_⟩
  obtain ⟨contents, hcontents, hlength⟩ := hprogress.complete hstreams hdeclares hfile hdir
  exact ⟨contents, hcontents, hlength, h.origin index contents hcontents⟩

theorem World.Exact.mono {w' : World} {p : ℕ × RemoteFileTransfer} (h : w.Exact p)
    (hlists : w.lists <+: w'.lists) (hanswered : w.answered ⊆ w'.answered) : w'.Exact p := by
  obtain ⟨list, hlist, hlength, hfiles⟩ := h
  have hlist' : w'.lists[p.1]? = some list := by
    obtain ⟨later, hlater⟩ := hlists
    rw [← hlater, getElem?_append_left (List.getElem?_eq_some_iff.mp hlist).1]
    exact hlist
  refine ⟨list, hlist', hlength, fun index file hfile hdir => ?_⟩
  obtain ⟨contents, hcontents, hsize, horigin⟩ := hfiles index file hfile hdir
  refine ⟨contents, hcontents, hsize, fun offset byte hbyte => ?_⟩
  obtain ⟨a, ha, hholds⟩ := horigin offset byte hbyte
  exact ⟨a, hanswered ha, hholds⟩

theorem Started.tracked {requests : List FileContentsRequest} (h : Started list t requests)
    (hissued : ∀ o ∈ outstanding, o.list < number) (answered : List Answer) :
    Tracked number t (outstanding ++ requests.map (⟨number, ·⟩)) answered := by
  constructor
  · intro o ho hnumber
    rcases mem_append.mp ho with ho | ho
    · exact absurd hnumber (Nat.ne_of_lt (hissued o ho))
    · obtain ⟨r, hr, rfl⟩ := mem_map.mp ho
      exact h.matched r hr
  · intro index contents hcontents offset byte hbyte
    rw [h.empty contents (mem_of_getElem? hcontents)] at hbyte
    cases hbyte

theorem getElem?_concat_lt {α : Type} {l : List α} {x y : α} {i : ℕ} (h : l[i]? = some x) :
    (l ++ [y])[i]? = some x := by
  rw [getElem?_append_left (List.getElem?_eq_some_iff.mp h).1]
  exact h

/-- An announcement leaves the transfer under way, or its list is the current one. -/
theorem announce_cases (w : World) (list : List ListedFile) : let w' := w.step (.announce list)
    (w'.current = w.current ∧ w'.bridge.transfer = w.bridge.transfer ∧ w'.outstanding = w.outstanding ∧
        ∀ p ∈ w'.finished, p ∈ w.finished ∨ p.1 = w.lists.length ∧ Started list p.2 []) ∨
      (w'.current = w.lists.length ∧ w'.finished = w.finished ∧ ∃ t requests,
        w'.bridge.transfer = some t ∧ Started list t requests ∧
          w'.outstanding = w.outstanding ++ requests.map (⟨w.lists.length, ·⟩)) := by
  rcases startRemoteFileReceive_cases w.bridge list with
    ⟨hnone, hsame, hfinished⟩ | ⟨hsome, hfinished, t, ht, hstarted⟩
  · refine .inl ⟨if_pos (List.isEmpty_iff.mpr hnone), hsame, ?_, fun p hp => ?_⟩
    · show w.outstanding ++ (w.bridge.startRemoteFileReceive list).requests.map _ = _
      rw [hnone, map_nil, append_nil]
    · refine (mem_append.mp hp).imp_right fun hnew => ?_
      obtain ⟨t, ht, rfl⟩ := mem_map.mp hnew
      exact ⟨rfl, hfinished t (Option.mem_toList.mp ht)⟩
  · refine .inr ⟨if_neg fun hempty => hsome (List.isEmpty_iff.mp hempty), ?_, t, _, ht, hstarted, rfl⟩
    show w.finished ++ (w.bridge.startRemoteFileReceive list).finished.toList.map _ = _
    rw [hfinished]
    exact append_nil _

theorem known_announce (h : Known w) (list : List ListedFile) : Known (w.step (.announce list)) := by
  have hlists : (w.step (.announce list)).lists = w.lists ++ [list] := rfl
  have hlength : (w.lists ++ [list]).length = w.lists.length + 1 := length_append
  rcases announce_cases w list with ⟨hcurrent, htransfer, houtstanding, -⟩ |
    ⟨hcurrent, -, t, requests, htransfer, hstarted, houtstanding⟩
  · constructor
    · intro o ho
      rw [houtstanding] at ho
      rw [hlists, hlength]
      exact Nat.lt_succ_of_lt (h.issued o ho)
    · intro t ht
      rw [htransfer] at ht
      obtain ⟨hprogress, l, hl, hdeclares⟩ := h.progress t ht
      refine ⟨hprogress, l, ?_, hdeclares⟩
      rw [hlists, hcurrent]
      exact getElem?_concat_lt hl
  · constructor
    · intro o ho
      rw [houtstanding] at ho
      rw [hlists, hlength]
      rcases mem_append.mp ho with ho | ho
      · exact Nat.lt_succ_of_lt (h.issued o ho)
      · obtain ⟨r, -, rfl⟩ := mem_map.mp ho
        exact Nat.lt_succ_self _
    · intro t' ht'
      rw [htransfer] at ht'
      cases ht'
      refine ⟨hstarted.progress, list, ?_, hstarted.declares⟩
      rw [hlists, hcurrent]
      exact getElem?_concat_length

theorem safe_announce (h : Safe w) (list : List ListedFile) : Safe (w.step (.announce list)) := by
  have hmono {p : ℕ × RemoteFileTransfer} (hp : w.Exact p) : (w.step (.announce list)).Exact p :=
    hp.mono (prefix_append _ _) (List.Subset.refl _)
  rcases announce_cases w list with ⟨hcurrent, htransfer, houtstanding, hfinished⟩ |
    ⟨hcurrent, hfinished, t, requests, htransfer, hstarted, houtstanding⟩
  · refine ⟨known_announce h.toKnown list, ?_, fun t ht => ?_, fun p hp => ?_⟩
    · rw [houtstanding]
      exact h.apart
    · rw [htransfer] at ht
      rw [hcurrent, houtstanding]
      exact h.tracked t ht
    · rcases hfinished p hp with hold | ⟨hnumber, hstarted⟩
      · exact hmono (h.finished p hold)
      · have htracked := hstarted.tracked h.issued (w.step (.announce list)).answered
        have hexact : (w.step (.announce list)).Exact (w.lists.length, p.2) :=
          htracked.exact hstarted.progress (hstarted.asked rfl) getElem?_concat_length
            hstarted.declares
        rw [← hnumber] at hexact
        exact hexact
  · refine ⟨known_announce h.toKnown list, ?_, fun t' ht' => ?_, fun p hp => ?_⟩
    · rw [houtstanding]
      refine pairwise_append.mpr ⟨h.apart, ?_, fun o ho o' ho' hsame => ?_⟩
      · refine pairwise_map.mpr (hstarted.apart.imp ?_)
        intro r r' hne _
        exact hne
      · obtain ⟨r, -, rfl⟩ := mem_map.mp ho'
        exact absurd hsame (Nat.ne_of_lt (h.issued o ho))
    · rw [htransfer] at ht'
      cases ht'
      rw [hcurrent, houtstanding]
      exact hstarted.tracked h.issued w.answered
    · rw [hfinished] at hp
      exact hmono (h.finished p hp)

/-! ## Responses -/

namespace Reaction

def transfer : Reaction → Option RemoteFileTransfer
  | failed => none
  | waiting t _ => some t
  | completed _ => none

def requests : Reaction → List FileContentsRequest
  | failed => []
  | waiting _ requests => requests
  | completed _ => []

def finished : Reaction → Option RemoteFileTransfer
  | failed => none
  | waiting _ _ => none
  | completed t => some t

end Reaction

theorem handle_transfer {b : Bridge} (h : b.transfer = some t) (streamId : ℕ)
    (data : Bytes) (writable : Bool) :
    let outcome := b.handleRemoteFileContentsResponse streamId data writable
    let reaction := receiveChunk t streamId data writable
    outcome.bridge.transfer = reaction.transfer ∧ outcome.requests = reaction.requests ∧
      outcome.finished = reaction.finished := by
  unfold Bridge.handleRemoteFileContentsResponse
  rw [h]
  dsimp only
  cases receiveChunk t streamId data writable with
  | failed => exact ⟨rfl, rfl, rfl⟩
  | waiting t' requests => exact ⟨rfl, rfl, rfl⟩
  | completed t' => exact ⟨rfl, rfl, rfl⟩

/-- What the response to a request leaves. -/
structure Responded (w w' : World) (place : ℕ) (answer : Answer) (transfer : Option RemoteFileTransfer)
    (requests : List FileContentsRequest) (finished : Option RemoteFileTransfer) : Prop where
  lists : w'.lists = w.lists
  current : w'.current = w.current
  answered : w'.answered = w.answered ++ [answer]
  transfer : w'.bridge.transfer = transfer
  outstanding : w'.outstanding = w.outstanding.eraseIdx place ++ requests.map (⟨w.current, ·⟩)
  finished : w'.finished = w.finished ++ finished.toList.map (w.current, ·)

theorem respond_cases (h : Known w) (place : ℕ) (data : Bytes) (writable : Bool) :
    w.step (.respond place data writable) = w ∨
      ∃ answer : Answer, w.outstanding[place]? = some answer.issued ∧ ((w.bridge.transfer = none ∧
            Responded w (w.step (.respond place data writable)) place answer none [] none) ∨
          ∃ t reaction, w.bridge.transfer = some t ∧
            Received t answer.issued.request.streamId answer.data reaction ∧
            Responded w (w.step (.respond place data writable)) place answer reaction.transfer
              reaction.requests reaction.finished) := by
  cases hplace : w.outstanding[place]? with
  | none =>
    refine .inl ?_
    unfold World.step
    dsimp only
    rw [hplace]
  | some issued =>
    refine .inr ⟨⟨issued, data.take issued.request.requestedSize⟩, rfl, ?_⟩
    unfold World.step World.outcome
    dsimp only
    rw [hplace]
    dsimp only
    cases htransfer : w.bridge.transfer with
    | none =>
      refine .inl ⟨rfl, ?_⟩
      unfold Bridge.handleRemoteFileContentsResponse
      rw [htransfer]
      exact ⟨rfl, rfl, rfl, htransfer, rfl, rfl⟩
    | some t =>
      obtain ⟨hnext, hrequests, hfinished⟩ := handle_transfer htransfer issued.request.streamId
        (data.take issued.request.requestedSize) writable
      refine .inr ⟨t, _, rfl, (h.progress t htransfer).1.receiveChunk _ _ writable, ?_⟩
      exact ⟨rfl, rfl, rfl, hnext, by rw [hrequests], by rw [hfinished]⟩

variable {data : Bytes}

theorem Received.progress {t t' : RemoteFileTransfer} {streamId : ℕ} {reaction : Reaction}
    (h : Received t streamId data reaction)
    (ht' : reaction.transfer = some t' ∨ reaction.finished = some t') :
    Progress t' [] ∧ t'.files = t.files := by
  cases h with
  | failed => rcases ht' with ht' | ht' <;> cases ht'
  | next _ _ hwaits hprogress =>
    rcases ht' with ht' | ht'
    · cases ht'
      exact ⟨hprogress, rfl⟩
    · cases ht'
  | waiting _ _ hprogress =>
    rcases ht' with ht' | ht'
    · cases ht'
      exact ⟨hprogress, rfl⟩
    · cases ht'
  | completed _ _ hprogress _ =>
    rcases ht' with ht' | ht'
    · cases ht'
    · cases ht'
      exact ⟨hprogress, rfl⟩

theorem known_respond (h : Known w) (place : ℕ) (data : Bytes) (writable : Bool) :
    Known (w.step (.respond place data writable)) := by
  rcases respond_cases h place data writable with
    hsame | ⟨answer, hplace, ⟨-, hresponded⟩ | ⟨t, reaction, ht, hreceived, hresponded⟩⟩
  · rw [hsame]
    exact h
  · constructor
    · rw [hresponded.outstanding, hresponded.lists, map_nil, append_nil]
      exact fun o ho => h.issued o (mem_of_mem_eraseIdx ho)
    · rw [hresponded.transfer]
      exact nofun
  · obtain ⟨-, list, hlist, hdeclares⟩ := h.progress t ht
    constructor
    · rw [hresponded.outstanding, hresponded.lists]
      intro o ho
      rcases mem_append.mp ho with ho | ho
      · exact h.issued o (mem_of_mem_eraseIdx ho)
      · obtain ⟨r, -, rfl⟩ := mem_map.mp ho
        exact (List.getElem?_eq_some_iff.mp hlist).1
    · rw [hresponded.transfer, hresponded.lists, hresponded.current]
      intro t' ht'
      obtain ⟨hprogress, hfiles⟩ := hreceived.progress (.inl ht')
      refine ⟨hprogress, list, hlist, ?_⟩
      rw [hfiles]
      exact hdeclares

/-- The data of a response changes the file of its stream, also when it is not its own. -/
theorem extended_contents_ne (h : Progress t []) {streamId : ℕ}
    {stream : RemoteFileStream} (hstream : (streamId, stream) ∈ t.streams)
    (hdata : data ≠ []) : (t.extended streamId stream data).contents ≠ t.contents := by
  obtain ⟨file, contents, -, hcontents, -, -, -, hextended⟩ := h.extended_contents hstream data
  intro heq
  rw [heq, hcontents] at hextended
  exact hdata (self_eq_append_right.mp (Option.some.inj hextended))

theorem Received.contents_ne {t t' : RemoteFileTransfer} {streamId : ℕ}
    {reaction : Reaction} (h : Received t streamId data reaction) (hprogress : Progress t [])
    (ht' : reaction.transfer = some t' ∨ reaction.finished = some t') : t'.contents ≠ t.contents := by
  cases h with
  | failed => rcases ht' with ht' | ht' <;> cases ht'
  | next hstream hdata _ _ =>
    rcases ht' with ht' | ht'
    · cases ht'
      exact extended_contents_ne hprogress hstream hdata
    · cases ht'
  | waiting hstream hdata _ =>
    rcases ht' with ht' | ht'
    · cases ht'
      exact extended_contents_ne hprogress hstream hdata
    · cases ht'
  | completed hstream hdata _ _ =>
    rcases ht' with ht' | ht'
    · cases ht'
    · cases ht'
      exact extended_contents_ne hprogress hstream hdata

/-- There is no harmless response of another list. -/
theorem not_superseded (h : Known w) {event : Event} (hharmless : w.Harmless event) :
    ¬w.Superseded event := by
  intro hsuperseded
  obtain ⟨t, t', ht, ht', hsame⟩ := hharmless hsuperseded
  cases event with
  | announce list => exact hsuperseded
  | respond place data writable =>
    obtain ⟨-, issued, hplace, -⟩ := hsuperseded
    have hprogress := (h.progress t ht).1
    have houtcome := handle_transfer ht issued.request.streamId (data.take issued.request.requestedSize)
      writable
    unfold World.outcome at ht'
    dsimp only at ht'
    rw [hplace] at ht'
    dsimp only at ht'
    rw [houtcome.1, houtcome.2.2] at ht'
    exact (hprogress.receiveChunk _ _ writable).contents_ne hprogress ht' hsame

variable {answered : List Answer}

theorem Tracked.extended (h : Tracked number t outstanding answered) (hprogress : Progress t [])
    (hapart : outstanding.Pairwise Apart) {place : ℕ} {a : Answer}
    (hplace : outstanding[place]? = some a.issued) (hnumber : a.issued.list = number)
    {stream : RemoteFileStream} (hstream : (a.issued.request.streamId, stream) ∈ t.streams) :
    Tracked number (t.extended a.issued.request.streamId stream a.data) (outstanding.eraseIdx place)
      (answered ++ [a]) := by
  obtain ⟨hlt, hget⟩ := List.getElem?_eq_some_iff.mp hplace
  have hown : stream = ⟨a.issued.request.index, a.issued.request.position⟩ :=
    congrArg Prod.snd (inj_on_of_nodup_map hprogress.idsNodup hstream
      (h.matched _ (hget ▸ getElem_mem hlt) hnumber) rfl)
  obtain ⟨file, contents, -, hcontents, hlength, -, -, hextended⟩ :=
    hprogress.extended_contents hstream a.data
  constructor
  · intro o ho hlist
    refine mem_filter.mpr ⟨h.matched o (mem_of_mem_eraseIdx ho) hlist, decide_eq_true ?_⟩
    have hperm := getElem_cons_eraseIdx_perm hlt
    have hall := (hperm.pairwise_iff fun hne heq => (hne heq.symm).symm).mpr hapart
    have hne := (List.pairwise_cons.mp hall).1 o ho
    rw [hget] at hne
    exact (hne (hnumber.trans hlist.symm)).symm
  · intro index c hc offset byte hbyte
    by_cases hindex : index = stream.index
    · rw [hindex, hextended] at hc
      rw [← Option.some.inj hc] at hbyte
      rcases Nat.lt_or_ge offset contents.length with hbefore | hafter
      · rw [getElem?_append_left hbefore] at hbyte
        obtain ⟨b, hb, hholds⟩ := h.origin stream.index contents hcontents offset byte hbyte
        rw [hindex]
        exact ⟨b, mem_append_left _ hb, hholds⟩
      · rw [getElem?_append_right hafter, hlength] at hbyte
        rw [hlength] at hafter
        rw [hown] at hafter hbyte
        refine ⟨a, mem_append_right _ mem_cons_self, hnumber, ?_, hafter, hbyte⟩
        rw [hindex, hown]
    · change (t.contents.modify _ _)[index]? = _ at hc
      rw [getElem?_modify_ne _ _ (Ne.symm hindex)] at hc
      obtain ⟨b, hb, hholds⟩ := h.origin index c hc offset byte hbyte
      exact ⟨b, mem_append_left _ hb, hholds⟩

theorem Tracked.nextRequest (h : Tracked number t outstanding answered) {index position : ℕ}
    (hwaits : Progress t [index]) : Tracked number (t.nextRequest index position).1
      (outstanding ++ [⟨number, (t.nextRequest index position).2⟩]) answered := by
  have heq := @Progress.nextRequest_eq t [] index position hwaits
  constructor
  · intro o ho hnumber
    rw [heq]
    rcases mem_append.mp ho with ho | ho
    · exact mem_cons_of_mem _ (h.matched o ho hnumber)
    · rw [mem_singleton.mp ho]
      exact mem_cons_self
  · rw [heq]
    exact h.origin

/-- A new request has an id that is on no stream. -/
theorem apart_nextRequest (h : Tracked number t outstanding answered) {index position : ℕ}
    (hwaits : Progress t [index]) (hapart : outstanding.Pairwise Apart) :
    List.Pairwise Apart (outstanding ++ [⟨number, (t.nextRequest index position).2⟩]) := by
  refine pairwise_append.mpr ⟨hapart, pairwise_singleton _ _, fun o ho o' ho' hsame => ?_⟩
  rw [mem_singleton.mp ho'] at hsame ⊢
  exact Nat.ne_of_lt (hwaits.ids _ (h.matched o ho hsame))

theorem Responded.safe {w' : World} {place : ℕ} {answer : Answer}
    {transfer finished : Option RemoteFileTransfer} {requests : List FileContentsRequest}
    (hresponded : Responded w w' place answer transfer requests finished) (h : Safe w) (hknown : Known w')
    (hapart : List.Pairwise Apart (w.outstanding.eraseIdx place ++ requests.map (⟨w.current, ·⟩)))
    (htracked : ∀ t, transfer = some t → Tracked w.current t
      (w.outstanding.eraseIdx place ++ requests.map (⟨w.current, ·⟩)) (w.answered ++ [answer]))
    (hfinished : ∀ t, finished = some t → w'.Exact (w.current, t)) : Safe w' := by
  refine ⟨hknown, ?_, ?_, fun p hp => ?_⟩
  · rw [hresponded.outstanding]
    exact hapart
  · rw [hresponded.transfer, hresponded.current, hresponded.outstanding, hresponded.answered]
    exact htracked
  · rw [hresponded.finished] at hp
    rcases mem_append.mp hp with hold | hnew
    · refine (h.finished p hold).mono (hresponded.lists ▸ prefix_refl _) ?_
      rw [hresponded.answered]
      exact subset_append_left _ _
    · obtain ⟨t, ht, rfl⟩ := mem_map.mp hnew
      exact hfinished t (Option.mem_toList.mp ht)

theorem safe_respond (h : Safe w) {place : ℕ} {writable : Bool}
    (hcurrent : ¬w.Superseded (.respond place data writable)) :
    Safe (w.step (.respond place data writable)) := by
  have hknown := known_respond h.toKnown place data writable
  have herased : (w.outstanding.eraseIdx place).Pairwise Apart :=
    h.apart.sublist (eraseIdx_sublist _ _)
  rcases respond_cases h.toKnown place data writable with
    hsame | ⟨answer, hplace, ⟨-, hresponded⟩ | ⟨t, reaction, ht, hreceived, hresponded⟩⟩
  · rw [hsame]
    exact h
  · refine hresponded.safe h hknown ?_ nofun nofun
    rw [map_nil, append_nil]
    exact herased
  · obtain ⟨hprogress, list, hlist, hdeclares⟩ := h.progress t ht
    have hnumber : answer.issued.list = w.current := by
      by_contra hne
      exact hcurrent ⟨Option.isSome_iff_exists.mpr ⟨t, ht⟩, _, hplace, hne⟩
    have hextended {stream : RemoteFileStream}
        (hstream : (answer.issued.request.streamId, stream) ∈ t.streams) :=
      (h.tracked t ht).extended hprogress h.apart hplace hnumber hstream
    have hnone : List.Pairwise Apart
        (w.outstanding.eraseIdx place ++ ([] : List FileContentsRequest).map (⟨w.current, ·⟩)) := by
      rw [map_nil, append_nil]
      exact herased
    cases hreceived with
    | failed => exact hresponded.safe h hknown hnone nofun nofun
    | next hstream _ hwaits _ =>
      refine hresponded.safe h hknown (apart_nextRequest (hextended hstream) hwaits herased) ?_ nofun
      intro t' ht'
      rw [← Option.some.inj ht']
      exact (hextended hstream).nextRequest hwaits
    | waiting hstream _ _ =>
      refine hresponded.safe h hknown hnone (fun t' ht' => ?_) nofun
      rw [← Option.some.inj ht', Reaction.requests, map_nil, append_nil]
      exact hextended hstream
    | completed hstream _ hdone hstreams =>
      refine hresponded.safe h hknown hnone nofun fun t' ht' => ?_
      rw [← Option.some.inj ht']
      have htracked := hextended hstream
      rw [← hresponded.answered] at htracked
      exact htracked.exact hdone hstreams (hresponded.lists ▸ hlist) hdeclares

/-! ## Runs -/

theorem known_step (w : World) (event : Event) (h : Known w) : Known (w.step event) := by
  cases event with
  | announce list => exact known_announce h list
  | respond place data writable => exact known_respond h place data writable

theorem safe_step (w : World) (event : Event) (h : Safe w) (hcurrent : ¬w.Superseded event) :
    Safe (w.step event) := by
  cases event with
  | announce list => exact safe_announce h list
  | respond place data writable => exact safe_respond h hcurrent

theorem safe_initial : Safe World.initial :=
  ⟨⟨fun _ ho => absurd ho not_mem_nil, nofun⟩, .nil, nofun, fun _ hp => absurd hp not_mem_nil⟩

/-- The files of every list hold their own data, and no response of another list does harm, exactly when
no such response comes in while a transfer is under way. -/
theorem assembled_iff (events : List Event) :
    (Throughout World.step World.Harmless World.initial events ∧
        Always World.step (fun w => ∀ p ∈ w.finished, w.Exact p) World.initial events) ↔
      Throughout World.step (fun w event => ¬w.Superseded event) World.initial events := by
  constructor
  · rintro ⟨hharmless, -⟩ before event after heq
    have hknown := always_of_step known_step safe_initial.toKnown events
    exact not_superseded (hknown before (event :: after) heq) (hharmless before event after heq)
  · intro hcurrent
    refine ⟨hcurrent.mono fun w event hnot hsuperseded => absurd hsuperseded hnot, ?_⟩
    have hsafe := hcurrent.always safe_step safe_initial
    exact fun before after heq => (hsafe before after heq).finished

/-- A file of two bytes. -/
def pair (name : Text) : ListedFile := ⟨name, false, some 2, true⟩

/-- Two lists of one file are announced, and the response to the request of the first one comes in. It
completes the second one. -/
def mixedIn : World :=
  runFrom World.step World.initial
    [.announce [pair ['a']], .announce [pair ['b']], .respond 0 [1, 1] true]

theorem mixedIn_holds_earlier : ∃ p ∈ mixedIn.finished, p.1 = 1 ∧ ¬mixedIn.Exact p := by
  have hfinished : mixedIn.finished.map (fun p => (p.1, p.2.contents)) = [(1, [[1, 1]])] := by
    decide
  have hanswered : mixedIn.answered.map (·.issued.list) = [0] := by decide
  have hlist : (mixedIn.lists[1]?.map fun list => list.map (·.isDirectory)) = some [false] := by
    decide
  have hmem : (1, [[1, 1]]) ∈ mixedIn.finished.map fun p => (p.1, p.2.contents) := by
    rw [hfinished]
    exact mem_cons_self
  obtain ⟨p, hp, heq⟩ := mem_map.mp hmem
  obtain ⟨hnumber, hcontents⟩ := Prod.mk.inj heq
  refine ⟨p, hp, hnumber, ?_⟩
  rintro ⟨list, hp1, -, hfiles⟩
  rw [hnumber] at hp1 hfiles
  rw [hp1] at hlist
  obtain ⟨file, rfl, hdir⟩ := List.map_eq_singleton_iff.mp (Option.some.inj hlist)
  obtain ⟨contents, hc, -, horigin⟩ := hfiles 0 file rfl hdir
  rw [hcontents] at hc
  rw [← Option.some.inj hc] at horigin
  obtain ⟨a, ha, hholds, -⟩ := horigin 0 1 rfl
  have hzero : a.issued.list ∈ mixedIn.answered.map (·.issued.list) := mem_map_of_mem ha
  rw [hanswered, hholds] at hzero
  cases mem_singleton.mp hzero

end Taomni.RdpClipboard
