import Taomni.Swarm.Download

/-!
# Runs of a download

Only bytes of the original are written, each at its own place. Whatever the calls do and in whatever
order their steps come, the temp file agrees with the original wherever it was written, so also on the
pieces that are held (`Intact`); a step loses no agreement (`Progress`).
-/

namespace Taomni.Swarm

open List

/-! ## Bitfields -/

namespace Bitfield

theorem get_empty (n i : ℕ) : (empty n).get i = false := by
  rw [get, empty, getElem?_replicate]
  split <;> rfl

theorem get_set (b : Bitfield) (i j : ℕ) (h : (b.set i).get j = true) : j = i ∨ b.get j = true := by
  rw [get, set] at h
  by_cases hij : i = j
  · exact .inl hij.symm
  · rw [getElem?_set_ne hij] at h
    exact .inr h

theorem get_set_of_get {b : Bitfield} {j : ℕ} (i : ℕ) (h : b.get j = true) : (b.set i).get j = true := by
  rw [get, set, getElem?_set]
  split
  · split
    · rfl
    · next hij hlt =>
      subst hij
      rw [get, getElem?_eq_none (Nat.not_lt.mp hlt)] at h
      exact h
  · exact h

theorem length_set (b : Bitfield) (i : ℕ) : (b.set i).bits.length = b.bits.length :=
  List.length_set

/-- All pieces are held, and there is one. -/
theorem isComplete_iff (b : Bitfield) :
    b.isComplete = true ↔ b.bits ≠ [] ∧ ∀ i < b.bits.length, b.get i = true := by
  rw [isComplete, Bool.and_eq_true, Bool.not_eq_true', isEmpty_eq_false_iff, all_eq_true]
  refine and_congr_right fun _ => ⟨fun h i hi => ?_, fun h bit hbit => ?_⟩
  · rw [get, getElem?_eq_getElem hi]
    exact h _ (getElem_mem hi)
  · obtain ⟨i, hi, rfl⟩ := getElem_of_mem hbit
    have hget := h i hi
    rw [get, getElem?_eq_getElem hi] at hget
    exact hget

theorem isComplete_set {b : Bitfield} (i : ℕ) (h : b.isComplete = true) :
    (b.set i).isComplete = true := by
  rw [isComplete_iff] at h ⊢
  obtain ⟨hne, hall⟩ := h
  refine ⟨?_, fun j hj => get_set_of_get i (hall j (length_set b i ▸ hj))⟩
  intro hempty
  have hlength := length_set b i
  rw [hempty] at hlength
  exact hne (eq_nil_of_length_eq_zero hlength.symm)

end Bitfield

/-! ## The invariant -/

/-- The temp file has the bytes of a piece. -/
def State.Correct (s : State) (bytes : Bytes) (i : ℕ) : Prop :=
  AgreeOn s.temp bytes (i * s.swarm.manifest.pieceSize) (s.swarm.manifest.pieceEnd i)

/-- Data that is the piece it is sent for. -/
def Call.Verified (call : Call) (m : Manifest) (bytes : Bytes) : Prop :=
  call.data = m.piece bytes call.idx

/-- What is known of a call in its phase. -/
def Call.Sound (call : Call) (bytes : Bytes) (s : State) : Prop :=
  match call.phase with
  | .handle => call.Verified s.swarm.manifest bytes
  | .write _ done => call.Verified s.swarm.manifest bytes ∧ done ≤ call.data.length ∧
      AgreeOn s.temp bytes (call.idx * s.swarm.manifest.pieceSize)
        (call.idx * s.swarm.manifest.pieceSize + done)
  | .mark => s.Correct bytes call.idx
  | .finalize | .close | .rename | .reopen | .release => s.swarm.held.isComplete = true
  | _ => True

/-- A part of the original has the hash of no other data that a call brings. -/
def Call.Genuine (call : Call) (sha256 : Bytes → String) (bytes : Bytes) : Prop :=
  ∀ p q, sha256 call.data = sha256 (slice bytes p q) → call.data = slice bytes p q

structure Intact (sha256 : Bytes → String) (bytes : Bytes) (s : State) : Prop where
  describes : s.swarm.manifest.Describes sha256 bytes
  length : s.temp.length = bytes.length
  bits : s.swarm.held.bits.length = s.swarm.manifest.pieceCount
  held : ∀ i, s.swarm.held.get i = true → s.Correct bytes i
  renamed : s.renamed = true → s.swarm.held.isComplete = true
  genuine : ∀ call ∈ s.calls, call.Genuine sha256 bytes
  sound : ∀ call ∈ s.calls, call.Sound bytes s

/-- What a step leaves as it is, or does not lose. -/
structure Progress (bytes : Bytes) (s s' : State) : Prop where
  manifest : s'.swarm.manifest = s.swarm.manifest
  length : s'.temp.length = s.temp.length
  agree : ∀ p q, AgreeOn s.temp bytes p q → AgreeOn s'.temp bytes p q
  bits : s'.swarm.held.bits.length = s.swarm.held.bits.length
  complete : s.swarm.held.isComplete = true → s'.swarm.held.isComplete = true

namespace Progress

variable {bytes : Bytes} {s s' : State}

theorem correct (h : Progress bytes s s') {i : ℕ} (hi : s.Correct bytes i) : s'.Correct bytes i := by
  rw [State.Correct, h.manifest]
  exact h.agree _ _ hi

/-- What is known of a call stays known while others go on. -/
theorem sound (h : Progress bytes s s') {call : Call} (hcall : call.Sound bytes s) :
    call.Sound bytes s' := by
  rw [Call.Sound] at hcall ⊢
  cases hphase : call.phase <;> rw [hphase] at hcall <;>
    simp only [h.manifest] at hcall ⊢
  case handle => exact hcall
  case write handle done => exact ⟨hcall.1, hcall.2.1, h.agree _ _ hcall.2.2⟩
  case mark => exact h.correct hcall
  all_goals exact h.complete hcall

/-- A step that touches neither the file nor what is held. -/
theorem of_eq (hmanifest : s'.swarm.manifest = s.swarm.manifest) (htemp : s'.temp = s.temp)
    (hheld : s'.swarm.held = s.swarm.held) : Progress bytes s s' where
  manifest := hmanifest
  length := congrArg List.length htemp
  agree := fun _ _ h => htemp ▸ h
  bits := congrArg (·.bits.length) hheld
  complete := fun h => hheld ▸ h

end Progress

/-! ## One step of a call -/

/-- What a step of a call does, and what is known of the call after it. -/
structure Advanced (bytes : Bytes) (s : State) (call : Call) (s' : State) (phase : Phase) : Prop where
  progress : Progress bytes s s'
  held : ∀ i, s'.swarm.held.get i = true → s'.Correct bytes i
  renamed : s'.renamed = true → s.swarm.held.isComplete = true
  sound : { call with phase := phase }.Sound bytes s'

section

variable {sha256 : Bytes → String} {bytes : Bytes} {s : State} {call : Call}

theorem Advanced.of_eq {s' : State} {phase : Phase} (h : Intact sha256 bytes s)
    (hmanifest : s'.swarm.manifest = s.swarm.manifest) (htemp : s'.temp = s.temp)
    (hheld : s'.swarm.held = s.swarm.held)
    (hrenamed : s'.renamed = true → s.swarm.held.isComplete = true)
    (hsound : { call with phase := phase }.Sound bytes s) : Advanced bytes s call s' phase := by
  have hprogress : Progress bytes s s' := Progress.of_eq hmanifest htemp hheld
  exact ⟨hprogress, fun i hi => hprogress.correct (h.held i (hheld ▸ hi)), hrenamed,
    hprogress.sound hsound⟩

/-- A call goes on and changes nothing. -/
theorem Advanced.same {phase : Phase} (h : Intact sha256 bytes s)
    (hsound : { call with phase := phase }.Sound bytes s) : Advanced bytes s call s phase :=
  .of_eq h rfl rfl rfl h.renamed hsound

/-- The hash of the data is that of the piece. -/
theorem verified_of_hash (h : Intact sha256 bytes s) (hcall : call ∈ s.calls)
    (hhash : s.swarm.manifest.pieces[call.idx]? = some (sha256 call.data)) :
    call.Verified s.swarm.manifest bytes :=
  h.genuine call hcall _ _ (h.describes.hashes _ _ hhash)

/-- What is written of a piece is what the original has there. -/
theorem advanced_write (h : Intact sha256 bytes s) {f : Handle} {done n : ℕ}
    (hverified : call.Verified s.swarm.manifest bytes) (hlt : done < call.data.length)
    (hagree : AgreeOn s.temp bytes (call.idx * s.swarm.manifest.pieceSize)
      (call.idx * s.swarm.manifest.pieceSize + done)) : let off := call.idx * s.swarm.manifest.pieceSize
    let written := (call.data.drop done).take (n + 1)
    Advanced bytes s call { s with temp := writeAt 0 s.temp (off + done) written }
      (.write f (done + written.length)) := by
  intro off written
  have hbegins : written <+: bytes.drop (off + done) := by
    refine (List.take_prefix _ _).trans ?_
    rw [hverified, Manifest.piece, slice, drop_take, drop_drop]
    exact take_prefix _ _
  have hslice := eq_slice_of_prefix hbegins
  have hlength : written.length = min (n + 1) (call.data.length - done) := by
    rw [length_take, length_drop]
  have hend : off + done + written.length ≤ bytes.length := by
    have hle := hbegins.length_le
    rw [length_drop] at hle
    omega
  have htemp : off + done + written.length ≤ s.temp.length := h.length ▸ hend
  have hprogress : Progress bytes s { s with temp := writeAt 0 s.temp (off + done) written } := by
    refine ⟨rfl, length_writeAt 0 htemp, fun p q hpq => ?_, rfl, id⟩
    have hkept := hpq.writeAt 0 htemp hend (Nat.le_add_right _ _)
    rwa [← hslice] at hkept
  refine ⟨hprogress, fun i hi => hprogress.correct (h.held i hi), h.renamed, hverified, ?_, ?_⟩
  · change done + written.length ≤ call.data.length
    omega
  · have hnew := AgreeOn.writeAt_slice 0 htemp hend (Nat.le_add_right _ _)
    rw [← hslice, Nat.add_assoc] at hnew
    exact (hprogress.agree _ _ hagree).append hnew

/-- Data that is written to its end makes its piece. -/
theorem correct_of_written (h : Intact sha256 bytes s) {done : ℕ}
    (hverified : call.Verified s.swarm.manifest bytes) (hdone : call.data.length ≤ done)
    (hle : done ≤ call.data.length)
    (hagree : AgreeOn s.temp bytes (call.idx * s.swarm.manifest.pieceSize)
      (call.idx * s.swarm.manifest.pieceSize + done)) : s.Correct bytes call.idx := by
  have hlength : done = s.swarm.manifest.pieceLen call.idx := by
    rw [Nat.le_antisymm hle hdone, hverified, Manifest.length_piece h.describes.size]
  rwa [hlength] at hagree

/-- The piece that is marked is there. -/
theorem advanced_mark (h : Intact sha256 bytes s) (inflight : List UInt32)
    (hcorrect : s.Correct bytes call.idx) : Advanced bytes s call
      { s with swarm := { s.swarm with held := s.swarm.held.set call.idx, inflight := inflight } }
      .whole := by
  refine ⟨⟨rfl, rfl, fun p q => id, Bitfield.length_set _ _, Bitfield.isComplete_set _⟩,
    fun i hi => ?_, h.renamed, trivial⟩
  rcases Bitfield.get_set _ _ _ hi with rfl | hi
  · exact hcorrect
  · exact h.held i hi

theorem advanced_advance (h : Intact sha256 bytes s) (hcall : call ∈ s.calls) (io : Io) :
    Advanced bytes s call (advance sha256 s call io).1 (advance sha256 s call io).2 := by
  have hsound := h.sound call hcall
  rw [Call.Sound] at hsound
  unfold advance
  cases hphase : call.phase <;> rw [hphase] at hsound <;> simp only at hsound ⊢
  case lookup => split <;> exact .same h trivial
  case duplicate => split <;> exact .same h trivial
  case verify =>
    split
    · exact .of_eq h rfl rfl rfl h.renamed trivial
    · next hhash =>
      have hverified := verified_of_hash h hcall (not_not.mp hhash)
      exact .same h hverified
  case handle =>
    split
    · exact .same h trivial
    · exact .same h ⟨hsound, Nat.zero_le _, AgreeOn.empty _ _ _⟩
  case write handle done =>
    obtain ⟨hverified, hle, hagree⟩ := hsound
    split
    · next hdone => exact .same h (correct_of_written h hverified hdone hle hagree)
    · next hlt =>
      split
      · exact advanced_write h hverified (Nat.not_le.mp hlt) hagree
      · exact .same h trivial
  case mark => exact advanced_mark h _ hsound
  case whole =>
    split
    · next hcomplete => exact .same h hcomplete
    · exact .same h trivial
  case finalize =>
    split
    · exact .same h trivial
    · exact .of_eq h rfl rfl rfl h.renamed hsound
  case close => exact .of_eq h rfl rfl rfl h.renamed hsound
  case rename =>
    split
    · split
      · exact .of_eq h rfl rfl rfl (fun _ => hsound) hsound
      · exact .of_eq h rfl rfl rfl (fun _ => hsound) hsound
    · exact .same h hsound
  case reopen =>
    split
    · exact .of_eq h rfl rfl rfl h.renamed trivial
    · exact .same h trivial
  case release => exact .of_eq h rfl rfl rfl h.renamed trivial
  case returned => exact .same h trivial

/-! ## Steps and runs -/

/-- The data that an event brings. -/
def Event.Genuine (sha256 : Bytes → String) (bytes : Bytes) : Event → Prop
  | handlePiece piece data => (⟨piece, data, .lookup⟩ : Call).Genuine sha256 bytes
  | _ => True

theorem progress_step (h : Intact sha256 bytes s) (event : Event) :
    Progress bytes s (step sha256 s event) := by
  rw [step.eq_def]
  cases event with
  | handlePiece piece data => exact .of_eq rfl rfl rfl
  | schedule inflight => exact .of_eq rfl rfl rfl
  | advance k io =>
    simp only
    split
    · exact .of_eq rfl rfl rfl
    · next call hget =>
      have hadvanced := (advanced_advance h (mem_of_getElem? hget) io).progress
      exact ⟨hadvanced.manifest, hadvanced.length, hadvanced.agree, hadvanced.bits, hadvanced.complete⟩

/-- The file is renamed only when all of it is held. -/
theorem complete_of_renamed (h : Intact sha256 bytes s) {event : Event}
    (hrenamed : (step sha256 s event).renamed = true) : s.swarm.held.isComplete = true := by
  rw [step.eq_def] at hrenamed
  cases event with
  | handlePiece piece data => exact h.renamed hrenamed
  | schedule inflight => exact h.renamed hrenamed
  | advance k io =>
    simp only at hrenamed
    split at hrenamed
    · exact h.renamed hrenamed
    · next call hget => exact (advanced_advance h (mem_of_getElem? hget) io).renamed hrenamed

theorem intact_step (h : Intact sha256 bytes s) {event : Event}
    (hevent : event.Genuine sha256 bytes) : Intact sha256 bytes (step sha256 s event) := by
  have hprogress := progress_step h event
  have hold (call : Call) (hcall : call ∈ s.calls) : call.Sound bytes (step sha256 s event) :=
    hprogress.sound (h.sound call hcall)
  have hcommon (held genuine sound) : Intact sha256 bytes (step sha256 s event) :=
    ⟨hprogress.manifest ▸ h.describes, hprogress.length.trans h.length,
      hprogress.bits.trans (hprogress.manifest ▸ h.bits), held,
      fun hr => hprogress.complete (complete_of_renamed h hr), genuine, sound⟩
  cases event with
  | schedule inflight => exact hcommon h.held h.genuine hold
  | handlePiece piece data =>
    refine hcommon h.held (fun call hcall => ?_) fun call hcall => ?_
    · rcases mem_append.mp hcall with hcall | hcall
      · exact h.genuine call hcall
      · rw [mem_singleton.mp hcall]
        exact hevent
    · rcases mem_append.mp hcall with hcall | hcall
      · exact hold call hcall
      · rw [mem_singleton.mp hcall]
        trivial
  | advance k io =>
    cases hget : s.calls[k]? with
    | none =>
      rw [step, hget]
      exact h
    | some call =>
      have hmem := mem_of_getElem? hget
      have hadvanced := advanced_advance h hmem io
      rw [step, hget] at hold hcommon ⊢
      refine hcommon hadvanced.held (fun other hother => ?_) fun other hother => ?_
      · rcases mem_or_eq_of_mem_set hother with hother | rfl
        · exact h.genuine other hother
        · exact h.genuine call hmem
      · rcases mem_or_eq_of_mem_set hother with hother | rfl
        · exact hold other hother
        · exact hadvanced.sound

theorem intact_run {events : List Event} (h : Intact sha256 bytes s)
    (hevents : ∀ event ∈ events, event.Genuine sha256 bytes) :
    Intact sha256 bytes (run sha256 s events) := by
  induction events generalizing s with
  | nil => exact h
  | cons event events ih =>
    obtain ⟨hevent, hevents⟩ := forall_mem_cons.mp hevents
    exact ih (intact_step h hevent) hevents

theorem manifest_run {events : List Event} (h : Intact sha256 bytes s)
    (hevents : ∀ event ∈ events, event.Genuine sha256 bytes) :
    (run sha256 s events).swarm.manifest = s.swarm.manifest := by
  induction events generalizing s with
  | nil => rfl
  | cons event events ih =>
    obtain ⟨hevent, hevents⟩ := forall_mem_cons.mp hevents
    exact (ih (intact_step h hevent) hevents).trans (progress_step h event).manifest

end

theorem intact_acceptOffer {sha256 : Bytes → String} {bytes : Bytes} {m : Manifest}
    (h : m.Describes sha256 bytes) (groupId : Option String) (old : Bytes) :
    Intact sha256 bytes (acceptOffer m groupId old) where
  describes := h
  length := (length_setLen _ _ _).trans h.size
  bits := length_replicate
  held := fun i hi => by
    rw [acceptOffer, Bitfield.get_empty] at hi
    cases hi
  renamed := Bool.noConfusion
  genuine := fun call hcall => absurd hcall not_mem_nil
  sound := fun call hcall => absurd hcall not_mem_nil

/-- All pieces make the file. -/
theorem temp_eq_of_isComplete {sha256 : Bytes → String} {bytes : Bytes} {s : State}
    (h : Intact sha256 bytes s) (hcomplete : s.swarm.held.isComplete = true) : s.temp = bytes := by
  obtain ⟨-, hall⟩ := (Bitfield.isComplete_iff _).mp hcomplete
  have hpieces (n : ℕ) (hn : n ≤ s.swarm.held.bits.length) :
      AgreeOn s.temp bytes 0 (min (n * s.swarm.manifest.pieceSize) bytes.length) := by
    induction n with
    | zero =>
      rw [Nat.zero_mul, Nat.zero_min]
      exact AgreeOn.empty _ _ _
    | succ n ih =>
      have hbefore := ih (by omega)
      have hpiece := h.held n (hall n hn)
      have hsize := h.describes.size
      have hnext := Nat.add_one_mul n s.swarm.manifest.pieceSize
      by_cases hpos : n * s.swarm.manifest.pieceSize ≤ bytes.length
      · rw [State.Correct, s.swarm.manifest.pieceEnd_eq (hsize ▸ hpos), hsize] at hpiece
        rw [Nat.min_eq_left hpos] at hbefore
        exact hbefore.append hpiece
      · -- the file has ended
        rw [Nat.min_eq_right (by omega)] at hbefore ⊢
        exact hbefore
  have hwhole := hpieces _ (Nat.le_refl _)
  rw [h.bits, Nat.min_eq_right h.describes.covers] at hwhole
  exact hwhole.eq_of_length h.length

/-- What is held of a download is the original's, stays as it is, and is the whole file when all of it is
held, so also when the temp file has been renamed. -/
theorem download_integrity {sha256 : Bytes → String} {openFile : String → Except String File}
    {path name : String} {pieceSize : ℕ} {file : File} {m : Manifest} (hsize : 0 < pieceSize)
    (hu32 : pieceSize < 2 ^ 32) (hopen : openFile path = .ok file)
    (hm : buildManifest sha256 openFile path name pieceSize = .ok m) (groupId : Option String)
    (old : Bytes) (events : List Event) (hfree : CollisionFree sha256 file.bytes events) :
    let s := run sha256 (acceptOffer m groupId old) events
    s.temp.length = file.bytes.length ∧
    (∀ i, s.swarm.held.get i = true →
      slice s.temp (i * m.pieceSize) (i * m.pieceSize + m.pieceLen i) =
        slice file.bytes (i * m.pieceSize) (i * m.pieceSize + m.pieceLen i)) ∧
    (∀ event i, s.swarm.held.get i = true →
      slice (step sha256 s event).temp (i * m.pieceSize) (i * m.pieceSize + m.pieceLen i) =
        slice s.temp (i * m.pieceSize) (i * m.pieceSize + m.pieceLen i)) ∧
    (s.swarm.held.isComplete = true → s.temp = file.bytes) ∧
    ∀ event, (step sha256 s event).renamed = true → s.swarm.held.isComplete = true := by
  intro s
  obtain ⟨-, hdescribes⟩ := describes_buildManifest hsize hu32 hopen hm
  have hevents : ∀ event ∈ events, event.Genuine sha256 file.bytes := by
    intro event hevent
    cases event with
    | handlePiece piece data => exact hfree piece data hevent
    | advance k io => trivial
    | schedule inflight => trivial
  have hstart := intact_acceptOffer hdescribes groupId old
  have h : Intact sha256 file.bytes s := intact_run hstart hevents
  have hmanifest : s.swarm.manifest = m := manifest_run hstart hevents
  have hagree (i : ℕ) (hi : s.swarm.held.get i = true) :
      AgreeOn s.temp file.bytes (i * m.pieceSize) (i * m.pieceSize + m.pieceLen i) := by
    have hcorrect := h.held i hi
    rwa [State.Correct, hmanifest] at hcorrect
  refine ⟨h.length, fun i hi => agreeOn_iff_slice.mp (hagree i hi), fun event i hi => ?_,
    temp_eq_of_isComplete h, fun event => complete_of_renamed h⟩
  have hnext := (progress_step h event).agree _ _ (hagree i hi)
  exact (agreeOn_iff_slice.mp hnext).trans (agreeOn_iff_slice.mp (hagree i hi)).symm

/-! ## A file of two pieces -/

/-- The hashes of the pieces, of corrupt data and of the list of hashes. -/
def abcSha256 (data : Bytes) : String :=
  if data = [97, 98] then "fb8e20fc2e4c3f248c60c39bd652f3c1347298bb977b8b4d5903b85055620603"
  else if data = [99] then "2e7d2c03a9507ae265ecf5b5356885a53393a2029d241394997265a1a25aefc6"
  else if data = [120, 120] then "5dde896887f6754c9b15bfe3a441ae4806df2fde94001311e08bf110622e0bbe"
  else "14eec32d1bd92fe52253ef7547e20407b0dd70dbc835e3cbbb81dd8ef52ca6c7"

theorem eq_of_abcSha256 : ∀ data ∈ [[97, 98], [99], [120, 120]], ∀ other : Bytes,
    abcSha256 data = abcSha256 other → data = other := by
  intro data hdata other hhash
  unfold abcSha256 at hhash
  split at hhash <;> split at hhash <;> grind

/-- A file that is read byte by byte. -/
def abcFile : File where
  bytes := [97, 98, 99]
  metadata := .ok 3
  read := fun pos room => .ok (min (min 1 room) (3 - pos))
  metadata_eq := fun h => (Except.ok.inj h).symm
  read_le := fun h => by
    have hn := Except.ok.inj h
    simp only [length_cons, length_nil]
    omega
  read_zero := fun h => by
    have hn := Except.ok.inj h
    simp only [length_cons, length_nil]
    omega

def abcManifest : Manifest where
  fileId := "14eec32d1bd92fe52253ef7547e20407b0dd70dbc835e3cbbb81dd8ef52ca6c7"
  name := "a.txt"
  size := 3
  pieceSize := 2
  pieces := ["fb8e20fc2e4c3f248c60c39bd652f3c1347298bb977b8b4d5903b85055620603",
    "2e7d2c03a9507ae265ecf5b5356885a53393a2029d241394997265a1a25aefc6"]

theorem buildManifest_abc :
    buildManifest abcSha256 (fun _ => .ok abcFile) "a.txt" "a.txt" 2 = .ok abcManifest := by
  with_unfolding_all rfl

/-- The last piece, corrupt data for the first, and twice the first: one write fails in the middle and
the other goes on to the end. -/
def abcEvents : List Event :=
  [.handlePiece 1 [99], .handlePiece 0 [120, 120], .handlePiece 0 [97, 98], .handlePiece 0 [97, 98]] ++
    List.replicate 8 (.advance 0 (.ok 1)) ++ List.replicate 3 (.advance 1 (.ok 1)) ++
    List.replicate 5 (.advance 2 (.ok 1)) ++ List.replicate 5 (.advance 3 (.ok 1)) ++
    .advance 2 .failed :: List.replicate 9 (.advance 3 (.ok 1))

theorem collisionFree_abc : CollisionFree abcSha256 abcFile.bytes abcEvents := by
  intro piece data hpiece p q
  have hdata : data ∈ [[97, 98], [99], [120, 120]] := by
    simp [abcEvents] at hpiece
    grind
  exact eq_of_abcSha256 data hdata _

theorem download_integrity_abc : let s := run abcSha256 (acceptOffer abcManifest none [7]) abcEvents
    s.renamed = true ∧ s.temp = [97, 98, 99] := by
  have h := @download_integrity abcSha256 (fun _ => .ok abcFile) "a.txt" "a.txt" 2 abcFile abcManifest
    (by decide) (by decide) rfl buildManifest_abc none [7] abcEvents collisionFree_abc
  exact ⟨by decide +kernel, h.2.2.2.1 (by decide +kernel)⟩

end Taomni.Swarm
