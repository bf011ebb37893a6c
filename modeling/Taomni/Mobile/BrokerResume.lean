import Taomni.Mobile.Broker

/-!
# Resuming a terminal

A viewer that has received the frames up to some number asks for the later ones. The reply says that there
is a gap, or has every byte that was numbered since, and so has a viewer that attaches while output goes
on. Bytes that come while the broker is disabled are not numbered, and no reply says so
(`resume_faithful_iff`).

Reference: `src-tauri/src/mobile/pty_broker.rs` and `terminal` of `streams.rs`.
-/

namespace Taomni.Mobile

open List

variable {text : TextTail}

/-! ## Numbered chunks -/

/-- Chunks with their numbers. -/
@[grind =] def numberFrom : ℕ → List Bytes → List (ℕ × Bytes)
  | _, [] => []
  | n, data :: rest => (n, data) :: numberFrom (n + 1) rest

theorem numberFrom_append (n : ℕ) (xs ys : List Bytes) :
    numberFrom n (xs ++ ys) = numberFrom n xs ++ numberFrom (n + xs.length) ys := by
  induction xs generalizing n with
  | nil => rfl
  | cons x xs ih =>
    rw [cons_append, numberFrom, numberFrom, ih, length_cons, Nat.add_right_comm, Nat.add_assoc]
    rfl

theorem numberFrom_drop (n k : ℕ) (xs : List Bytes) :
    (numberFrom n xs).drop k = numberFrom (n + k) (xs.drop k) := by
  induction k generalizing n xs with
  | zero => rfl
  | succ k ih =>
    cases xs with
    | nil => rfl
    | cons x xs =>
      rw [numberFrom, drop_succ_cons, drop_succ_cons, ih, Nat.add_right_comm, Nat.add_assoc]

variable {after : ℕ}

theorem numberFrom_filter {n : ℕ} (h : n ≤ after + 1) (xs : List Bytes) :
    (numberFrom n xs).filter (fun chunk => after < chunk.1) =
      numberFrom (after + 1) (xs.drop (after + 1 - n)) := by
  induction xs generalizing n with
  | nil =>
    rw [drop_nil]
    rfl
  | cons x xs ih =>
    rw [numberFrom, filter_cons]
    rcases Nat.eq_or_lt_of_le h with rfl | hlt
    · have hall : (numberFrom (after + 1 + 1) xs).filter (fun chunk => after < chunk.1) =
          numberFrom (after + 1 + 1) xs := by
        have hnumber : ∀ m, after < m → ∀ chunk ∈ numberFrom m xs, after < chunk.1 := by
          clear ih
          induction xs with
          | nil => exact fun _ _ _ h => absurd h not_mem_nil
          | cons x xs ih =>
            intro m hm chunk hchunk
            rcases mem_cons.mp hchunk with rfl | hchunk
            · exact hm
            · exact ih (m + 1) (Nat.lt_succ_of_lt hm) chunk hchunk
        exact filter_eq_self.mpr fun chunk hchunk =>
          decide_eq_true (hnumber _ (by omega) chunk hchunk)
      rw [if_pos (decide_eq_true (Nat.lt_succ_self after)), hall, Nat.sub_self, drop_zero,
        numberFrom]
    · rw [if_neg (by simp only [decide_eq_true_eq]; omega), ih hlt,
        show after + 1 - n = after + 1 - (n + 1) + 1 by omega, drop_succ_cons]

theorem numberFrom_length (n : ℕ) (xs : List Bytes) : (numberFrom n xs).length = xs.length := by
  induction xs generalizing n with
  | nil => rfl
  | cons x xs ih => rw [numberFrom, length_cons, length_cons, ih]

theorem numberFrom_eq_nil {n : ℕ} {xs : List Bytes} : numberFrom n xs = [] ↔ xs = [] := by
  cases xs with
  | nil => exact iff_of_true rfl rfl
  | cons x xs => exact iff_of_false (cons_ne_nil _ _) (cons_ne_nil _ _)

/-! ## Output of a run -/

/-- The bytes of a call that the terminal emits. -/
def Call.emits (id : String) : Call → Bytes
  | .output id' data => if id' = id then data else []
  | _ => []

/-- The broker takes output for the terminal. -/
def Shared.records (s : Shared text) (id : String) : Bool :=
  s.broker.enabled && (s.broker.running id).isSome

/-- The number of the last frame of a terminal. -/
def Shared.seq (s : Shared text) (id : String) : ℕ := ((s.broker.get id).map Terminal.seq).getD 0

/-- The bytes that the terminal emits after some frame, recorded or not. -/
def emittedAfter (id : String) (after : ℕ) : Shared text → List Call → Bytes
  | _, [] => []
  | s, call :: calls =>
    (if after ≤ s.seq id then call.emits id else []) ++ emittedAfter id after (s.step call) calls

/-- Those of the bytes that come while the broker is disabled, or after the exit. -/
def ignoredAfter (id : String) (after : ℕ) : Shared text → List Call → Bytes
  | _, [] => []
  | s, call :: calls =>
    (if after ≤ s.seq id ∧ s.records id = false then call.emits id else []) ++
      ignoredAfter id after (s.step call) calls

/-- The chunk that a call records. -/
def Call.recordedBy (s : Shared text) (id : String) : Call → List Bytes
  | .output id' data => if id' = id ∧ s.records id = true then [data] else []
  | _ => []

/-- The chunks that the broker records. -/
@[grind =] def recorded (id : String) : Shared text → List Call → List Bytes
  | _, [] => []
  | s, call :: calls => call.recordedBy s id ++ recorded id (s.step call) calls

/-! ## Viewers -/

/-- What a viewer keeps of a terminal: the number of its last frame, and the bytes since it asked. -/
structure Viewer where
  sequence : ℕ
  bytes : Bytes := []

/-- Frames that the viewer has are ignored, and a text tail starts it over. -/
def Viewer.receive (v : Viewer) : Frame → Viewer
  | .output seq data => if seq ≤ v.sequence then v else ⟨seq, v.bytes ++ data⟩
  | .replay _ lastSeq _ => ⟨lastSeq, []⟩
  | _ => v

def Frame.isReplay : Frame → Bool
  | .replay _ _ _ => true
  | _ => false

/-- The frames that `terminal` sends at first: the resumed ones, and the state without its text tail. -/
def attachFrames (subscribed resumed : List Frame) : List Frame :=
  resumed ++ subscribed.filter fun frame => !frame.isReplay

/-- A chunk after `after` has left the buffer. -/
def Shared.lost (s : Shared text) (id : String) (after : ℕ) : Bool :=
  (s.broker.get id).any fun t => after + t.chunks.length < t.seq

/-- A viewer that has the frames up to `after`, subscribes in one state, resumes in another one, and reads
the live channel up to a third one. -/
def attached (id : String) (after : ℕ) (subscribed resumed last : Shared text) : Viewer :=
  match subscribed.broker.subscribe id with
  | .error _ => ⟨after, []⟩
  | .ok (receiver, frames) =>
    let live := (((last.broker.get id).map Terminal.tx).getD []).drop receiver
    (attachFrames frames (resumed.broker.resume id after) ++ live).foldl Viewer.receive ⟨after, []⟩

/-- The viewer gets the bytes emitted after its last frame, or after the resumption when that reports
a gap. -/
def NoByteMissed (id : String) (after : ℕ) (s : Shared text) (before between later : List Call) : Prop :=
  let run := runFrom Shared.step s
  let resumed := run (before ++ between)
  (attached id after (run before) resumed (run (before ++ between ++ later))).bytes =
    if resumed.lost id after then emittedAfter id (resumed.seq id) resumed later
    else emittedAfter id after s (before ++ between ++ later)

/-- The reply says that there is a gap, or has exactly some bytes in frames with the next numbers. -/
def Faithful (frames : List Frame) (after : ℕ) (bytes : Bytes) : Prop :=
  (∃ lines lastSeq, frames = [.replay lines lastSeq true]) ∨
    ∃ chunks : List Bytes,
      frames = (numberFrom (after + 1) chunks).map (fun chunk => .output chunk.1 chunk.2) ∧
        chunks.flatten = bytes

/-- Calls that leave the registered terminal in its place. -/
def Call.KeepsTerminal : Call → Prop
  | .register _ => False
  | .drop _ => False
  | _ => True

/-- A broker, enabled or not, with one terminal just registered. -/
def registered (text : TextTail) (id : String) (enabled : Bool) : Shared text where
  broker := ({ enabled := enabled } : Broker text).register id

/-! ## One terminal -/

/-- The broker has one terminal. -/
def Shared.Single (s : Shared text) (id : String) (t : Terminal text) : Prop :=
  s.broker.terminals = [(id, t)]

namespace Broker

variable {b : Broker text} {id : String} {t : Terminal text}

theorem get_single (h : b.terminals = [(id, t)]) (id' : String) :
    b.get id' = if id = id' then some t else none := by
  unfold get
  rw [h, lookup_cons, lookup_nil]
  by_cases hid : id = id'
  · rw [hid, beq_self_eq_true, if_pos rfl]
  · rw [beq_false_of_ne (Ne.symm hid), if_neg hid]

theorem modify_single (h : b.terminals = [(id, t)]) (id' : String) (f : Terminal text → Terminal text) :
    (b.modify id' f).terminals = [(id, if id = id' then f t else t)] := by
  unfold modify
  dsimp only
  rw [h, map_cons, map_nil]
  by_cases hid : id = id'
  · rw [if_pos hid, if_pos hid]
  · rw [if_neg hid, if_neg hid]

theorem running_single (h : b.terminals = [(id, t)]) (id' : String) :
    b.running id' = if id = id' ∧ t.running = true then some t else none := by
  unfold running
  rw [get_single h]
  by_cases hid : id = id'
  · rw [if_pos hid, Option.filter_some]
    by_cases hrun : t.running = true
    · rw [if_pos hrun, if_pos ⟨hid, hrun⟩]
    · rw [if_neg hrun, if_neg fun h => hrun h.2]
  · rw [if_neg hid, if_neg fun h => hid h.1]
    rfl

/-- A single terminal is never one too many. -/
theorem excess_single (h : b.terminals = [(id, t)]) : b.excess = [] := by
  unfold excess
  dsimp only
  rw [h]
  have hlength : ([(id, t)].filterMap fun entry => entry.2.exitedAt.map fun time =>
      (time, entry.1)).length ≤ 1 := length_filterMap_le _ _
  rw [length_mergeSort, Nat.sub_eq_zero_of_le (hlength.trans (by decide)), take_zero]
  rfl

theorem erase_nil : b.erase [] = b := by
  have hall : b.terminals.filter (fun entry => !([] : List String).contains entry.1) = b.terminals :=
    filter_eq_self.mpr fun _ _ => rfl
  unfold erase
  rw [hall]

end Broker

variable {t : Terminal text}

variable {s : Shared text}

variable {id : String}

/-- A call has its effect on the terminal, and the terminal stays. -/
theorem Shared.Single.step (h : s.Single id t)
    {call : Call} (hcall : call.KeepsTerminal) : (s.step call).Single id (call.effect s id t) := by
  unfold Shared.Single at h ⊢
  cases call with
  | register id' => exact hcall.elim
  | drop id' => exact hcall.elim
  | output id' data =>
    dsimp only [Shared.step, Call.effect]
    unfold Broker.output
    rw [Broker.running_single h]
    cases s.broker.enabled with
    | false =>
      rw [if_pos (show (!false) = true from rfl),
        if_neg fun h : id = id' ∧ false = true ∧ t.running = true => Bool.false_ne_true h.2.1]
      exact h
    | true =>
      rw [if_neg (show ¬(!true) = true from Bool.false_ne_true)]
      by_cases hcase : id = id' ∧ t.running = true
      · rw [if_pos hcase, if_pos (show id = id' ∧ true = true ∧ _ from ⟨hcase.1, rfl, hcase.2⟩),
          if_pos (show (some t).isSome = true from rfl)]
        exact (Broker.modify_single h id' _).trans (by rw [if_pos hcase.1])
      · rw [if_neg hcase,
          if_neg fun h : id = id' ∧ true = true ∧ t.running = true => hcase ⟨h.1, h.2.2⟩]
        exact h
  | exit id' code now =>
    dsimp only [Shared.step, Call.effect]
    unfold Broker.exit
    rw [Broker.running_single h]
    by_cases hcase : id = id' ∧ t.running = true
    · have hmodify := Broker.modify_single h id' fun t => t.exit code now
      rw [if_pos hcase, if_pos hcase]
      rw [if_pos (show (some t).isSome = true from rfl)]
      dsimp only
      rw [Broker.excess_single hmodify, Broker.erase_nil, hmodify, if_pos hcase.1]
    · rw [if_neg hcase, if_neg hcase]
      exact h
  | desktop id' size now =>
    dsimp only [Shared.step, Call.effect]
    unfold Broker.desktop
    rw [Broker.get_single h]
    by_cases hid : id = id'
    · rw [if_pos hid, if_pos hid]
      exact (Broker.modify_single h id' _).trans (by rw [if_pos hid])
    · rw [if_neg hid, if_neg hid]
      exact h
  | control id' device connection take =>
    dsimp only [Shared.step, Call.effect]
    unfold Broker.control
    rw [Broker.running_single h]
    by_cases hcase : id = id' ∧ t.running = true
    · rw [if_pos hcase, if_pos hcase]
      exact (Broker.modify_single h id' _).trans (by rw [if_pos hcase.1])
    · rw [if_neg hcase, if_neg hcase]
      exact h
  | applyResize index =>
    dsimp only [Shared.step, Call.effect]
    cases s.resizes[index]? with
    | none => exact h
    | some r =>
      dsimp only
      unfold Broker.applyResize
      rw [Broker.get_single h]
      by_cases hid : id = r.id
      · rw [if_pos hid, if_pos hid]
        exact (Broker.modify_single h r.id _).trans (by rw [if_pos hid])
      · rw [if_neg hid, if_neg hid]
        exact h
  | disable =>
    dsimp only [Shared.step, Call.effect]
    unfold Broker.disable
    rw [h]
    rfl
  | checkResize id' connection cols rows =>
    dsimp only [Shared.step, Call.effect]
    split <;> exact h
  | enable => exact h
  | ensureHolder id' connection => exact h
  | subscribe id' => exact h
  | resume id' after => exact h

theorem Shared.Single.seq_eq (h : s.Single id t) : s.seq id = t.seq := by
  unfold Shared.seq
  rw [Broker.get_single h, if_pos rfl]
  rfl

theorem Shared.Single.records_eq
    (h : s.Single id t) : s.records id = (s.broker.enabled && t.running) := by
  unfold Shared.records
  rw [Broker.running_single h]
  cases t.running with
  | true => rw [if_pos ⟨rfl, rfl⟩]; rfl
  | false =>
    rw [if_neg fun h : id = id ∧ false = true => Bool.false_ne_true h.2]
    rfl

/-! ## What is buffered and sent -/

/-- The output among some frames. -/
def outputs (frames : List Frame) : List (ℕ × Bytes) :=
  frames.filterMap fun frame =>
    match frame with
    | .output seq data => some (seq, data)
    | _ => none

theorem outputs_append (xs ys : List Frame) : outputs (xs ++ ys) = outputs xs ++ outputs ys :=
  filterMap_append

/-- No text tails are broadcast. -/
def Live (frames : List Frame) : Prop := ∀ frame ∈ frames, frame.isReplay = false

variable {frames : List Frame}

theorem live_of_all
    (h : frames.all (fun frame => !frame.isReplay) = true) : Live frames := fun frame hframe => by
  have hall := all_eq_true.mp h frame hframe
  rwa [Bool.not_eq_true'] at hall

theorem trimChunks_suffix (bytes : ℕ) (chunks : List (ℕ × Bytes)) :
    ∃ k ≤ chunks.length, (Terminal.trimChunks bytes chunks).2 = chunks.drop k := by
  induction chunks generalizing bytes with
  | nil => exact ⟨0, Nat.le_refl 0, rfl⟩
  | cons chunk chunks ih =>
    unfold Terminal.trimChunks
    split
    · obtain ⟨k, hk, heq⟩ := ih (bytes - chunk.2.length)
      exact ⟨k + 1, Nat.succ_le_succ hk, by rw [heq, drop_succ_cons]⟩
    · exact ⟨0, Nat.zero_le _, rfl⟩

/-- A call records output, or numbers nothing and keeps or clears the buffer. -/
theorem Shared.Single.effect_cases (h : s.Single id t) (call : Call) :
    (∃ data, call = .output id data ∧ s.records id = true ∧ call.effect s id t = t.output data) ∨
      ((∀ data, call = .output id data → s.records id = false) ∧ (call.effect s id t).seq = t.seq ∧
        ((call.effect s id t).chunks = t.chunks ∨ (call.effect s id t).chunks = []) ∧
        ∃ frames, (call.effect s id t).tx = t.tx ++ frames ∧ outputs frames = [] ∧ Live frames) := by
  have hquiet (t' : Terminal text) (hseq : t'.seq = t.seq) (hchunks : t'.chunks = t.chunks)
      (frames : List Frame) (htx : t'.tx = t.tx ++ frames) (houtputs : outputs frames = [])
      (hlive : frames.all (fun frame => !frame.isReplay) = true) :
      t'.seq = t.seq ∧ (t'.chunks = t.chunks ∨ t'.chunks = []) ∧
        ∃ frames, t'.tx = t.tx ++ frames ∧ outputs frames = [] ∧ Live frames :=
    ⟨hseq, .inl hchunks, frames, htx, houtputs, live_of_all hlive⟩
  have hself := hquiet t rfl rfl [] (append_nil _).symm rfl rfl
  cases call with
  | output id' data =>
    by_cases hcase : id = id' ∧ s.broker.enabled = true ∧ t.running = true
    · refine .inl ⟨data, by rw [hcase.1], ?_, if_pos hcase⟩
      rw [h.records_eq, hcase.2.1, hcase.2.2]
      rfl
    · refine .inr ⟨fun data' heq => ?_, ?_⟩
      · rw [h.records_eq, Bool.and_eq_false_iff]
        by_contra hboth
        rw [not_or, Bool.not_eq_false, Bool.not_eq_false] at hboth
        exact hcase ⟨(Call.output.inj heq).1.symm, hboth⟩
      · dsimp only [Call.effect]
        rw [if_neg hcase]
        exact hself
  | exit id' code now =>
    refine .inr ⟨nofun, ?_⟩
    dsimp only [Call.effect]
    split
    · exact hquiet _ rfl rfl [.exit code] rfl rfl rfl
    · exact hself
  | desktop id' size now =>
    refine .inr ⟨nofun, ?_⟩
    dsimp only [Call.effect]
    split
    · unfold Terminal.desktop
      dsimp only
      cases t.holder.isSome with
      | true =>
        exact ⟨rfl, .inl rfl, [.controlLost _, .control "none" _ none], rfl, rfl, live_of_all rfl⟩
      | false => exact ⟨rfl, .inl rfl, [], rfl, rfl, live_of_all rfl⟩
    · exact hself
  | control id' device connection take =>
    refine .inr ⟨nofun, ?_⟩
    dsimp only [Call.effect]
    split
    · unfold Terminal.control
      dsimp only
      split
      · split
        · exact hself
        · exact hquiet _ rfl rfl [.control _ _ _] rfl rfl rfl
      · split
        · cases t.desktopSize.isNone with
          | true =>
            exact hquiet _ rfl rfl [.control "none" none none, .error "desktop_size_unavailable"]
              rfl rfl rfl
          | false => exact hquiet _ rfl rfl [.control "none" none none] rfl rfl rfl
        · exact hquiet _ rfl rfl [.control _ _ _] rfl rfl rfl
    · exact hself
  | applyResize index =>
    refine .inr ⟨nofun, ?_⟩
    dsimp only [Call.effect]
    cases s.resizes[index]? with
    | none => exact hself
    | some r =>
      dsimp only
      split
      · unfold Terminal.applyResize
        dsimp only
        split
        · exact hself
        · exact hquiet _ rfl rfl [] (append_nil _).symm rfl rfl
      · exact hself
  | disable =>
    exact .inr ⟨nofun, rfl, .inr rfl, [], (append_nil _).symm, rfl,
      fun _ h => absurd h not_mem_nil⟩
  | register id' => exact .inr ⟨nofun, hself⟩
  | drop id' => exact .inr ⟨nofun, hself⟩
  | enable => exact .inr ⟨nofun, hself⟩
  | ensureHolder id' connection => exact .inr ⟨nofun, hself⟩
  | checkResize id' connection cols rows => exact .inr ⟨nofun, hself⟩
  | subscribe id' => exact .inr ⟨nofun, hself⟩
  | resume id' after => exact .inr ⟨nofun, hself⟩

/-- Everything recorded was numbered and sent, and the buffer has the last chunks of it. -/
structure Buffered (ds : List Bytes) (t : Terminal text) : Prop where
  seq : t.seq = ds.length
  chunks : ∃ k ≤ ds.length, t.chunks = numberFrom (k + 1) (ds.drop k)
  sent : outputs t.tx = numberFrom 1 ds
  live : Live t.tx

variable {ds : List Bytes}

theorem Buffered.output (h : Buffered ds t) (data : Bytes) :
    Buffered (ds ++ [data]) (t.output data) where
  seq := by
    rw [length_append, length_singleton, ← h.seq]
    rfl
  chunks := by
    obtain ⟨k, hk, hchunks⟩ := h.chunks
    obtain ⟨j, hj, htrim⟩ := trimChunks_suffix (t.bytes + data.length) (t.chunks ++ [(t.seq + 1, data)])
    have hfull : t.chunks ++ [(t.seq + 1, data)] = numberFrom (k + 1) ((ds ++ [data]).drop k) := by
      rw [drop_append_of_le_length hk, numberFrom_append, hchunks, length_drop, h.seq,
        show k + 1 + (ds.length - k) = ds.length + 1 by omega]
      rfl
    rw [hfull, numberFrom_length, length_drop, length_append, length_singleton] at hj
    refine ⟨k + j, ?_, ?_⟩
    · rw [length_append, length_singleton]
      omega
    · rw [hfull, numberFrom_drop, drop_drop, Nat.add_right_comm] at htrim
      show (Terminal.trimChunks _ (t.chunks ++ [(t.seq + 1, data)])).2 = _
      rw [hfull]
      exact htrim
  sent := by
    show outputs (t.tx ++ [.output (t.seq + 1) data]) = _
    rw [outputs_append, h.sent, numberFrom_append, Nat.add_comm 1, h.seq]
    rfl
  live := by
    intro frame hframe
    rcases mem_append.mp hframe with hframe | hframe
    · exact h.live frame hframe
    · rw [mem_singleton.mp hframe]
      rfl

theorem Buffered.quiet {t t' : Terminal text} (h : Buffered ds t)
    (hseq : t'.seq = t.seq) (hchunks : t'.chunks = t.chunks ∨ t'.chunks = [])
    (htx : t'.tx = t.tx ++ frames) (houtputs : outputs frames = []) (hlive : Live frames) :
    Buffered ds t' where
  seq := hseq.trans h.seq
  chunks := by
    rcases hchunks with hsame | hempty
    · rw [hsame]
      exact h.chunks
    · refine ⟨ds.length, Nat.le_refl _, ?_⟩
      rw [hempty, drop_length]
      rfl
  sent := by rw [htx, outputs_append, houtputs, append_nil, h.sent]
  live := by
    rw [htx]
    exact fun frame hframe => (mem_append.mp hframe).elim (h.live frame) (hlive frame)

/-! ## Runs -/

theorem Buffered.step (hsingle : s.Single id t) (h : Buffered ds t) (call : Call) :
    Buffered (ds ++ call.recordedBy s id) (call.effect s id t) := by
  rcases hsingle.effect_cases call with
    ⟨data, rfl, hrecords, heffect⟩ | ⟨hnot, hseq, hchunks, frames, htx, houtputs, hlive⟩
  · rw [heffect, Call.recordedBy, if_pos ⟨rfl, hrecords⟩]
    exact h.output data
  · have hnone : call.recordedBy s id = [] := by
      unfold Call.recordedBy
      split
      · rename_i id' data
        refine if_neg ?_
        rintro ⟨rfl, hrecords⟩
        exact absurd ((hnot data rfl).symm.trans hrecords) Bool.false_ne_true
      · rfl
    rw [hnone, append_nil]
    exact h.quiet hseq hchunks htx houtputs hlive

/-- The frames that were sent stay, and a run sends more. -/
theorem Shared.Single.tx_step
    (hsingle : s.Single id t) (call : Call) : t.tx <+: (call.effect s id t).tx := by
  rcases hsingle.effect_cases call with ⟨data, -, -, heffect⟩ | ⟨-, -, -, frames, htx, -⟩
  · rw [heffect]
    exact prefix_append _ _
  · rw [htx]
    exact prefix_append _ _

/-- What a run does to a registered terminal. -/
theorem Buffered.run {s : Shared text} {id : String} {t : Terminal text} {ds : List Bytes}
    (hsingle : s.Single id t) (h : Buffered ds t) {calls : List Call}
    (hcalls : ∀ call ∈ calls, call.KeepsTerminal) :
    ∃ t', (runFrom Shared.step s calls).Single id t' ∧ Buffered (ds ++ recorded id s calls) t' ∧
      t.tx <+: t'.tx := by
  induction calls generalizing s t ds with
  | nil => exact ⟨t, hsingle, by rwa [recorded, append_nil], prefix_rfl⟩
  | cons call calls ih =>
    obtain ⟨hcall, hcalls⟩ := forall_mem_cons.mp hcalls
    obtain ⟨t', hsingle', hbuffered, htx⟩ := ih (hsingle.step hcall) (h.step hsingle call) hcalls
    refine ⟨t', hsingle', ?_, (hsingle.tx_step call).trans htx⟩
    rwa [recorded, ← append_assoc]

theorem recorded_append (id : String) (s : Shared text) (xs ys : List Call) :
    recorded id s (xs ++ ys) = recorded id s xs ++ recorded id (runFrom Shared.step s xs) ys := by
  induction xs generalizing s with
  | nil => rfl
  | cons call xs ih => rw [cons_append, recorded, recorded, ih, runFrom_cons, append_assoc]

/-- Of the bytes emitted after a frame, those that are not ignored are recorded. -/
theorem emittedAfter_split (hsingle : s.Single id t) (h : Buffered ds t) {calls : List Call}
    (hcalls : ∀ call ∈ calls, call.KeepsTerminal) (after : ℕ) : (emittedAfter id after s calls).length =
        ((recorded id s calls).drop (after - ds.length)).flatten.length +
          (ignoredAfter id after s calls).length ∧ (ignoredAfter id after s calls = [] →
        emittedAfter id after s calls = ((recorded id s calls).drop (after - ds.length)).flatten) := by
  induction calls generalizing s t ds with
  | nil =>
    rw [recorded, drop_nil]
    exact ⟨rfl, fun _ => rfl⟩
  | cons call calls ih =>
    obtain ⟨hcall, hcalls⟩ := forall_mem_cons.mp hcalls
    have hnext := ih (hsingle.step hcall) (h.step hsingle call) hcalls
    have hseq : s.seq id = ds.length := hsingle.seq_eq.trans h.seq
    rw [recorded, emittedAfter, ignoredAfter, hseq]
    by_cases hrecord : ∃ data, call = .output id data ∧ s.records id = true
    · obtain ⟨data, rfl, hrecords⟩ := hrecord
      have hby : (Call.output id data).recordedBy s id = [data] := if_pos ⟨rfl, hrecords⟩
      have hemits : (Call.output id data).emits id = data := if_pos rfl
      rw [hby, length_append, length_singleton] at hnext
      have hno : ¬(after ≤ ds.length ∧ s.records id = false) := fun h => by
        rw [hrecords] at h
        exact Bool.noConfusion h.2
      rw [hby, hemits, if_neg hno, nil_append]
      by_cases hafter : after ≤ ds.length
      · rw [if_pos hafter, Nat.sub_eq_zero_of_le hafter, drop_zero, singleton_append,
          flatten_cons, length_append, length_append]
        rw [Nat.sub_eq_zero_of_le (Nat.le_succ_of_le hafter), drop_zero] at hnext
        refine ⟨by omega, fun hnil => ?_⟩
        rw [hnext.2 hnil]
      · rw [if_neg hafter, nil_append, singleton_append,
          show after - ds.length = after - (ds.length + 1) + 1 by omega, drop_succ_cons]
        exact hnext
    · have hby : call.recordedBy s id = [] := by
        unfold Call.recordedBy
        split
        · rename_i id' data
          refine if_neg ?_
          rintro ⟨rfl, hrecords⟩
          exact hrecord ⟨data, rfl, hrecords⟩
        · rfl
      -- Nothing is recorded: the call emits nothing, or what it emits is ignored.
      have hhead : (if after ≤ ds.length then call.emits id else []) =
          if after ≤ ds.length ∧ s.records id = false then call.emits id else [] := by
        by_cases hrecords : s.records id = false
        · rw [hrecords]
          simp only [and_true]
        · have hemits : call.emits id = [] := by
            unfold Call.emits
            split
            · rename_i id' data
              refine if_neg ?_
              rintro rfl
              exact hrecord ⟨data, rfl, by rwa [Bool.not_eq_false] at hrecords⟩
            · rfl
          rw [hemits, ite_self, ite_self]
      rw [hby, append_nil] at hnext
      rw [hby, nil_append, hhead, length_append, length_append]
      refine ⟨by omega, fun hnil => ?_⟩
      obtain ⟨hfirst, hrest⟩ := append_eq_nil_iff.mp hnil
      rw [hfirst, nil_append]
      exact hnext.2 hrest

theorem emittedAfter_eq_iff (hsingle : s.Single id t) (h : Buffered ds t) {calls : List Call}
    (hcalls : ∀ call ∈ calls, call.KeepsTerminal) (after : ℕ) :
    ((recorded id s calls).drop (after - ds.length)).flatten = emittedAfter id after s calls ↔
      ignoredAfter id after s calls = [] := by
  obtain ⟨hlength, heq⟩ := emittedAfter_split hsingle h hcalls after
  constructor
  · intro hsame
    rw [← hsame] at hlength
    exact length_eq_zero_iff.mp (by omega)
  · exact fun hnil => (heq hnil).symm

/-! ## Replies -/

theorem Buffered.hasGap_eq (h : Buffered ds t)
    (hafter : after ≤ ds.length) : t.hasGap after = decide (after + t.chunks.length < t.seq) := by
  obtain ⟨k, hk, hchunks⟩ := h.chunks
  unfold Terminal.hasGap
  have hnew : decide (ds.length < after) = false := decide_eq_false (by omega)
  rw [hchunks, h.seq, numberFrom_length, length_drop, hnew, Bool.or_false, Bool.eq_iff_iff, Bool.or_eq_true, Bool.and_eq_true, List.isEmpty_iff, numberFrom_eq_nil,
    drop_eq_nil_iff, decide_eq_true_eq, decide_eq_true_eq]
  rcases Nat.eq_or_lt_of_le hk with rfl | hlt
  · rw [drop_length]
    constructor
    · rintro (h | h)
      · have := h.2
        omega
      · exact Bool.noConfusion h
    · exact fun h => .inl ⟨Nat.le_refl _, by omega⟩
  · rw [drop_eq_getElem_cons hlt]
    show _ ∨ decide (after + 1 < k + 1) = true ↔ _
    rw [decide_eq_true_eq]
    omega

/-- Where nothing is lost, every recorded chunk after the frame is in the reply. -/
theorem Buffered.resume_eq (h : Buffered ds t)
    (hafter : after ≤ ds.length) (hgap : ¬after + t.chunks.length < t.seq) : t.resume after =
      (numberFrom (after + 1) (ds.drop after)).map fun chunk => .output chunk.1 chunk.2 := by
  obtain ⟨k, hk, hchunks⟩ := h.chunks
  have hstart : k ≤ after := by
    rw [hchunks, h.seq, numberFrom_length, length_drop] at hgap
    omega
  unfold Terminal.resume
  rw [h.hasGap_eq hafter, if_neg (by rwa [decide_eq_true_eq]), hchunks,
    numberFrom_filter (Nat.succ_le_succ hstart), drop_drop,
    show k + (after + 1 - (k + 1)) = after by omega]

theorem Buffered.resume_lost (h : Buffered ds t)
    (hafter : after ≤ ds.length) (hgap : after + t.chunks.length < t.seq) :
    t.resume after = [.replay (text.lines t.replay) t.seq true] := by
  unfold Terminal.resume
  rw [h.hasGap_eq hafter, if_pos (by rwa [decide_eq_true_eq])]

theorem numberFrom_map_inj {n : ℕ} {xs ys : List Bytes}
    (h : (numberFrom n xs).map (fun chunk => Frame.output chunk.1 chunk.2) =
      (numberFrom n ys).map fun chunk => .output chunk.1 chunk.2) : xs = ys := by
  induction xs generalizing n ys with
  | nil =>
    cases ys with
    | nil => rfl
    | cons y ys => exact absurd h.symm (cons_ne_nil _ _)
  | cons x xs ih =>
    cases ys with
    | nil => exact absurd h (cons_ne_nil _ _)
    | cons y ys =>
      obtain ⟨hhead, htail⟩ := List.cons.inj h
      exact congrArg₂ List.cons (Frame.output.inj hhead).2 (ih htail)

theorem Buffered.faithful_iff (h : Buffered ds t)
    (hafter : after ≤ ds.length) (bytes : Bytes) : Faithful (t.resume after) after bytes ↔
      after + t.chunks.length < t.seq ∨ (ds.drop after).flatten = bytes := by
  unfold Faithful
  by_cases hgap : after + t.chunks.length < t.seq
  · exact iff_of_true (.inl ⟨_, _, h.resume_lost hafter hgap⟩) (.inl hgap)
  · rw [h.resume_eq hafter hgap, or_iff_right hgap]
    constructor
    · rintro (⟨lines, lastSeq, heq⟩ | ⟨chunks, heq, hbytes⟩)
      · cases hdrop : ds.drop after with
        | nil =>
          rw [hdrop] at heq
          exact absurd heq.symm (cons_ne_nil _ _)
        | cons x xs =>
          rw [hdrop] at heq
          exact Frame.noConfusion (List.cons.inj heq).1
      · rw [numberFrom_map_inj heq]
        exact hbytes
    · exact fun hbytes => .inr ⟨_, rfl, hbytes⟩

/-! ## Viewers that attach -/

theorem foldl_receive_live (h : Live frames) (v : Viewer) : frames.foldl Viewer.receive v =
      (outputs frames).foldl (fun v chunk => v.receive (.output chunk.1 chunk.2)) v := by
  induction frames generalizing v with
  | nil => rfl
  | cons frame frames ih =>
    obtain ⟨hframe, hframes⟩ := forall_mem_cons.mp h
    cases frame with
    | output seq data => exact ih hframes _
    | replay lines lastSeq gap => exact Bool.noConfusion hframe
    | exit code => exact ih hframes v
    | control holder activity connection => exact ih hframes v
    | controlLost reason => exact ih hframes v
    | error code => exact ih hframes v

/-- Chunks that the viewer has are passed over, and the others are appended. -/
theorem foldl_receive_numbers (a : ℕ) (xs : List Bytes) {v : Viewer} (hlow : a ≤ v.sequence)
    (hhigh : v.sequence ≤ a + xs.length) :
    (numberFrom (a + 1) xs).foldl (fun v chunk => v.receive (.output chunk.1 chunk.2)) v =
      ⟨a + xs.length, v.bytes ++ (xs.drop (v.sequence - a)).flatten⟩ := by
  induction xs generalizing a v with
  | nil =>
    obtain ⟨sequence, bytes⟩ := v
    dsimp only at hlow hhigh
    rw [length_nil] at hhigh
    obtain rfl : sequence = a := by omega
    rw [drop_nil]
    exact congrArg (Viewer.mk sequence) (append_nil bytes).symm
  | cons x xs ih =>
    rw [length_cons] at hhigh
    have hreceive : v.receive (.output (a + 1) x) =
        if a + 1 ≤ v.sequence then v else ⟨a + 1, v.bytes ++ x⟩ := rfl
    rw [numberFrom, foldl_cons, hreceive]
    split
    · rename_i hhas
      rw [ih (a + 1) hhas (by omega), length_cons,
        show v.sequence - a = v.sequence - (a + 1) + 1 by omega, drop_succ_cons,
        Nat.add_right_comm, Nat.add_assoc]
    · rename_i hnew
      obtain rfl : v.sequence = a := by omega
      rw [ih (v.sequence + 1) (v := ⟨v.sequence + 1, v.bytes ++ x⟩) (Nat.le_refl _) (by
        dsimp only
        omega)]
      dsimp only
      rw [Nat.sub_self, Nat.sub_self, drop_zero, drop_zero, flatten_cons,
        append_assoc, length_cons, Nat.add_right_comm, Nat.add_assoc]

theorem outputs_map (chunks : List (ℕ × Bytes)) :
    outputs (chunks.map fun chunk => .output chunk.1 chunk.2) = chunks := by
  unfold outputs
  rw [filterMap_map]
  exact filterMap_some

theorem live_map (chunks : List (ℕ × Bytes)) :
    Live (chunks.map fun chunk => .output chunk.1 chunk.2) := by
  intro frame hframe
  obtain ⟨chunk, -, rfl⟩ := mem_map.mp hframe
  rfl

/-- The state of a terminal has no output. -/
theorem foldl_receive_state (t : Terminal text) (v : Viewer) :
    (t.subscribe.2.filter fun frame => !frame.isReplay).foldl Viewer.receive v = v := by
  unfold Terminal.subscribe Terminal.controlFrame
  dsimp only
  cases t.running <;> rfl

/-- What is sent after a subscription has the numbers after it. -/
theorem Buffered.outputs_drop {ds more : List Bytes} {t t' : Terminal text} (h : Buffered ds t)
    (h' : Buffered (ds ++ more) t') (htx : t.tx <+: t'.tx) :
    outputs (t'.tx.drop t.tx.length) = numberFrom (ds.length + 1) more ∧
      Live (t'.tx.drop t.tx.length) := by
  obtain ⟨rest, hrest⟩ := htx
  have hsent := h'.sent
  have hlive := h'.live
  rw [← hrest] at hsent hlive ⊢
  rw [drop_left]
  rw [outputs_append, h.sent, numberFrom_append, Nat.add_comm 1] at hsent
  exact ⟨append_cancel_left hsent, fun frame hframe =>
    hlive frame (mem_append_right _ hframe)⟩

theorem Shared.Single.lost_eq (h : s.Single id t) (after : ℕ) :
    s.lost id after = decide (after + t.chunks.length < t.seq) := by
  unfold Shared.lost
  rw [Broker.get_single h, if_pos rfl]
  rfl

/-- What a viewer has in the end: from its last frame on, or from the text tail on. -/
theorem attached_bytes {subscribed resumed last : Shared text}
    {t₁ t₂ t₃ : Terminal text} {ds more later : List Bytes}
    (h₁ : subscribed.Single id t₁) (h₂ : resumed.Single id t₂) (h₃ : last.Single id t₃)
    (hb₁ : Buffered ds t₁) (hb₂ : Buffered (ds ++ more) t₂) (hb₃ : Buffered (ds ++ more ++ later) t₃)
    (htx : t₁.tx <+: t₃.tx) (hafter : after ≤ ds.length) :
    (attached id after subscribed resumed last).bytes =
      ((ds ++ more ++ later).drop (if resumed.lost id after then (ds ++ more).length else after)).flatten := by
  have hsubscribe : subscribed.broker.subscribe id = .ok (t₁.tx.length, t₁.subscribe.2) := by
    unfold Broker.subscribe
    rw [Broker.get_single h₁, if_pos rfl]
    rfl
  have hlast : (((last.broker.get id).map Terminal.tx).getD []) = t₃.tx := by
    rw [Broker.get_single h₃, if_pos rfl]
    rfl
  have hresume : resumed.broker.resume id after = t₂.resume after := by
    unfold Broker.resume
    rw [Broker.get_single h₂, if_pos rfl]
  have hle : after ≤ (ds ++ more).length := by
    rw [length_append]
    omega
  have hb₄ : Buffered (ds ++ (more ++ later)) t₃ := by rwa [← append_assoc]
  have htail := hb₁.outputs_drop hb₄ htx
  -- Whatever is resumed leads to the number of the last frame at that time.
  have hlive (bytes : Bytes) : ((t₃.tx.drop t₁.tx.length).foldl Viewer.receive
      ⟨(ds ++ more).length, bytes⟩).bytes = bytes ++ later.flatten := by
    rw [foldl_receive_live htail.2, htail.1,
      foldl_receive_numbers ds.length (more ++ later) (by
        dsimp only
        rw [length_append]
        omega) (by
        dsimp only
        rw [length_append, length_append]
        omega)]
    dsimp only
    rw [length_append, Nat.add_sub_cancel_left, drop_left]
  unfold attached attachFrames
  rw [hsubscribe]
  dsimp only
  rw [hlast, hresume, h₂.lost_eq, foldl_append, foldl_append, foldl_receive_state]
  by_cases hgap : after + t₂.chunks.length < t₂.seq
  · rw [hb₂.resume_lost hle hgap, foldl_cons, foldl_nil, Viewer.receive,
      if_pos (decide_eq_true hgap), hb₂.seq, hlive, drop_left]
    rfl
  · rw [hb₂.resume_eq hle hgap, foldl_receive_live (live_map _), outputs_map,
      foldl_receive_numbers after _ (Nat.le_refl after) (Nat.le_add_right _ _),
      if_neg (by rwa [decide_eq_true_eq])]
    dsimp only
    rw [length_drop, Nat.add_sub_cancel' hle, hlive, Nat.sub_self, drop_zero,
      nil_append, drop_append_of_le_length hle, flatten_append]

theorem registered_single (text : TextTail) (id : String) (enabled : Bool) :
    (registered text id enabled).Single id {} :=
  rfl

theorem registered_buffered : Buffered [] ({} : Terminal text) where
  seq := rfl
  chunks := ⟨0, Nat.le_refl 0, rfl⟩
  sent := rfl
  live := fun _ h => absurd h not_mem_nil

/-- A reply is faithful, and a viewer that attaches misses no byte, exactly when the buffer has lost
a frame, and says so, or no bytes came while the broker did not take them. -/
theorem resume_faithful_iff (text : TextTail) (id : String) (enabled : Bool) (calls : List Call)
    (hcalls : ∀ call ∈ calls, call.KeepsTerminal) : let s := registered text id enabled
    let run := runFrom Shared.step s
    (∀ after ≤ (run calls).seq id,
      Faithful ((run calls).broker.resume id after) after (emittedAfter id after s calls) ↔
        (run calls).lost id after = true ∨ ignoredAfter id after s calls = []) ∧
    ∀ before between later, calls = before ++ between ++ later → ∀ after ≤ (run before).seq id,
      NoByteMissed id after s before between later ↔
        let resumed := run (before ++ between)
        (if resumed.lost id after then ignoredAfter id (resumed.seq id) resumed later
          else ignoredAfter id after s calls) = [] := by
  intro s run
  have hsingle := registered_single text id enabled
  have hbuffered : Buffered [] ({} : Terminal text) := registered_buffered
  refine ⟨fun after hafter => ?_, fun before between later heq after hafter => ?_⟩
  · obtain ⟨t, ht, hb, -⟩ := hbuffered.run hsingle hcalls
    rw [ht.seq_eq, hb.seq] at hafter
    have hresume : (run calls).broker.resume id after = t.resume after := by
      unfold Broker.resume
      rw [Broker.get_single ht, if_pos rfl]
    rw [hresume, hb.faithful_iff hafter, ht.lost_eq, decide_eq_true_eq,
      ← emittedAfter_eq_iff hsingle hbuffered hcalls after]
    rfl
  · subst heq
    have hboth : ∀ call ∈ before ++ between, call.KeepsTerminal := fun call hcall =>
      hcalls call (mem_append_left _ hcall)
    have hlater : ∀ call ∈ later, call.KeepsTerminal := fun call hcall =>
      hcalls call (mem_append_right _ hcall)
    obtain ⟨t₁, h₁, hb₁, -⟩ := hbuffered.run hsingle
      (fun call hcall => hboth call (mem_append_left _ hcall))
    obtain ⟨t₂, h₂, hb₂, htx₂⟩ := hb₁.run h₁
      (fun call hcall => hboth call (mem_append_right _ hcall))
    obtain ⟨t₃, h₃, hb₃, htx₃⟩ := hb₂.run h₂ hlater
    rw [nil_append] at hb₁ hb₂ hb₃
    rw [h₁.seq_eq, hb₁.seq] at hafter
    have hall : recorded id s (before ++ between ++ later) =
        recorded id s before ++ recorded id (run before) between ++
          recorded id (runFrom Shared.step (run before) between) later := by
      rw [recorded_append, recorded_append, runFrom_append]
    have hbetween : run (before ++ between) = runFrom Shared.step (run before) between :=
      runFrom_append _ _ _ _
    have hrun : run (before ++ between ++ later) =
        runFrom Shared.step (runFrom Shared.step (run before) between) later := by
      rw [← hbetween]
      exact runFrom_append _ _ _ _
    show (attached id after (run before) (run (before ++ between))
        (run (before ++ between ++ later))).bytes =
      (if (run (before ++ between)).lost id after then
        emittedAfter id ((run (before ++ between)).seq id) (run (before ++ between)) later
        else emittedAfter id after s (before ++ between ++ later)) ↔
      (if (run (before ++ between)).lost id after then
        ignoredAfter id ((run (before ++ between)).seq id) (run (before ++ between)) later
        else ignoredAfter id after s (before ++ between ++ later)) = []
    rw [hrun, hbetween, attached_bytes h₁ h₂ h₃ hb₁ hb₂ hb₃ (htx₂.trans htx₃) hafter]
    cases hlost : (runFrom Shared.step (run before) between).lost id after with
    | true =>
      rw [if_pos rfl, if_pos rfl, if_pos rfl, drop_left]
      have hiff := emittedAfter_eq_iff h₂ hb₂ hlater
        ((runFrom Shared.step (run before) between).seq id)
      rw [h₂.seq_eq, hb₂.seq, Nat.sub_self, drop_zero] at hiff
      rw [h₂.seq_eq, hb₂.seq]
      exact hiff
    | false =>
      rw [if_neg Bool.false_ne_true, if_neg Bool.false_ne_true, if_neg Bool.false_ne_true, ← hall]
      exact emittedAfter_eq_iff hsingle hbuffered hcalls after

/-- Output before, while and after the broker is disabled. -/
def disabledOutput : List Call :=
  [.output "t" [97], .disable, .output "t" [98], .enable, .output "t" [99]]

theorem resume_after_disable_misses_output : ¬∀ (text : TextTail), let s := registered text "t" true
      Faithful ((runFrom Shared.step s disabledOutput).broker.resume "t" 1) 1
        (emittedAfter "t" 1 s disabledOutput) := by
  intro h
  have hreply : (runFrom Shared.step (registered ⟨Unit, (), fun _ _ => (), fun _ => []⟩ "t" true)
      disabledOutput).broker.resume "t" 1 = [.output 2 [99]] := by decide
  have hemitted : emittedAfter "t" 1 (registered ⟨Unit, (), fun _ _ => (), fun _ => []⟩ "t" true)
      disabledOutput = [98, 99] := by decide
  have hfaithful := h ⟨Unit, (), fun _ _ => (), fun _ => []⟩
  dsimp only at hfaithful
  rw [hreply, hemitted] at hfaithful
  rcases hfaithful with ⟨lines, lastSeq, heq⟩ | ⟨chunks, heq, hbytes⟩
  · exact Frame.noConfusion (List.cons.inj heq).1
  · have hchunks : [[99]] = chunks := numberFrom_map_inj (n := 2) heq
    rw [← hchunks] at hbytes
    exact absurd hbytes (by decide)

theorem resume_faithful_disabledOutput :
    let s := registered ⟨Unit, (), fun _ _ => (), fun _ => []⟩ "t" true
    Faithful ((runFrom Shared.step s disabledOutput).broker.resume "t" 2) 2
      (emittedAfter "t" 2 s disabledOutput) :=
  ((resume_faithful_iff ⟨Unit, (), fun _ _ => (), fun _ => []⟩ "t" true disabledOutput (by
    simp only [disabledOutput, forall_mem_cons, Call.KeepsTerminal, not_mem_nil,
      false_implies, implies_true, and_self])).1 2 (by decide)).mpr (.inr (by decide))

end Taomni.Mobile
