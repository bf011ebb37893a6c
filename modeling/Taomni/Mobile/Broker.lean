import Mathlib.Data.List.Sort
import Taomni.Common.Runs

/-!
# The broker of terminals

Reference: `src-tauri/src/mobile/pty_broker.rs`.

Every call but `resize` is one critical section. `resize` checks the holder in one and changes the size in
another. The text tail for new viewers is a parameter, and a broadcast channel is the list of the frames
that were sent. Titles and the events of the event stream are left out.
-/

namespace Taomni.Mobile

/-- Columns and rows. -/
abbrev Size := ℕ × ℕ

abbrev Bytes := List UInt8

/-- `Replay`, a tail of the text of a terminal. -/
structure TextTail where
  Tail : Type
  empty : Tail
  push : Tail → Bytes → Tail
  lines : Tail → List String

/-- The messages of a terminal. -/
inductive Frame where
  | output (seq : ℕ) (data : Bytes)
  | exit (code : Option ℕ)
  | control (holder : String) (activity : Option ℤ) (connection : Option String)
  | controlLost (reason : String)
  | error (code : String)
  | replay (lines : List String) (lastSeq : ℕ) (gap : Bool)
deriving DecidableEq

variable (text : TextTail)

structure Terminal where
  running : Bool := true
  exitCode : Option ℕ := none
  desktopLastActivityAt : Option ℤ := none
  exitedAt : Option ℕ := none
  /-- The device and the connection. -/
  holder : Option (String × String) := none
  desktopSize : Option Size := none
  size : Option Size := none
  seq : ℕ := 0
  replay : text.Tail := text.empty
  chunks : List (ℕ × Bytes) := []
  bytes : ℕ := 0
  tx : List Frame := []

namespace Terminal

variable {text} (t : Terminal text)

def send (frame : Frame) : Terminal text := { t with tx := t.tx ++ [frame] }

/-! ## Output -/

def maxBytes : ℕ := 512 * 1024

def maxChunks : ℕ := 1000

/-- The loop that drops the oldest chunks. -/
def trimChunks : ℕ → List (ℕ × Bytes) → ℕ × List (ℕ × Bytes)
  | bytes, [] => (bytes, [])
  | bytes, chunk :: chunks =>
    if maxBytes < bytes ∨ maxChunks < (chunk :: chunks).length then
      trimChunks (bytes - chunk.2.length) chunks
    else (bytes, chunk :: chunks)

/-- `output` on a terminal that runs. -/
def output (data : Bytes) : Terminal text :=
  let seq := t.seq + 1
  let trimmed := trimChunks (t.bytes + data.length) (t.chunks ++ [(seq, data)])
  { t with
    seq := seq
    replay := text.push t.replay data
    bytes := trimmed.1
    chunks := trimmed.2
    tx := t.tx ++ [.output seq data] }

/-- The body of `disable`. -/
def clear : Terminal text := { t with replay := text.empty, chunks := [], bytes := 0 }

def exit (code : Option ℕ) (now : ℕ) : Terminal text :=
  let t := { t with running := false, exitCode := code, holder := none, exitedAt := some now }
  t.send (.exit code)

/-! ## Control -/

/-- The name of the holder. -/
def holderName : String :=
  match t.holder with
  | some (device, _) => "mobile:" ++ device
  | none => "none"

def controlFrame : Frame := .control t.holderName t.desktopLastActivityAt (t.holder.map Prod.snd)

/-- `desktop`, with the size that the caller has to restore. -/
def desktop (size : Option Size) (now : ℤ) : Option Size × Terminal text :=
  -- The first size is no activity of the user.
  let activity :=
    if size.isNone || t.desktopSize.isSome then some now else t.desktopLastActivityAt
  let held := t.holder.isSome
  let restore := if held then t.desktopSize else none
  let t' : Terminal text := { t with
    desktopLastActivityAt := activity
    holder := none
    desktopSize := size.or t.desktopSize
    size := size.or (if held then t.desktopSize else t.size)
    tx := t.tx ++ if held then
        [.controlLost (if size.isSome then "desktop_resize" else "desktop_input"),
          .control "none" activity none]
      else [] }
  (restore, t')

/-- `control` on a terminal that runs. -/
def control (device connection : String) (take : Bool) :
    Except String (Option Size) × Terminal text :=
  let held := t.holder.any fun holder => holder.2 == connection
  if take then
    if t.holder.isSome && !held then (.error "control_busy", t)
    else
      let t := { t with holder := some (device, connection) }
      (.ok none, t.send t.controlFrame)
  else if held then
    let t' : Terminal text := { t with
      holder := none
      size := t.desktopSize
      tx := t.tx ++ .control "none" none none ::
        if t.desktopSize.isNone then [.error "desktop_size_unavailable"] else [] }
    (.ok t.desktopSize, t')
  else (.ok none, t.send t.controlFrame)

def clampSize (cols rows : ℕ) : Size := (max 20 (min cols 300), max 10 (min rows 100))

/-- The second critical section of `resize`. -/
def applyResize (cols rows : ℕ) : Option Size × Terminal text :=
  let size := clampSize cols rows
  if t.size = some size then (none, t) else (some size, { t with size := some size })

/-! ## Viewers -/

/-- The frames of `subscribe`. The receiver starts at the end of the channel. -/
def subscribe : ℕ × List Frame :=
  (t.tx.length,
    [.replay (text.lines t.replay) t.seq false, t.controlFrame] ++
      if t.running then [] else [.exit t.exitCode])

/-- Frames after `after` are missing. -/
def hasGap (after : ℕ) : Bool :=
  (t.chunks.isEmpty && decide (after < t.seq)) || decide (t.seq < after) ||
    (t.chunks.head?.any fun chunk => decide (after + 1 < chunk.1))

def resume (after : ℕ) : List Frame :=
  if t.hasGap after then [.replay (text.lines t.replay) t.seq true]
  else (t.chunks.filter fun chunk => after < chunk.1).map fun chunk => .output chunk.1 chunk.2

end Terminal

/-! ## The broker -/

structure Broker where
  enabled : Bool := false
  terminals : List (String × Terminal text) := []

namespace Broker

variable {text} (b : Broker text)

def get (id : String) : Option (Terminal text) := b.terminals.lookup id

/-- The entry under a key is changed. -/
def modify (id : String) (f : Terminal text → Terminal text) : Broker text :=
  { b with terminals := b.terminals.map fun entry =>
      if entry.1 = id then (entry.1, f entry.2) else entry }

def running (id : String) : Option (Terminal text) := (b.get id).filter fun t => t.running

def erase (ids : List String) : Broker text :=
  { b with terminals := b.terminals.filter fun entry => !ids.contains entry.1 }

def register (id : String) : Broker text :=
  { b with terminals := (id, {}) :: (b.erase [id]).terminals }

def output (id : String) (data : Bytes) : Broker text :=
  if !b.enabled then b
  else if (b.running id).isSome then b.modify id fun t => t.output data
  else b

/-- Exited terminals but the latest 64. -/
def excess : List String :=
  let exited := (b.terminals.filterMap fun entry => entry.2.exitedAt.map fun time =>
    (time, entry.1)).mergeSort fun x y => x.1 ≤ y.1
  (exited.take (exited.length - 64)).map Prod.snd

/-- `exit_with_code`. -/
def exit (id : String) (code : Option ℕ) (now : ℕ) : Broker text :=
  if (b.running id).isSome then
    let b := b.modify id fun t => t.exit code now
    b.erase b.excess
  else b

def desktop (id : String) (size : Option Size) (now : ℤ) : Option Size × Broker text :=
  match b.get id with
  | none => (none, b)
  | some t => ((t.desktop size now).1, b.modify id fun t => (t.desktop size now).2)

def control (id device connection : String) (take : Bool) : Except String (Option Size) × Broker text :=
  match b.running id with
  | none => (.error "terminal_exited", b)
  | some t =>
    ((t.control device connection take).1, b.modify id fun t => (t.control device connection take).2)

def ensureHolder (id connection : String) : Except String Unit :=
  match b.running id with
  | none => .error "terminal_exited"
  | some t =>
    if t.holder.any fun holder => holder.2 == connection then .ok () else .error "not_holder"

/-- What `resize` does after the check. -/
def applyResize (id : String) (cols rows : ℕ) : Except String (Option Size) × Broker text :=
  match b.get id with
  | none => (.error "terminal_not_found", b)
  | some t => (.ok (t.applyResize cols rows).1, b.modify id fun t => (t.applyResize cols rows).2)

def subscribe (id : String) : Except String (ℕ × List Frame) :=
  match b.get id with
  | none => .error "terminal_not_found"
  | some t => .ok t.subscribe

def resume (id : String) (after : ℕ) : List Frame :=
  match b.get id with
  | none => []
  | some t => t.resume after

def disable : Broker text where
  enabled := false
  terminals := b.terminals.map fun entry => (entry.1, entry.2.clear)

def enable : Broker text := { b with enabled := true }

/-- `remove`, after the exit. -/
def drop (id : String) : Broker text := b.erase [id]

end Broker

end Taomni.Mobile

/-!
# Runs of the broker

Any calls of any number of connections, one critical section after the other. A resize is a check and,
some time later, an update. What one call does to one terminal is said once (`get_step`).

Reference: `src-tauri/src/mobile/pty_broker.rs`.
-/

namespace Taomni.Mobile

open List

/-- The critical sections. -/
inductive Call where
  | register (id : String)
  | output (id : String) (data : Bytes)
  | exit (id : String) (code : Option ℕ) (now : ℕ)
  | drop (id : String)
  | desktop (id : String) (size : Option Size) (now : ℤ)
  | control (id device connection : String) (take : Bool)
  | ensureHolder (id connection : String)
  | checkResize (id connection : String) (cols rows : ℕ)
  | applyResize (index : ℕ)
  | subscribe (id : String)
  | resume (id : String) (after : ℕ)
  | disable
  | enable

/-- A resize that has passed its check. -/
structure PendingResize where
  id : String
  connection : String
  cols : ℕ
  rows : ℕ

variable (text : TextTail)

/-- The broker, and the resizes between their two sections. -/
structure Shared where
  broker : Broker text := {}
  resizes : List PendingResize := []

variable {text}

namespace Broker

variable (b : Broker text)

/-! ## Lookups -/

theorem get_modify (id id' : String) (f : Terminal text → Terminal text) :
    (b.modify id f).get id' = if id' = id then (b.get id').map f else b.get id' := by
  unfold get modify
  induction b.terminals with
  | nil => split <;> rfl
  | cons entry entries ih =>
    obtain ⟨key, t⟩ := entry
    dsimp only at ih ⊢
    rw [map_cons, lookup_cons, lookup_cons]
    by_cases hkey : key = id
    · rw [if_pos hkey]
      dsimp only
      by_cases hid : id' = key
      · rw [hid, beq_self_eq_true, if_pos hkey]
        rfl
      · rw [beq_false_of_ne hid]
        exact ih
    · rw [if_neg hkey]
      dsimp only
      by_cases hid : id' = key
      · rw [hid, beq_self_eq_true, if_neg hkey]
      · rw [beq_false_of_ne hid]
        exact ih

theorem get_erase (ids : List String) (id : String) :
    (b.erase ids).get id = if id ∈ ids then none else b.get id := by
  unfold get erase
  dsimp only
  induction b.terminals with
  | nil => split <;> rfl
  | cons entry entries ih =>
    obtain ⟨key, t⟩ := entry
    rw [filter_cons, lookup_cons]
    by_cases hkey : key ∈ ids
    · rw [if_neg (by rw [contains_iff_mem.mpr hkey]; exact Bool.false_ne_true), ih]
      by_cases hid : id = key
      · rw [hid, if_pos hkey, if_pos hkey]
      · rw [beq_false_of_ne hid]
    · rw [if_pos (by
        rw [Bool.not_eq_true', Bool.eq_false_iff, ne_eq, contains_iff_mem]
        exact hkey), lookup_cons]
      by_cases hid : id = key
      · rw [hid, beq_self_eq_true, if_neg hkey]
      · rw [beq_false_of_ne hid]
        exact ih

theorem get_register (id id' : String) :
    (b.register id).get id' = if id' = id then some {} else b.get id' := by
  show List.lookup id' ((id, {}) :: (b.erase [id]).terminals) = _
  rw [lookup_cons]
  by_cases hid : id' = id
  · rw [hid, beq_self_eq_true, if_pos rfl]
  · rw [beq_false_of_ne hid, if_neg hid]
    exact (b.get_erase [id] id').trans (if_neg (by rwa [mem_singleton]))

theorem get_disable (id : String) : b.disable.get id = (b.get id).map Terminal.clear := by
  unfold get disable
  dsimp only
  induction b.terminals with
  | nil => rfl
  | cons entry entries ih =>
    rw [map_cons, lookup_cons, lookup_cons]
    cases id == entry.1 with
    | true => rfl
    | false => exact ih

theorem running_eq_some {id : String} {t : Terminal text} :
    b.running id = some t ↔ b.get id = some t ∧ t.running = true := by
  unfold running
  rw [Option.filter_eq_some_iff]

end Broker

/-! ## Calls -/

/-- One critical section. -/
def Shared.step (s : Shared text) : Call → Shared text
  | .register id => { s with broker := s.broker.register id }
  | .output id data => { s with broker := s.broker.output id data }
  | .exit id code now => { s with broker := s.broker.exit id code now }
  | .drop id => { s with broker := s.broker.drop id }
  | .desktop id size now => { s with broker := (s.broker.desktop id size now).2 }
  | .control id device connection take =>
    { s with broker := (s.broker.control id device connection take).2 }
  | .checkResize id connection cols rows =>
    match s.broker.ensureHolder id connection with
    | .ok () => { s with resizes := s.resizes ++ [⟨id, connection, cols, rows⟩] }
    | .error _ => s
  | .applyResize index =>
    match s.resizes[index]? with
    | none => s
    | some r =>
      { broker := (s.broker.applyResize r.id r.cols r.rows).2
        resizes := s.resizes.eraseIdx index }
  | .disable => { s with broker := s.broker.disable }
  | .enable => { s with broker := s.broker.enable }
  | .ensureHolder _ _ | .subscribe _ | .resume _ _ => s

/-- What a call does to the terminal under a key. -/
def Call.effect (s : Shared text) (id : String) (t : Terminal text) : Call → Terminal text
  | .output id' data =>
    if id = id' ∧ s.broker.enabled = true ∧ t.running = true then t.output data else t
  | .exit id' code now => if id = id' ∧ t.running = true then t.exit code now else t
  | .desktop id' size now => if id = id' then (t.desktop size now).2 else t
  | .control id' device connection take =>
    if id = id' ∧ t.running = true then (t.control device connection take).2 else t
  | .applyResize index =>
    match s.resizes[index]? with
    | some r => if id = r.id then (t.applyResize r.cols r.rows).2 else t
    | none => t
  | .disable => t.clear
  | _ => t

variable {t' : Terminal text}

theorem Broker.get_exit (b : Broker text) (id id' : String) (code : Option ℕ) (now : ℕ)
    (h : (b.exit id code now).get id' = some t') : ∃ t, b.get id' = some t ∧
      t' = if id' = id ∧ t.running = true then t.exit code now else t := by
  unfold Broker.exit at h
  split at h
  · rename_i hrunning
    rw [Broker.get_erase] at h
    split at h
    · cases h
    · rw [Broker.get_modify] at h
      obtain ⟨t₀, ht₀⟩ := Option.isSome_iff_exists.mp hrunning
      obtain ⟨hget, hrun⟩ := b.running_eq_some.mp ht₀
      split at h
      · rename_i hid
        rw [hid, hget] at h
        cases h
        exact ⟨t₀, by rw [hid, hget], (if_pos ⟨hid, hrun⟩).symm⟩
      · rename_i hid
        exact ⟨t', h, (if_neg fun h => hid h.1).symm⟩
  · rename_i hrunning
    refine ⟨t', h, (if_neg fun hcase => hrunning ?_).symm⟩
    rw [b.running_eq_some.mpr ⟨hcase.1 ▸ h, hcase.2⟩]
    rfl

/-- An entry after a change of one entry. -/
theorem Broker.get_modify_some (b : Broker text) {id id' : String} {f : Terminal text → Terminal text}
    (h : (b.modify id f).get id' = some t') :
    ∃ t, b.get id' = some t ∧ t' = if id' = id then f t else t := by
  rw [Broker.get_modify] at h
  split at h
  · rename_i hid
    obtain ⟨t, ht, rfl⟩ := Option.map_eq_some_iff.mp h
    exact ⟨t, ht, (if_pos hid).symm⟩
  · rename_i hid
    exact ⟨t', h, (if_neg hid).symm⟩

theorem Broker.get_output (b : Broker text) {id id' : String} {data : Bytes}
    (h : (b.output id data).get id' = some t') : ∃ t, b.get id' = some t ∧
      t' = if id' = id ∧ b.enabled = true ∧ t.running = true then t.output data else t := by
  unfold Broker.output at h
  split at h
  · rename_i henabled
    refine ⟨t', h, (if_neg fun hcase => ?_).symm⟩
    rw [hcase.2.1] at henabled
    exact Bool.noConfusion henabled
  · rename_i henabled
    rw [Bool.not_eq_true', Bool.not_eq_false] at henabled
    split at h
    · rename_i hrunning
      obtain ⟨t₀, ht₀⟩ := Option.isSome_iff_exists.mp hrunning
      obtain ⟨hget, hrun⟩ := b.running_eq_some.mp ht₀
      obtain ⟨t, ht, rfl⟩ := b.get_modify_some h
      refine ⟨t, ht, ?_⟩
      by_cases hid : id' = id
      · subst hid
        rw [ht] at hget
        cases hget
        rw [if_pos rfl, if_pos ⟨rfl, henabled, hrun⟩]
      · rw [if_neg hid, if_neg fun hcase => hid hcase.1]
    · rename_i hrunning
      refine ⟨t', h, (if_neg fun hcase => hrunning ?_).symm⟩
      rw [b.running_eq_some.mpr ⟨hcase.1 ▸ h, hcase.2.2⟩]
      rfl

theorem Broker.get_desktop (b : Broker text) {id id' : String} {size : Option Size} {now : ℤ}
    (h : (b.desktop id size now).2.get id' = some t') :
    ∃ t, b.get id' = some t ∧ t' = if id' = id then (t.desktop size now).2 else t := by
  unfold Broker.desktop at h
  split at h
  · rename_i hnone
    refine ⟨t', h, (if_neg fun hid => ?_).symm⟩
    rw [← hid] at hnone
    rw [hnone] at h
    cases h
  · exact b.get_modify_some h

theorem Broker.get_control (b : Broker text) {id id' device connection : String} {take : Bool}
    (h : (b.control id device connection take).2.get id' = some t') : ∃ t, b.get id' = some t ∧
      t' = if id' = id ∧ t.running = true then (t.control device connection take).2 else t := by
  unfold Broker.control at h
  split at h
  · rename_i hnone
    refine ⟨t', h, (if_neg fun hcase => ?_).symm⟩
    rw [b.running_eq_some.mpr ⟨hcase.1 ▸ h, hcase.2⟩] at hnone
    cases hnone
  · rename_i t₀ ht₀
    obtain ⟨hget, hrun⟩ := b.running_eq_some.mp ht₀
    obtain ⟨t, ht, rfl⟩ := b.get_modify_some h
    refine ⟨t, ht, ?_⟩
    by_cases hid : id' = id
    · subst hid
      rw [ht] at hget
      cases hget
      rw [if_pos rfl, if_pos ⟨rfl, hrun⟩]
    · rw [if_neg hid, if_neg fun hcase => hid hcase.1]

theorem Broker.get_applyResize (b : Broker text) {id id' : String} {cols rows : ℕ}
    (h : (b.applyResize id cols rows).2.get id' = some t') :
    ∃ t, b.get id' = some t ∧ t' = if id' = id then (t.applyResize cols rows).2 else t := by
  unfold Broker.applyResize at h
  split at h
  · rename_i hnone
    refine ⟨t', h, (if_neg fun hid => ?_).symm⟩
    rw [← hid] at hnone
    rw [hnone] at h
    cases h
  · exact b.get_modify_some h

/-- A terminal after a call is the one before with the effect of the call, or new. -/
theorem Shared.get_step (s : Shared text) (call : Call) {id : String}
    (h : (s.step call).broker.get id = some t') : (call = .register id ∧ t' = {}) ∨
      ∃ t, s.broker.get id = some t ∧ t' = call.effect s id t ∧ call ≠ .register id ∧
        call ≠ .drop id := by
  have hsame {call : Call} (hcall : call ≠ .register id ∧ call ≠ .drop id)
      (heffect : ∃ t, s.broker.get id = some t ∧ t' = call.effect s id t) :
      (call = .register id ∧ t' = {}) ∨
        ∃ t, s.broker.get id = some t ∧ t' = call.effect s id t ∧ call ≠ .register id ∧
          call ≠ .drop id := by
    obtain ⟨t, ht, heq⟩ := heffect
    exact .inr ⟨t, ht, heq, hcall⟩
  cases call with
  | register id' =>
    rw [Shared.step, Broker.get_register] at h
    split at h
    · rename_i hid
      cases h
      exact .inl ⟨congrArg Call.register hid.symm, rfl⟩
    · rename_i hid
      exact hsame ⟨fun heq => hid (Call.register.inj heq).symm, nofun⟩ ⟨t', h, rfl⟩
  | drop id' =>
    have hdrop := Broker.get_erase s.broker [id'] id
    rw [show (s.step (.drop id')).broker = s.broker.erase [id'] from rfl, hdrop] at h
    split at h
    · cases h
    · rename_i hid
      exact hsame ⟨nofun, fun heq => hid (mem_singleton.mpr (Call.drop.inj heq).symm)⟩
        ⟨t', h, rfl⟩
  | output id' data => exact hsame ⟨nofun, nofun⟩ (s.broker.get_output h)
  | exit id' code now => exact hsame ⟨nofun, nofun⟩ (s.broker.get_exit id' id code now h)
  | desktop id' size now => exact hsame ⟨nofun, nofun⟩ (s.broker.get_desktop h)
  | control id' device connection take => exact hsame ⟨nofun, nofun⟩ (s.broker.get_control h)
  | disable =>
    rw [Shared.step, Broker.get_disable] at h
    obtain ⟨t, ht, rfl⟩ := Option.map_eq_some_iff.mp h
    exact hsame ⟨nofun, nofun⟩ ⟨t, ht, rfl⟩
  | checkResize id' connection cols rows =>
    refine hsame ⟨nofun, nofun⟩ ⟨t', ?_, rfl⟩
    rw [Shared.step] at h
    split at h <;> exact h
  | applyResize index =>
    refine hsame ⟨nofun, nofun⟩ ?_
    dsimp only [Call.effect]
    rw [Shared.step] at h
    cases hindex : s.resizes[index]? with
    | none =>
      rw [hindex] at h
      exact ⟨t', h, rfl⟩
    | some r =>
      rw [hindex] at h
      exact s.broker.get_applyResize h
  | ensureHolder id' connection => exact hsame ⟨nofun, nofun⟩ ⟨t', h, rfl⟩
  | subscribe id' => exact hsame ⟨nofun, nofun⟩ ⟨t', h, rfl⟩
  | resume id' after => exact hsame ⟨nofun, nofun⟩ ⟨t', h, rfl⟩
  | enable => exact hsame ⟨nofun, nofun⟩ ⟨t', h, rfl⟩

end Taomni.Mobile
