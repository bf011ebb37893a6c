import Mathlib.Data.List.Induction
import Taomni.Mobile.Broker

/-!
# Control of terminals

At any time one connection at most holds a terminal, and only after it took control and nobody took it
back. The size is the one of the desktop whenever nobody holds the terminal, unless a resize is applied
after its connection has lost control (`control_exclusive_iff`).

Reference: `src-tauri/src/mobile/pty_broker.rs`.
-/

namespace Taomni.Mobile

variable {text : TextTail}

namespace Broker

variable (b : Broker text)

theorem ensureHolder_eq_ok {id connection : String} : b.ensureHolder id connection = .ok () ↔
      ∃ t device, b.get id = some t ∧ t.running = true ∧ t.holder = some (device, connection) := by
  unfold ensureHolder
  constructor
  · intro h
    split at h
    · cases h
    · rename_i t ht
      obtain ⟨hget, hrun⟩ := b.running_eq_some.mp ht
      split at h
      · rename_i hheld
        cases hholder : t.holder with
        | none =>
          rw [hholder] at hheld
          exact Bool.noConfusion hheld
        | some holder =>
          rw [hholder, Option.any_some, beq_iff_eq] at hheld
          exact ⟨t, holder.1, hget, hrun, by rw [hholder, ← hheld]⟩
      · cases h
  · rintro ⟨t, device, hget, hrun, hholder⟩
    rw [b.running_eq_some.mpr ⟨hget, hrun⟩]
    dsimp only
    rw [hholder, Option.any_some, beq_self_eq_true, if_pos rfl]

/-! ## What holds in every state -/

/-- One connection at most passes `ensure_holder`. -/
def Exclusive : Prop :=
  ∀ id connection connection', b.ensureHolder id connection = .ok () →
    b.ensureHolder id connection' = .ok () → connection = connection'

/-- Taking control from another connection fails, and that connection keeps it. -/
def NoSteal : Prop :=
  ∀ id device connection connection', b.ensureHolder id connection' = .ok () →
    connection ≠ connection' →
      (b.control id device connection true).1 = .error "control_busy" ∧
        (b.control id device connection true).2.ensureHolder id connection' = .ok ()

/-- Terminals that run and that nobody holds have the size of the desktop, where it is known. -/
def SizeRestored : Prop :=
  ∀ id t desktopSize, b.get id = some t → t.running = true → t.holder = none →
    t.desktopSize = some desktopSize → t.size = some desktopSize

theorem exclusive : b.Exclusive := by
  intro id connection connection' h h'
  obtain ⟨t, device, hget, -, hholder⟩ := b.ensureHolder_eq_ok.mp h
  obtain ⟨t', device', hget', -, hholder'⟩ := b.ensureHolder_eq_ok.mp h'
  rw [hget] at hget'
  cases hget'
  rw [hholder] at hholder'
  cases hholder'
  rfl

theorem noSteal : b.NoSteal := by
  intro id device connection connection' h hne
  obtain ⟨t, device', hget, hrun, hholder⟩ := b.ensureHolder_eq_ok.mp h
  have hcontrol : t.control device connection true = (.error "control_busy", t) := by
    unfold Terminal.control
    rw [hholder]
    dsimp only
    rw [Option.any_some, beq_false_of_ne (Ne.symm hne)]
    rfl
  have heq : b.control id device connection true =
      (.error "control_busy", b.modify id fun t => (t.control device connection true).2) := by
    unfold control
    rw [b.running_eq_some.mpr ⟨hget, hrun⟩]
    dsimp only
    rw [hcontrol]
  rw [heq]
  refine ⟨rfl, (ensureHolder_eq_ok _).mpr ⟨t, device', ?_, hrun, hholder⟩⟩
  rw [get_modify, if_pos rfl, hget, Option.map_some, hcontrol]

end Broker

/-! ## Holding -/

/-- The calls that take control of a terminal back from a connection. -/
def Call.Reclaims (id connection : String) : Call → Prop
  | .desktop id' _ _ => id' = id
  | .control id' _ connection' take => id' = id ∧ connection' = connection ∧ take = false
  | .exit id' _ _ => id' = id
  | .register id' => id' = id
  | .drop id' => id' = id
  | _ => False

variable {t : Terminal text}

theorem Terminal.control_holder {device connection : String} {take : Bool} {device' connection' : String}
    (h : (t.control device connection take).2.holder = some (device', connection')) :
    (take = true ∧ connection' = connection ∧ (t.control device connection take).1 = .ok none) ∨
      t.holder = some (device', connection') ∧ ¬(connection' = connection ∧ take = false) := by
  unfold Terminal.control at h ⊢
  dsimp only at h ⊢
  cases take with
  | true =>
    rw [if_pos rfl] at h ⊢
    split at h
    · exact .inr ⟨h, fun hcase => Bool.noConfusion hcase.2⟩
    · rename_i hfree
      cases h
      exact .inl ⟨rfl, rfl, by rw [if_neg hfree]⟩
  | false =>
    rw [if_neg Bool.false_ne_true] at h
    split at h
    · cases h
    · rename_i hheld
      refine .inr ⟨h, fun hcase => hheld ?_⟩
      have h : t.holder = some (device', connection') := h
      rw [h, Option.any_some, hcase.1, beq_self_eq_true]

variable (s : Shared text)

/-- A connection that holds a terminal after a call took it with the call, or held it before. -/
theorem Shared.ensureHolder_step (call : Call) {id connection : String}
    (h : (s.step call).broker.ensureHolder id connection = .ok ()) :
    (∃ device, call = .control id device connection true ∧
        (s.broker.control id device connection true).1 = .ok none) ∨
      s.broker.ensureHolder id connection = .ok () ∧ ¬call.Reclaims id connection := by
  obtain ⟨t', device, hget, hrun, hholder⟩ := (Broker.ensureHolder_eq_ok _).mp h
  rcases s.get_step call hget with ⟨-, rfl⟩ | ⟨t, ht, rfl, hregister, hdrop⟩
  · cases hholder
  have hkeep (hr : t.running = true) (hh : t.holder = some (device, connection))
      (hcall : ¬call.Reclaims id connection) :
      (∃ device, call = .control id device connection true ∧
          (s.broker.control id device connection true).1 = .ok none) ∨
        s.broker.ensureHolder id connection = .ok () ∧ ¬call.Reclaims id connection :=
    .inr ⟨s.broker.ensureHolder_eq_ok.mpr ⟨t, device, ht, hr, hh⟩, hcall⟩
  cases call with
  | register id' => exact hkeep hrun hholder fun heq => hregister (congrArg _ heq)
  | drop id' => exact hkeep hrun hholder fun heq => hdrop (congrArg _ heq)
  | output id' data =>
    dsimp only [Call.effect] at hrun hholder
    split at hholder
    · rename_i hcase
      exact hkeep hcase.2.2 hholder not_false
    · rename_i hcase
      rw [if_neg hcase] at hrun
      exact hkeep hrun hholder not_false
  | exit id' code now =>
    dsimp only [Call.effect] at hrun hholder
    split at hholder
    · cases hholder
    · rename_i hcase
      rw [if_neg hcase] at hrun
      exact hkeep hrun hholder fun heq => hcase ⟨heq.symm, hrun⟩
  | desktop id' size now =>
    dsimp only [Call.effect] at hrun hholder
    split at hholder
    · cases hholder
    · rename_i hcase
      rw [if_neg hcase] at hrun
      exact hkeep hrun hholder fun heq => hcase heq.symm
  | control id' device' connection' take =>
    dsimp only [Call.effect] at hrun hholder
    split at hholder
    · rename_i hcase
      obtain ⟨rfl, hr⟩ := hcase
      rcases Terminal.control_holder hholder with ⟨rfl, rfl, hok⟩ | ⟨hh, hne⟩
      · refine .inl ⟨device', rfl, ?_⟩
        unfold Broker.control
        rw [s.broker.running_eq_some.mpr ⟨ht, hr⟩]
        exact hok
      · exact hkeep hr hh fun hcall => hne ⟨hcall.2.1.symm, hcall.2.2⟩
    · rename_i hcase
      rw [if_neg hcase] at hrun
      exact hkeep hrun hholder fun hcall => hcase ⟨hcall.1.symm, hrun⟩
  | applyResize index =>
    have hfields : (Call.effect s id t (.applyResize index)).running = t.running ∧
        (Call.effect s id t (.applyResize index)).holder = t.holder := by
      dsimp only [Call.effect]
      cases s.resizes[index]? with
      | none => exact ⟨rfl, rfl⟩
      | some r =>
        dsimp only
        split
        · unfold Terminal.applyResize
          dsimp only
          split <;> exact ⟨rfl, rfl⟩
        · exact ⟨rfl, rfl⟩
    exact hkeep (hfields.1 ▸ hrun) (hfields.2 ▸ hholder) not_false
  | disable => exact hkeep hrun hholder not_false
  | enable => exact hkeep hrun hholder not_false
  | ensureHolder id' connection' => exact hkeep hrun hholder not_false
  | checkResize id' connection' cols rows => exact hkeep hrun hholder not_false
  | subscribe id' => exact hkeep hrun hholder not_false
  | resume id' after => exact hkeep hrun hholder not_false

/-- The state after some calls, from a broker without terminals. -/
abbrev stateAfter (text : TextTail) (calls : List Call) : Shared text :=
  runFrom Shared.step {} calls

/-- Whoever passes `ensure_holder` took control, and nobody has reclaimed it since. -/
def HeldSinceTake (text : TextTail) (calls : List Call) : Prop :=
  ∀ id connection, (stateAfter text calls).broker.ensureHolder id connection = .ok () →
    ∃ before device after, calls = before ++ .control id device connection true :: after ∧
      ((stateAfter text before).broker.control id device connection true).1 = .ok none ∧
      ∀ call ∈ after, ¬call.Reclaims id connection

theorem heldSinceTake (text : TextTail) (calls : List Call) : HeldSinceTake text calls := by
  induction calls using List.reverseRecOn with
  | nil =>
    intro id connection h
    cases h
  | append_singleton calls call ih =>
    intro id connection h
    unfold stateAfter at h
    rw [runFrom_concat] at h
    rcases Shared.ensureHolder_step _ call h with ⟨device, rfl, hok⟩ | ⟨hheld, hcall⟩
    · exact ⟨calls, device, [], rfl, hok, fun _ h => absurd h List.not_mem_nil⟩
    · obtain ⟨before, device, after, heq, hok, hafter⟩ := ih id connection hheld
      refine ⟨before, device, after ++ [call], by rw [heq, List.append_assoc]; rfl, hok, ?_⟩
      intro other hother
      rcases List.mem_append.mp hother with hmem | hmem
      · exact hafter other hmem
      · rw [List.mem_singleton.mp hmem]
        exact hcall

/-! ## The size -/

/-- The terminal has the size of the desktop, or need not have it. -/
def Terminal.Restored (t : Terminal text) : Prop :=
  ∀ desktopSize, t.running = true → t.holder = none → t.desktopSize = some desktopSize →
    t.size = some desktopSize

theorem Terminal.Restored.desktop (h : t.Restored) (size : Option Size) (now : ℤ) :
    (t.desktop size now).2.Restored := by
  intro desktopSize hrun _ hdesktop
  unfold Terminal.desktop at hrun hdesktop ⊢
  dsimp only at hrun hdesktop ⊢
  cases size with
  | some size => exact hdesktop
  | none =>
    rw [Option.none_or] at hdesktop ⊢
    cases hholder : t.holder with
    | none => exact h desktopSize hrun hholder hdesktop
    | some holder => exact hdesktop

theorem Terminal.Restored.control (h : t.Restored) (device connection : String)
    (take : Bool) : (t.control device connection take).2.Restored := by
  unfold Terminal.control
  dsimp only
  split
  · split
    · exact h
    · intro desktopSize _ hholder
      cases hholder
  · split
    · intro desktopSize _ _ hdesktop
      exact hdesktop
    · exact h

/-- When a resize is applied the terminal is held, has exited, or has the new size on the desktop. -/
def Shared.ResizeHeld (s : Shared text) : Call → Prop
  | .applyResize index => ∀ r, s.resizes[index]? = some r → ∀ t desktopSize,
      s.broker.get r.id = some t → t.running = true → t.holder = none →
        t.desktopSize = some desktopSize → Terminal.clampSize r.cols r.rows = desktopSize
  | _ => True

theorem Broker.sizeRestored_iff (b : Broker text) :
    b.SizeRestored ↔ ∀ id t, b.get id = some t → t.Restored :=
  ⟨fun h id t hget desktopSize => h id t desktopSize hget,
    fun h id t desktopSize hget => h id t hget desktopSize⟩

/-- A call keeps the sizes as they should be, unless it applies a resize for no holder. -/
theorem Shared.restored_step (call : Call) (hs : s.broker.SizeRestored)
    (hcall : s.ResizeHeld call) : (s.step call).broker.SizeRestored := by
  rw [Broker.sizeRestored_iff] at hs ⊢
  intro id t' hget
  rcases s.get_step call hget with ⟨-, rfl⟩ | ⟨t, ht, rfl, -, -⟩
  · intro desktopSize _ _ hdesktop
    cases hdesktop
  have hrestored := hs id t ht
  cases call with
  | output id' data =>
    dsimp only [Call.effect]
    split <;> exact hrestored
  | exit id' code now =>
    dsimp only [Call.effect]
    split
    · intro desktopSize hrun
      cases hrun
    · exact hrestored
  | desktop id' size now =>
    dsimp only [Call.effect]
    split
    · exact hrestored.desktop size now
    · exact hrestored
  | control id' device connection take =>
    dsimp only [Call.effect]
    split
    · exact hrestored.control device connection take
    · exact hrestored
  | applyResize index =>
    dsimp only [Call.effect]
    cases hindex : s.resizes[index]? with
    | none => exact hrestored
    | some r =>
      dsimp only
      split
      · rename_i hid
        have hheld := hcall r hindex t
        unfold Terminal.applyResize
        dsimp only
        split
        · exact hrestored
        · intro desktopSize hrun hholder hdesktop
          exact congrArg some (hheld desktopSize (hid ▸ ht) hrun hholder hdesktop)
      · exact hrestored
  | register id' => exact hrestored
  | drop id' => exact hrestored
  | disable => exact hrestored
  | enable => exact hrestored
  | ensureHolder id' connection => exact hrestored
  | checkResize id' connection cols rows => exact hrestored
  | subscribe id' => exact hrestored
  | resume id' after => exact hrestored

/-- A resize that is applied for no holder leaves a size that is not the one of the desktop. -/
theorem Shared.resizeHeld_of_restored (call : Call)
    (h : (s.step call).broker.SizeRestored) : s.ResizeHeld call := by
  cases call with
  | applyResize index =>
    intro r hindex t desktopSize hget hrun hholder hdesktop
    have hstep : (s.step (.applyResize index)).broker.get r.id
        = some (t.applyResize r.cols r.rows).2 := by
      rw [Shared.step, hindex]
      dsimp only
      unfold Broker.applyResize
      rw [hget]
      dsimp only
      rw [Broker.get_modify, if_pos rfl, hget]
      rfl
    have hsize := h r.id _ desktopSize hstep
    unfold Terminal.applyResize at hsize
    dsimp only at hsize
    split at hsize
    · rename_i hsame
      exact Option.some.inj (hsame.symm.trans (hsize hrun hholder hdesktop))
    · exact Option.some.inj (hsize hrun hholder hdesktop)
  | _ => trivial

/-- Control is exclusive in every run, and the size is restored in those runs whose resizes are applied
while the terminal is held. -/
theorem control_exclusive_iff (text : TextTail) (calls : List Call) :
    (∀ before after, calls = before ++ after → let b := (stateAfter text before).broker
      b.Exclusive ∧ b.NoSteal ∧ HeldSinceTake text before ∧ b.SizeRestored) ↔
      Throughout Shared.step Shared.ResizeHeld ({} : Shared text) calls := by
  have hinit : ({} : Shared text).broker.SizeRestored := fun id t desktopSize hget => by cases hget
  have hrun : Always Shared.step (fun s => s.broker.SizeRestored) ({} : Shared text) calls ↔
      Throughout Shared.step Shared.ResizeHeld {} calls :=
    always_iff_throughout (P := fun s : Shared text => s.broker.SizeRestored) (Q := fun _ => True)
      (fun _ _ _ => trivial)
      (fun s call _ hs => ⟨s.resizeHeld_of_restored call, s.restored_step call hs⟩) trivial hinit
      calls
  rw [← hrun]
  constructor
  · exact fun h before after heq => (h before after heq).2.2.2
  · exact fun h before after heq =>
      ⟨Broker.exclusive _, Broker.noSteal _, heldSinceTake text before, h before after heq⟩

/-- The desktop takes the terminal back between the check of a resize and its update. -/
def lateResize : List Call :=
  [.register "t", .control "t" "phone" "page" true, .checkResize "t" "page" 100 30,
    .desktop "t" (some (80, 24)) 0, .applyResize 0]

theorem late_resize_keeps_mobile_size :
    ¬∀ (text : TextTail) (before after : List Call), lateResize = before ++ after →
      (stateAfter text before).broker.SizeRestored := by
  intro h
  let text : TextTail := ⟨Unit, (), fun _ _ => (), fun _ => []⟩
  have hsize := h text lateResize [] (List.append_nil _).symm "t" _ (80, 24) rfl rfl rfl rfl
  exact absurd hsize (by decide)

end Taomni.Mobile
