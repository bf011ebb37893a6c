import Mathlib.Data.List.Induction
import Taomni.Common.Record

/-!
# The registry of save transactions

Reference: `src/components/editor/workspace/saveCommit.ts`.

A transaction is known by its workspace and its id, a buffer by its workspace and its file key; both
pairs are keys of maps through one string with a NUL in between. Closing a buffer counts up the
epoch of the buffer, and an owner that was registered under an older epoch is no longer active.
-/

namespace Taomni.Save

open List

/-! ## Keys -/

def NulFree (s : String) : Prop := '\x00' ∉ s.toList

instance (s : String) : Decidable (NulFree s) := inferInstanceAs (Decidable (_ ∉ _))

/-- `` `${workspaceId}\u0000${fileKey}` ``. -/
def ownerEpochKey (workspaceId fileKey : String) : String := workspaceId ++ "\x00" ++ fileKey

/-- `` `${workspaceId}\u0000${transactionId}` ``. -/
def liveEntryKey (workspaceId transactionId : String) : String :=
  workspaceId ++ "\x00" ++ transactionId

private theorem eq_of_append_cons_eq {α : Type*} {x : α} {as bs cs ds : List α} (ha : x ∉ as)
    (hb : x ∉ bs) (h : as ++ x :: cs = bs ++ x :: ds) : as = bs ∧ cs = ds := by
  induction as generalizing bs with
  | nil =>
    cases bs with
    | nil => exact ⟨rfl, (List.cons.inj h).2⟩
    | cons b bs => exact absurd ((List.cons.inj h).1 ▸ mem_cons_self) hb
  | cons a as ih =>
    cases bs with
    | nil => exact absurd ((List.cons.inj h).1 ▸ mem_cons_self) ha
    | cons b bs =>
      obtain ⟨rfl, htail⟩ := List.cons.inj h
      obtain ⟨rfl, rfl⟩ := ih (not_mem_of_not_mem_cons ha) (not_mem_of_not_mem_cons hb)
        htail
      exact ⟨rfl, rfl⟩

variable {ws : String}

/-- Without NUL in the workspace a key determines both of its parts. -/
theorem ownerEpochKey_inj {ws' file file' : String} (h : NulFree ws) (h' : NulFree ws') :
    ownerEpochKey ws file = ownerEpochKey ws' file' ↔ ws = ws' ∧ file = file' := by
  constructor
  · intro heq
    have hlist := congrArg String.toList heq
    simp only [ownerEpochKey, String.toList_append, append_assoc] at hlist
    obtain ⟨hws, hfile⟩ := eq_of_append_cons_eq h h' hlist
    exact ⟨String.toList_inj.mp hws, String.toList_inj.mp hfile⟩
  · rintro ⟨rfl, rfl⟩
    rfl

theorem liveEntryKey_inj {ws' tx tx' : String} (h : NulFree ws) (h' : NulFree ws') :
    liveEntryKey ws tx = liveEntryKey ws' tx' ↔ ws = ws' ∧ tx = tx' :=
  ownerEpochKey_inj h h'

/-! ## The registry -/

structure SaveTransactionOwner where
  workspaceId : String
  transactionId : String
  fileKey : String
  ownerEpoch : ℕ
deriving DecidableEq

inductive SaveOwnerCheck where
  | active
  | inactive (reason : String)
deriving DecidableEq

structure SaveTransactionRegistry where
  epochs : Record ℕ
  discardReasons : Record String
  live : Record SaveTransactionOwner

variable (r : SaveTransactionRegistry)

namespace SaveTransactionRegistry

def empty : SaveTransactionRegistry := ⟨.empty, .empty, .empty⟩

/-- `this.epochs.get(ownerEpochKey(workspaceId, fileKey)) ?? 0`. -/
def epoch (r : SaveTransactionRegistry) (workspaceId fileKey : String) : ℕ :=
  (r.epochs.get? (ownerEpochKey workspaceId fileKey)).getD 0

/-- The owner that `begin` returns. -/
def owner (r : SaveTransactionRegistry) (workspaceId fileKey transactionId : String) :
    SaveTransactionOwner :=
  ⟨workspaceId, transactionId, fileKey, r.epoch workspaceId fileKey⟩

def begin (r : SaveTransactionRegistry) (workspaceId fileKey transactionId : String) :
    SaveTransactionRegistry :=
  { r with
    live := r.live.set (liveEntryKey workspaceId transactionId)
      (r.owner workspaceId fileKey transactionId) }

/-- Live entries are kept: a late `check` is to see the reason. -/
def discardFile (r : SaveTransactionRegistry) (workspaceId fileKey reason : String) :
    SaveTransactionRegistry :=
  { r with
    epochs := r.epochs.set (ownerEpochKey workspaceId fileKey) (r.epoch workspaceId fileKey + 1)
    discardReasons := r.discardReasons.set (ownerEpochKey workspaceId fileKey) reason }

def discardWorkspace (r : SaveTransactionRegistry) (workspaceId : String) :
    SaveTransactionRegistry :=
  { r with live := r.live.filter fun _ owner => owner.workspaceId ≠ workspaceId }

def check (r : SaveTransactionRegistry) (owner : SaveTransactionOwner) : SaveOwnerCheck :=
  if (r.live.get? (liveEntryKey owner.workspaceId owner.transactionId)).isNone then
    .inactive "Save transaction already settled"
  else if r.epoch owner.workspaceId owner.fileKey ≠ owner.ownerEpoch then
    .inactive ((r.discardReasons.get? (ownerEpochKey owner.workspaceId owner.fileKey)).getD
      "Save transaction owner changed")
  else .active

def settle (r : SaveTransactionRegistry) (owner : SaveTransactionOwner) :
    SaveTransactionRegistry :=
  { r with live := r.live.delete (liveEntryKey owner.workspaceId owner.transactionId) }

/-- A transaction is active when it is live under the epoch it was registered with. -/
theorem check_eq_active_iff (owner : SaveTransactionOwner) : r.check owner = .active ↔
      (∃ o, r.live.get? (liveEntryKey owner.workspaceId owner.transactionId) = some o) ∧
        r.epoch owner.workspaceId owner.fileKey = owner.ownerEpoch := by
  rw [check]
  split
  · next h =>
    rw [Option.isNone_iff_eq_none] at h
    simp [h]
  · next h =>
    rw [Option.isNone_iff_eq_none, ← ne_eq, Option.ne_none_iff_exists'] at h
    split
    · next hne => simp [hne]
    · next heq => simp [h, not_not.mp heq]

@[simp] theorem epoch_begin (ws file tx ws' file' : String) :
    (r.begin ws file tx).epoch ws' file' = r.epoch ws' file' := rfl

@[simp] theorem epoch_settle (o : SaveTransactionOwner)
    (ws file : String) : (r.settle o).epoch ws file = r.epoch ws file := rfl

@[simp] theorem epoch_discardWorkspace (ws ws' file' : String) :
    (r.discardWorkspace ws).epoch ws' file' = r.epoch ws' file' := rfl

theorem epoch_discardFile {ws' : String} (h : NulFree ws)
    (h' : NulFree ws') (file file' reason : String) : (r.discardFile ws file reason).epoch ws' file'
      = if ws' = ws ∧ file' = file then r.epoch ws file + 1 else r.epoch ws' file' := by
  rw [epoch, discardFile, Record.get?_set]
  simp only [ownerEpochKey_inj h' h]
  split <;> rfl

@[simp] theorem live_discardFile (ws file reason : String) :
    (r.discardFile ws file reason).live = r.live := rfl

theorem live_begin {ws' : String} (h : NulFree ws)
    (h' : NulFree ws') (file tx tx' : String) : (r.begin ws file tx).live.get? (liveEntryKey ws' tx')
      = if ws' = ws ∧ tx' = tx then some (r.owner ws file tx)
        else r.live.get? (liveEntryKey ws' tx') := by
  rw [begin, Record.get?_set]
  simp only [liveEntryKey_inj h' h]

end SaveTransactionRegistry

/-!
# Runs over the registry of save transactions

Reference: `src/components/editor/workspace/saveCommit.ts`.

A transaction is in flight when it was begun and nothing ended it afterwards: it was not settled, and
neither its buffer nor its workspace was discarded. Over every sequence of calls the registry says
`active` for exactly the transactions in flight.
-/

/-! ## Calls -/

inductive Call where
  | begin (workspaceId fileKey transactionId : String)
  | discardFile (workspaceId fileKey reason : String)
  | discardWorkspace (workspaceId : String)
  | settle (owner : SaveTransactionOwner)
  | check (owner : SaveTransactionOwner)
deriving DecidableEq

def applyCall (r : SaveTransactionRegistry) : Call → SaveTransactionRegistry
  | .begin ws file tx => r.begin ws file tx
  | .discardFile ws file reason => r.discardFile ws file reason
  | .discardWorkspace ws => r.discardWorkspace ws
  | .settle owner => r.settle owner
  | .check _ => r

/-- The registry after the calls. -/
def run (calls : List Call) : SaveTransactionRegistry :=
  calls.foldl applyCall .empty

theorem run_concat (calls : List Call) (c : Call) :
    run (calls ++ [c]) = applyCall (run calls) c := foldl_concat ..

/-- The workspace a call is about. -/
def Call.workspace : Call → String
  | .begin ws _ _ => ws
  | .discardFile ws _ _ => ws
  | .discardWorkspace ws => ws
  | .settle owner => owner.workspaceId
  | .check owner => owner.workspaceId

/-- The workspace and the transaction that a call begins. -/
def Call.begun : Call → Option (String × String)
  | .begin ws _ tx => some (ws, tx)
  | _ => none

/-- What ends a transaction: its settlement, or the discarding of its buffer or its workspace. -/
def Ends (owner : SaveTransactionOwner) : Call → Prop
  | .begin _ _ _ => False
  | .discardFile ws file _ => ws = owner.workspaceId ∧ file = owner.fileKey
  | .discardWorkspace ws => ws = owner.workspaceId
  | .settle o => o.workspaceId = owner.workspaceId ∧ o.transactionId = owner.transactionId
  | .check _ => False

/-- A call of the run returned `owner`, and `later` holds of the calls after it. -/
def BegunThen (calls : List Call) (owner : SaveTransactionOwner) (later : List Call → Prop) : Prop :=
  ∃ before after,
    calls = before ++ .begin owner.workspaceId owner.fileKey owner.transactionId :: after ∧
    (run before).owner owner.workspaceId owner.fileKey owner.transactionId = owner ∧ later after

def Begun (calls : List Call) (owner : SaveTransactionOwner) : Prop :=
  BegunThen calls owner fun _ => True

/-- Begun, and ended by no later call. -/
def InFlight (calls : List Call) (owner : SaveTransactionOwner) : Prop :=
  BegunThen calls owner fun after => ∀ c ∈ after, ¬ Ends owner c

/-- Owners come from `begin`: if the transaction of this one was begun, `begin` returned it. -/
def Authentic (calls : List Call) (owner : SaveTransactionOwner) : Prop :=
  ∀ o, Begun calls o → o.workspaceId = owner.workspaceId →
    o.transactionId = owner.transactionId → o = owner

/-! ## One more call -/

private theorem concat_eq_append_cons_iff {α : Type*} {l before after : List α} {c x : α} :
    l ++ [c] = before ++ x :: after ↔ (∃ rest, after = rest ++ [c] ∧ l = before ++ x :: rest) ∨
        (after = [] ∧ l = before ∧ c = x) := by
  constructor
  · intro h
    rcases eq_nil_or_concat after with rfl | ⟨rest, y, rfl⟩
    · obtain ⟨hl, hc⟩ := append_inj' h rfl
      exact .inr ⟨rfl, hl, (List.cons.inj hc).1⟩
    · rw [concat_eq_append, ← cons_append, ← append_assoc] at h
      obtain ⟨hl, hc⟩ := append_inj' h rfl
      exact .inl ⟨rest, by rw [concat_eq_append, (List.cons.inj hc).1], hl⟩
  · rintro (⟨rest, rfl, rfl⟩ | ⟨rfl, rfl, rfl⟩)
    · rw [append_assoc, cons_append]
    · rfl

/-- The call returns `owner`. -/
def Returns (r : SaveTransactionRegistry) (c : Call) (owner : SaveTransactionOwner) : Prop :=
  c = .begin owner.workspaceId owner.fileKey owner.transactionId ∧
    r.owner owner.workspaceId owner.fileKey owner.transactionId = owner

variable {owner : SaveTransactionOwner}

variable {calls : List Call}

variable {c : Call}

theorem begunThen_concat {later : List Call → Prop} : BegunThen (calls ++ [c]) owner later ↔
      BegunThen calls owner (fun after => later (after ++ [c])) ∨
        (Returns (run calls) c owner ∧ later []) := by
  constructor
  · rintro ⟨before, after, hcalls, howner, hlater⟩
    rcases concat_eq_append_cons_iff.mp hcalls with ⟨rest, rfl, rfl⟩ | ⟨rfl, rfl, rfl⟩
    · exact .inl ⟨before, rest, rfl, howner, hlater⟩
    · exact .inr ⟨⟨rfl, howner⟩, hlater⟩
  · rintro (⟨before, after, rfl, howner, hlater⟩ | ⟨⟨rfl, howner⟩, hlater⟩)
    · exact ⟨before, after ++ [c], by simp, howner, hlater⟩
    · exact ⟨calls, [], rfl, howner, hlater⟩

theorem begun_concat : Begun (calls ++ [c]) owner ↔ Begun calls owner ∨ Returns (run calls) c owner := by
  rw [Begun, begunThen_concat, and_true]
  rfl

theorem inFlight_concat : InFlight (calls ++ [c]) owner ↔
      (InFlight calls owner ∧ ¬ Ends owner c) ∨ Returns (run calls) c owner := by
  rw [InFlight, begunThen_concat]
  have hlater : ∀ after : List Call, (∀ d ∈ after ++ [c], ¬ Ends owner d) ↔
      (∀ d ∈ after, ¬ Ends owner d) ∧ ¬ Ends owner c := by
    intro after
    simp [or_imp, forall_and]
  refine or_congr ?_ (by simp)
  constructor
  · rintro ⟨before, after, hcalls, howner, hends⟩
    exact ⟨⟨before, after, hcalls, howner, ((hlater after).mp hends).1⟩,
      ((hlater after).mp hends).2⟩
  · rintro ⟨⟨before, after, hcalls, howner, hends⟩, hend⟩
    exact ⟨before, after, hcalls, howner, (hlater after).mpr ⟨hends, hend⟩⟩

theorem Begun.of_inFlight (h : InFlight calls owner) : Begun calls owner := by
  obtain ⟨before, after, hcalls, howner, -⟩ := h
  exact ⟨before, after, hcalls, howner, trivial⟩

theorem Begun.mem (h : Begun calls owner) :
    .begin owner.workspaceId owner.fileKey owner.transactionId ∈ calls := by
  obtain ⟨before, after, rfl, -, -⟩ := h
  exact mem_append_right _ mem_cons_self

/-! ## The invariant -/

/-- What the registry knows of the calls: a live entry belongs to a transaction that was begun, the
epoch of a buffer never falls below that of an owner, and the two maps together know the transactions
in flight. -/
structure Tracks (calls : List Call) (r : SaveTransactionRegistry) : Prop where
  live : ∀ key o, r.live.get? key = some o →
    key = liveEntryKey o.workspaceId o.transactionId ∧ Begun calls o
  epoch_le : ∀ o, Begun calls o → o.ownerEpoch ≤ r.epoch o.workspaceId o.fileKey
  active : ∀ o, Begun calls o → (r.check o = .active ↔ InFlight calls o)

theorem tracks_empty : Tracks [] .empty where
  live := by
    intro key o h
    cases h
  epoch_le := by
    intro o h
    exact absurd h.mem not_mem_nil
  active := by
    intro o h
    exact absurd h.mem not_mem_nil

variable {o : SaveTransactionOwner}

section Step

variable {calls : List Call}

/-- A call other than `begin` begins nothing. -/
private theorem begun_concat_of_ne (hc : ∀ ws file tx, c ≠ .begin ws file tx)
    : Begun (calls ++ [c]) o ↔ Begun calls o := by
  rw [begun_concat, or_iff_left]
  exact fun h => hc _ _ _ h.1

private theorem inFlight_concat_of_ne (hc : ∀ ws file tx, c ≠ .begin ws file tx)
    : InFlight (calls ++ [c]) o ↔ InFlight calls o ∧ ¬ Ends o c := by
  rw [inFlight_concat, or_iff_left]
  exact fun h => hc _ _ _ h.1

theorem tracks_check (h : Tracks calls (run calls)) (owner : SaveTransactionOwner) :
    Tracks (calls ++ [.check owner]) (run calls) where
  live := by
    intro key o ho
    obtain ⟨hkey, hbegun⟩ := h.live key o ho
    exact ⟨hkey, begun_concat.mpr (.inl hbegun)⟩
  epoch_le := by
    intro o ho
    rw [begun_concat_of_ne (by simp)] at ho
    exact h.epoch_le o ho
  active := by
    intro o ho
    rw [begun_concat_of_ne (by simp)] at ho
    rw [inFlight_concat_of_ne (by simp), h.active o ho]
    exact ⟨fun hflight => ⟨hflight, id⟩, fun hflight => hflight.1⟩

variable (hnames : ∀ o, Begun calls o → NulFree o.workspaceId)

include hnames

theorem tracks_begin (h : Tracks calls (run calls)) {file tx : String} (hws : NulFree ws)
    (hfresh : ∀ o, Begun calls o → ¬ (o.workspaceId = ws ∧ o.transactionId = tx)) :
    Tracks (calls ++ [.begin ws file tx]) ((run calls).begin ws file tx) where
  live := by
    intro key o ho
    rw [SaveTransactionRegistry.begin, Record.get?_set] at ho
    split at ho
    · next hkey =>
      obtain rfl := Option.some.inj ho
      exact ⟨hkey, begun_concat.mpr (.inr ⟨rfl, rfl⟩)⟩
    · obtain ⟨hkey, hbegun⟩ := h.live key o ho
      exact ⟨hkey, begun_concat.mpr (.inl hbegun)⟩
  epoch_le := by
    intro o ho
    rcases begun_concat.mp ho with ho | ⟨-, howner⟩
    · exact h.epoch_le o ho
    · rw [SaveTransactionRegistry.epoch_begin, ← howner]
      exact Nat.le_refl _
  active := by
    intro o ho
    rw [SaveTransactionRegistry.check_eq_active_iff, SaveTransactionRegistry.epoch_begin]
    rcases begun_concat.mp ho with hold | hnew
    · have hne := hfresh o hold
      rw [SaveTransactionRegistry.live_begin _ hws (hnames o hold), if_neg hne,
        ← SaveTransactionRegistry.check_eq_active_iff, h.active o hold, inFlight_concat]
      refine ⟨fun hflight => .inl ⟨hflight, id⟩, ?_⟩
      rintro (hflight | ⟨heq, -⟩)
      · exact hflight.1
      · injection heq with hws' _ htx'
        exact absurd ⟨hws'.symm, htx'.symm⟩ hne
    · refine iff_of_true ?_ (inFlight_concat.mpr (.inr hnew))
      obtain ⟨heq, howner⟩ := hnew
      injection heq with hws' hfile' htx'
      subst hws' hfile' htx'
      rw [SaveTransactionRegistry.live_begin _ hws hws, if_pos ⟨rfl, rfl⟩]
      exact ⟨⟨_, rfl⟩, congrArg SaveTransactionOwner.ownerEpoch howner⟩

theorem tracks_discardFile (h : Tracks calls (run calls)) (hws : NulFree ws) (file reason : String) :
    Tracks (calls ++ [.discardFile ws file reason]) ((run calls).discardFile ws file reason) where
  live := by
    intro key o ho
    obtain ⟨hkey, hbegun⟩ := h.live key o ho
    exact ⟨hkey, begun_concat.mpr (.inl hbegun)⟩
  epoch_le := by
    intro o ho
    rw [begun_concat_of_ne (by simp)] at ho
    have hle := h.epoch_le o ho
    rw [SaveTransactionRegistry.epoch_discardFile _ hws (hnames o ho)]
    split
    · next heq =>
      rw [heq.1, heq.2] at hle
      omega
    · exact hle
  active := by
    intro o ho
    rw [begun_concat_of_ne (by simp)] at ho
    rw [inFlight_concat_of_ne (by simp), ← h.active o ho,
      SaveTransactionRegistry.check_eq_active_iff, SaveTransactionRegistry.check_eq_active_iff,
      SaveTransactionRegistry.epoch_discardFile _ hws (hnames o ho),
      SaveTransactionRegistry.live_discardFile]
    split
    · next heq =>
      -- the epoch is now above that of the owner
      have hle := h.epoch_le o ho
      rw [heq.1, heq.2] at hle
      refine iff_of_false (fun hactive => ?_) (fun hactive => hactive.2 ⟨heq.1.symm, heq.2.symm⟩)
      have hepoch := hactive.2
      omega
    · next hne =>
      exact ⟨fun hactive => ⟨hactive, fun hends => hne ⟨hends.1.symm, hends.2.symm⟩⟩,
        fun hactive => hactive.1⟩

theorem tracks_discardWorkspace (h : Tracks calls (run calls)) (ws : String) :
    Tracks (calls ++ [.discardWorkspace ws]) ((run calls).discardWorkspace ws) where
  live := by
    intro key o ho
    rw [SaveTransactionRegistry.discardWorkspace, Record.get?_filter,
      Option.filter_eq_some_iff] at ho
    obtain ⟨hkey, hbegun⟩ := h.live key o ho.1
    exact ⟨hkey, begun_concat.mpr (.inl hbegun)⟩
  epoch_le := by
    intro o ho
    rw [begun_concat_of_ne (by simp)] at ho
    exact h.epoch_le o ho
  active := by
    intro o ho
    rw [begun_concat_of_ne (by simp)] at ho
    rw [inFlight_concat_of_ne (by simp), ← h.active o ho,
      SaveTransactionRegistry.check_eq_active_iff, SaveTransactionRegistry.check_eq_active_iff,
      SaveTransactionRegistry.epoch_discardWorkspace, SaveTransactionRegistry.discardWorkspace,
      Record.get?_filter, and_right_comm]
    refine and_congr_left fun _ => ?_
    constructor
    · rintro ⟨entry, hentry⟩
      rw [Option.filter_eq_some_iff, decide_eq_true_eq] at hentry
      obtain ⟨hlive, hne⟩ := hentry
      obtain ⟨hkey, hbegun⟩ := h.live _ entry hlive
      obtain ⟨hws, -⟩ := (liveEntryKey_inj (hnames o ho) (hnames entry hbegun)).mp hkey
      exact ⟨⟨entry, hlive⟩, fun hends => hne (hws.symm.trans hends.symm)⟩
    · rintro ⟨⟨entry, hlive⟩, hends⟩
      obtain ⟨hkey, hbegun⟩ := h.live _ entry hlive
      obtain ⟨hws, -⟩ := (liveEntryKey_inj (hnames o ho) (hnames entry hbegun)).mp hkey
      refine ⟨entry, Option.filter_eq_some_iff.mpr ⟨hlive, ?_⟩⟩
      rw [decide_eq_true_eq]
      exact fun heq => hends (heq.symm.trans hws.symm)

theorem tracks_settle (h : Tracks calls (run calls)) (hws : NulFree owner.workspaceId) :
    Tracks (calls ++ [.settle owner]) ((run calls).settle owner) where
  live := by
    intro key o ho
    rw [SaveTransactionRegistry.settle, Record.get?_delete] at ho
    split at ho
    · cases ho
    · obtain ⟨hkey, hbegun⟩ := h.live key o ho
      exact ⟨hkey, begun_concat.mpr (.inl hbegun)⟩
  epoch_le := by
    intro o ho
    rw [begun_concat_of_ne (by simp)] at ho
    exact h.epoch_le o ho
  active := by
    intro o ho
    rw [begun_concat_of_ne (by simp)] at ho
    rw [inFlight_concat_of_ne (by simp), ← h.active o ho,
      SaveTransactionRegistry.check_eq_active_iff, SaveTransactionRegistry.check_eq_active_iff,
      SaveTransactionRegistry.epoch_settle, SaveTransactionRegistry.settle, Record.get?_delete]
    simp only [liveEntryKey_inj (hnames o ho) hws]
    split
    · next heq =>
      refine iff_of_false ?_ (fun hactive => hactive.2 ⟨heq.1.symm, heq.2.symm⟩)
      rintro ⟨⟨entry, hentry⟩, -⟩
      cases hentry
    · next hne =>
      exact ⟨fun hactive => ⟨hactive, fun hends => hne ⟨hends.1.symm, hends.2.symm⟩⟩,
        fun hactive => hactive.1⟩

end Step

/-! ## Every run -/

/-- No workspace has a NUL in its name, and no transaction is begun twice. -/
structure WellNamed (calls : List Call) : Prop where
  names : ∀ c ∈ calls, NulFree c.workspace
  distinct : (calls.filterMap Call.begun).Nodup

/-- A call that begins a transaction begins none of those before it. -/
theorem WellNamed.fresh {file tx : String} (h : WellNamed (calls ++ [.begin ws file tx]))
    (ho : Begun calls o) : ¬ (o.workspaceId = ws ∧ o.transactionId = tx) := by
  rintro ⟨rfl, rfl⟩
  have hdistinct := h.distinct
  rw [filterMap_append] at hdistinct
  have hmem : (o.workspaceId, o.transactionId) ∈ calls.filterMap Call.begun :=
    mem_filterMap.mpr ⟨_, ho.mem, rfl⟩
  exact disjoint_of_nodup_append hdistinct hmem mem_cons_self

theorem WellNamed.of_concat (h : WellNamed (calls ++ [c])) : WellNamed calls := by
  have hdistinct := h.distinct
  rw [filterMap_append] at hdistinct
  exact ⟨fun d hd => h.names d (mem_append_left _ hd), hdistinct.of_append_left⟩

/-- What `begin` returned is authentic. -/
theorem Begun.authentic (h : WellNamed calls) (howner : Begun calls owner) : Authentic calls owner := by
  induction calls using List.reverseRecOn with
  | nil => exact absurd howner.mem not_mem_nil
  | append_singleton calls c ih =>
    intro o ho hws htx
    rcases begun_concat.mp howner with hold | ⟨rfl, hreturns⟩
    · rcases begun_concat.mp ho with ho' | ⟨rfl, -⟩
      · exact ih h.of_concat hold o ho' hws htx
      · exact absurd ⟨hws.symm, htx.symm⟩ (h.fresh hold)
    · rcases begun_concat.mp ho with ho' | ⟨heq, hreturns'⟩
      · exact absurd ⟨hws, htx⟩ (h.fresh ho')
      · injection heq with hws' hfile' htx'
        rw [← hreturns, ← hreturns', hws', hfile', htx']

theorem tracks_run (calls : List Call) (h : WellNamed calls) : Tracks calls (run calls) := by
  induction calls using List.reverseRecOn with
  | nil => exact tracks_empty
  | append_singleton calls c ih =>
    have htracks := ih h.of_concat
    have hnames : ∀ o, Begun calls o → NulFree o.workspaceId := fun o ho =>
      h.names _ (mem_append_left _ ho.mem)
    have hws := h.names c (mem_append_right _ mem_cons_self)
    rw [run_concat]
    cases c with
    | begin ws file tx => exact tracks_begin hnames htracks hws fun o ho => h.fresh ho
    | discardFile ws file reason => exact tracks_discardFile hnames htracks hws file reason
    | discardWorkspace ws => exact tracks_discardWorkspace hnames htracks ws
    | settle owner => exact tracks_settle hnames htracks hws
    | check owner => exact tracks_check htracks owner

/-- The registry says `active` for exactly the transactions in flight. -/
theorem check_run (h : WellNamed calls)
    (hws : NulFree owner.workspaceId) (howner : Authentic calls owner) :
    (run calls).check owner = .active ↔ InFlight calls owner := by
  have htracks := tracks_run calls h
  by_cases hbegun : Begun calls owner
  · exact htracks.active owner hbegun
  · refine iff_of_false ?_ (fun hflight => hbegun (.of_inFlight hflight))
    rw [SaveTransactionRegistry.check_eq_active_iff]
    rintro ⟨⟨o, ho⟩, -⟩
    obtain ⟨hkey, ho⟩ := htracks.live _ o ho
    obtain ⟨hws', htx⟩ := (liveEntryKey_inj hws (h.names _ ho.mem)).mp hkey
    rw [← howner o ho hws'.symm htx.symm] at hbegun
    exact hbegun ho

/-- Discarding a buffer leaves the owners of other buffers alone. -/
theorem check_discardFile (hws : NulFree ws) (file reason : String) (howner : NulFree owner.workspaceId)
    (hne : ¬ (owner.workspaceId = ws ∧ owner.fileKey = file)) :
    (r.discardFile ws file reason).check owner = r.check owner := by
  rw [SaveTransactionRegistry.check, SaveTransactionRegistry.check,
    SaveTransactionRegistry.epoch_discardFile _ hws howner, if_neg hne,
    SaveTransactionRegistry.live_discardFile, SaveTransactionRegistry.discardFile,
    Record.get?_set, if_neg (mt (ownerEpochKey_inj howner hws).mp hne)]

/-- Discarding a workspace leaves the owners of other workspaces alone. -/
theorem check_discardWorkspace (h : WellNamed calls) (howner : NulFree owner.workspaceId)
    (hne : owner.workspaceId ≠ ws) :
    ((run calls).discardWorkspace ws).check owner = (run calls).check owner := by
  have hlive : ((run calls).discardWorkspace ws).live.get?
      (liveEntryKey owner.workspaceId owner.transactionId)
      = (run calls).live.get? (liveEntryKey owner.workspaceId owner.transactionId) := by
    rw [SaveTransactionRegistry.discardWorkspace, Record.get?_filter]
    cases hentry : (run calls).live.get?
        (liveEntryKey owner.workspaceId owner.transactionId) with
    | none => rfl
    | some o =>
      obtain ⟨hkey, hbegun⟩ := (tracks_run calls h).live _ o hentry
      have hfree : NulFree o.workspaceId := h.names _ hbegun.mem
      obtain ⟨hws, -⟩ := (liveEntryKey_inj howner hfree).mp hkey
      rw [Option.filter_some, if_pos]
      exact decide_eq_true (hws ▸ hne)
  rw [SaveTransactionRegistry.check, SaveTransactionRegistry.check, hlive,
    SaveTransactionRegistry.epoch_discardWorkspace]
  rfl

/-- Over every run `check` answers `active` exactly for the transactions in flight, and discarding one
buffer or one workspace changes the answer for no owner of another. -/
theorem discarded_save_inactive (calls : List Call) (h : WellNamed calls)
    (owner : SaveTransactionOwner) (hws : NulFree owner.workspaceId) (howner : Authentic calls owner) :
    ((run calls).check owner = .active ↔ InFlight calls owner) ∧
    (∀ ws file reason, NulFree ws → ¬ (owner.workspaceId = ws ∧ owner.fileKey = file) →
      ((run calls).discardFile ws file reason).check owner = (run calls).check owner) ∧
    (∀ ws, owner.workspaceId ≠ ws →
      ((run calls).discardWorkspace ws).check owner = (run calls).check owner) :=
  ⟨check_run h hws howner,
    fun _ file reason hws' hne => check_discardFile _ hws' file reason hws hne,
    fun _ hne => check_discardWorkspace h hws hne⟩

/-- Two transactions of one workspace; the buffer of the first is closed. -/
private def closeOne : List Call :=
  [.begin "w" "f" "t", .begin "w" "g" "u", .discardFile "w" "f" "closed"]

private theorem closeOne_wellNamed : WellNamed closeOne := ⟨by decide, by decide⟩

theorem discarded_save_inactive_closeOne : (run closeOne).check ⟨"w", "t", "f", 0⟩ ≠ .active ∧
      (run closeOne).check ⟨"w", "u", "g", 0⟩ = .active := by
  have hbegun : Begun closeOne ⟨"w", "u", "g", 0⟩ := ⟨[.begin "w" "f" "t"], _, rfl, rfl, trivial⟩
  have hflight : InFlight closeOne ⟨"w", "u", "g", 0⟩ := by
    refine ⟨[.begin "w" "f" "t"], [.discardFile "w" "f" "closed"], rfl, rfl, ?_⟩
    intro c hc hends
    cases mem_singleton.mp hc
    exact absurd hends.2 (by decide)
  exact ⟨by decide, (discarded_save_inactive closeOne closeOne_wellNamed ⟨"w", "u", "g", 0⟩
    (by decide) (hbegun.authentic closeOne_wellNamed)).1.mpr hflight⟩

end Taomni.Save
