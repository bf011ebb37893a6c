import Mathlib.Data.List.Basic
import Mathlib.Data.List.Nodup
import Mathlib.Logic.Function.Basic

/-!
# Runs

A system that takes one input after the other. A property of its states is kept by a run when every step
of the run meets what one step needs.
-/

namespace Taomni

open List

variable {σ ι : Type} (step : σ → ι → σ)

/-- The state after some inputs. -/
def runFrom (s : σ) (inputs : List ι) : σ := inputs.foldl step s

@[simp] theorem runFrom_cons (s : σ) (i : ι) (inputs : List ι) :
    runFrom step s (i :: inputs) = runFrom step (step s i) inputs :=
  rfl

theorem runFrom_append (s : σ) (before after : List ι) :
    runFrom step s (before ++ after) = runFrom step (runFrom step s before) after :=
  foldl_append

theorem runFrom_concat (s : σ) (inputs : List ι) (i : ι) :
    runFrom step s (inputs ++ [i]) = step (runFrom step s inputs) i :=
  runFrom_append step s inputs [i]

/-- Every state of a run, the first and the last one included. -/
def Always (P : σ → Prop) (s : σ) (inputs : List ι) : Prop :=
  ∀ before after, inputs = before ++ after → P (runFrom step s before)

/-- Every input of a run, in the state that it comes in. -/
def Throughout (cond : σ → ι → Prop) (s : σ) (inputs : List ι) : Prop :=
  ∀ before i after, inputs = before ++ i :: after → cond (runFrom step s before) i

variable {step}

variable {s : σ} {P : σ → Prop}

theorem always_nil : Always step P s [] ↔ P s := by
  constructor
  · exact fun h => h [] [] rfl
  · intro h before after heq
    rw [(append_eq_nil_iff.mp heq.symm).1]
    exact h

variable {inputs : List ι}

theorem always_cons {i : ι} : Always step P s (i :: inputs) ↔ P s ∧ Always step P (step s i) inputs := by
  constructor
  · intro h
    refine ⟨h [] _ rfl, fun before after heq => ?_⟩
    exact h (i :: before) after (by rw [heq, cons_append])
  · rintro ⟨hs, h⟩ before after heq
    cases before with
    | nil => exact hs
    | cons j before =>
      obtain ⟨rfl, htail⟩ := List.cons.inj heq
      exact h before after htail

variable {cond : σ → ι → Prop}

theorem throughout_nil : Throughout step cond s [] :=
  fun before _ _ heq =>
    absurd heq.symm (append_ne_nil_of_right_ne_nil before (cons_ne_nil _ _))

theorem throughout_cons {i : ι} :
    Throughout step cond s (i :: inputs) ↔ cond s i ∧ Throughout step cond (step s i) inputs := by
  constructor
  · intro h
    refine ⟨h [] i inputs rfl, fun before j after heq => ?_⟩
    exact h (i :: before) j after (by rw [heq, cons_append])
  · rintro ⟨hs, h⟩ before j after heq
    cases before with
    | nil =>
      obtain ⟨rfl, -⟩ := List.cons.inj heq
      exact hs
    | cons k before =>
      obtain ⟨rfl, htail⟩ := List.cons.inj heq
      exact h before j after htail

theorem Throughout.mono {cond' : σ → ι → Prop}
    (h : Throughout step cond s inputs) (himp : ∀ s i, cond s i → cond' s i) :
    Throughout step cond' s inputs :=
  fun before i after heq => himp _ _ (h before i after heq)

/-- What every step keeps holds in all states of the run. -/
theorem Throughout.always (hstep : ∀ s i, P s → cond s i → P (step s i)) (hs : P s)
    (h : Throughout step cond s inputs) : Always step P s inputs := by
  induction inputs generalizing s with
  | nil => exact always_nil.mpr hs
  | cons i inputs ih =>
    obtain ⟨hi, h⟩ := throughout_cons.mp h
    exact always_cons.mpr ⟨hs, ih (hstep s i hs hi) h⟩

theorem always_of_step (hstep : ∀ s i, P s → P (step s i)) (hs : P s)
    (inputs : List ι) : Always step P s inputs :=
  have hall : Throughout step (fun _ _ => True) s inputs := fun _ _ _ _ => trivial
  hall.always (fun s i hs _ => hstep s i hs) hs

theorem Always.last (h : Always step P s inputs) : P (runFrom step s inputs) :=
  h inputs [] (append_nil inputs).symm

/-- The run that keeps a property is the run whose steps meet what one step needs to keep it. -/
theorem always_iff_throughout {Q : σ → Prop}
    (hQ : ∀ s i, Q s → Q (step s i)) (hstep : ∀ s i, Q s → P s → (P (step s i) ↔ cond s i))
    (hinit : Q s) (hs : P s) (inputs : List ι) :
    Always step P s inputs ↔ Throughout step cond s inputs := by
  induction inputs generalizing s with
  | nil =>
    refine iff_of_true (always_nil.mpr hs) fun before i after heq => ?_
    exact absurd heq.symm (append_ne_nil_of_right_ne_nil before (cons_ne_nil i after))
  | cons i inputs ih =>
    rw [always_cons, throughout_cons, and_iff_right hs, ← hstep s i hinit hs]
    constructor
    · intro h
      have hi : P (step s i) := h [] inputs rfl
      exact ⟨hi, (ih (hQ s i hinit) hi).mp h⟩
    · exact fun ⟨hi, h⟩ => (ih (hQ s i hinit) hi).mpr h

/-! ## Logs -/

variable {α : Type}

/-- Every entry of a log is justified by the entries before it. -/
def EachAfter (P : List α → α → Prop) (log : List α) : Prop :=
  ∀ earlier entry later, log = earlier ++ entry :: later → P earlier entry

theorem eachAfter_nil {P : List α → α → Prop} : EachAfter P [] := fun earlier _ _ heq =>
  absurd heq.symm (append_ne_nil_of_right_ne_nil earlier (cons_ne_nil _ _))

theorem eachAfter_concat {P : List α → α → Prop} {log : List α} {entry : α} :
    EachAfter P (log ++ [entry]) ↔ EachAfter P log ∧ P log entry := by
  constructor
  · refine fun h => ⟨fun earlier e later heq => ?_, h log entry [] rfl⟩
    exact h earlier e (later ++ [entry]) (by rw [heq, append_assoc, cons_append])
  · rintro ⟨h, hentry⟩ earlier e later heq
    rcases eq_nil_or_concat later with rfl | ⟨later, last, rfl⟩
    · obtain ⟨rfl, htail⟩ := append_inj' heq rfl
      obtain ⟨rfl, -⟩ := List.cons.inj htail
      exact hentry
    · rw [concat_eq_append, ← cons_append, ← append_assoc] at heq
      exact h earlier e later (append_inj' heq rfl).1

end Taomni

/-!
# Runs over keyed states

Each operation reads and writes the state of one key, and may fail. A run over the states of all keys
is one run for each key, over the operations on that key in their order (`runKeyed_eq_some_iff`), so
operations on different keys never meet.
-/

namespace Taomni

open List

variable {ι σ κ : Type*} [DecidableEq κ] (key : ι → κ) (act : ι → σ → Option σ)

/-- One operation on the state of its key. -/
def stepKeyed (state : κ → σ) (operation : ι) : Option (κ → σ) :=
  (act operation (state (key operation))).map (Function.update state (key operation))

/-- The operations in order; a failing one ends the run. -/
def runKeyed (state : κ → σ) (operations : List ι) : Option (κ → σ) :=
  operations.foldlM (stepKeyed key act) state

/-- The operations on one key. -/
def runAt (state : σ) (operations : List ι) : Option σ :=
  operations.foldlM (fun s operation => act operation s) state

variable {key act}

@[simp] theorem runAt_nil (state : σ) : runAt act state [] = some state := rfl

@[simp] theorem runAt_cons (state : σ) (operation : ι) (rest : List ι) :
    runAt act state (operation :: rest) = (act operation state).bind fun s => runAt act s rest := rfl

theorem runKeyed_cons (state : κ → σ) (operation : ι) (rest : List ι) :
    runKeyed key act state (operation :: rest) = (act operation (state (key operation))).bind fun s =>
        runKeyed key act (Function.update state (key operation) s) rest := by
  rw [runKeyed, foldlM_cons, stepKeyed]
  cases act operation (state (key operation)) <;> rfl

/-- A run is one run for each key. -/
theorem runKeyed_eq_some_iff {operations : List ι} {state state' : κ → σ} :
    runKeyed key act state operations = some state' ↔
      ∀ k, runAt act (state k) (operations.filter fun operation => key operation = k)
        = some (state' k) := by
  induction operations generalizing state with
  | nil =>
    simp only [runKeyed, foldlM_nil, filter_nil, runAt_nil]
    show some state = some state' ↔ ∀ k, some (state k) = some (state' k)
    simp only [Option.some.injEq, funext_iff]
  | cons operation rest ih =>
    rw [runKeyed_cons]
    cases hact : act operation (state (key operation)) with
    | none =>
      refine iff_of_false (fun h => nomatch h) fun h => ?_
      have hkey := h (key operation)
      rw [filter_cons_of_pos (by simp), runAt_cons, hact] at hkey
      cases hkey
    | some s =>
      rw [Option.bind_some, ih]
      refine forall_congr' fun k => ?_
      by_cases hk : key operation = k
      · subst hk
        rw [Function.update_self, filter_cons_of_pos (by simp), runAt_cons, hact,
          Option.bind_some]
      · rw [Function.update_of_ne (Ne.symm hk), filter_cons_of_neg (by simpa using hk)]

/-! ## Distinct keys -/

variable {α β : Type*}

variable {l : List α} {f : α → κ}

/-- Among distinct keys, a key finds its one element. -/
theorem filter_key_eq (hnodup : (l.map f).Nodup) {a : α} (ha : a ∈ l) :
    (l.filter fun b => f b = f a) = [a] := by
  induction l with
  | nil => cases ha
  | cons b rest ih =>
    rw [map_cons, nodup_cons] at hnodup
    obtain ⟨hb, hrest⟩ := hnodup
    rcases mem_cons.mp ha with rfl | ha
    · rw [filter_cons_of_pos (by simp), filter_eq_nil_iff.mpr]
      intro c hc
      simp only [decide_eq_true_eq]
      exact fun heq => hb (heq ▸ mem_map_of_mem hc)
    · have hne : ¬ f b = f a := fun heq => hb (heq ▸ mem_map_of_mem ha)
      rw [filter_cons_of_neg (by simpa using hne), ih hrest ha]

theorem filter_key_eq_nil {k : κ} (h : k ∉ l.map f) : (l.filter fun b => f b = k) = [] := by
  refine filter_eq_nil_iff.mpr fun b hb => ?_
  simp only [decide_eq_true_eq]
  exact fun heq => h (heq ▸ mem_map_of_mem hb)

variable {g : α → Option β}

/-- What a list makes for a key is what the elements with that key make. -/
theorem filter_filterMap_key {h : β → κ} (hkey : ∀ a b, g a = some b → h b = f a) (l : List α) (k : κ) :
    ((l.filterMap g).filter fun b => h b = k) = (l.filter fun a => f a = k).filterMap g := by
  induction l with
  | nil => rfl
  | cons a rest ih =>
    rw [filterMap_cons]
    by_cases hk : f a = k
    · rw [filter_cons_of_pos (by simpa using hk), filterMap_cons, ← ih]
      cases hg : g a with
      | none => rfl
      | some b =>
        exact filter_cons_of_pos (by simpa using (hkey a b hg).trans hk)
    · rw [filter_cons_of_neg (by simpa using hk), ← ih]
      cases hg : g a with
      | none => rfl
      | some b =>
        exact filter_cons_of_neg (by simpa [hkey a b hg] using hk)

theorem filter_filterMap_key_eq {h : β → κ}
    (hkey : ∀ a b, g a = some b → h b = f a) (hnodup : (l.map f).Nodup) {a : α}
    (ha : a ∈ l) : ((l.filterMap g).filter fun b => h b = f a) = (g a).toList := by
  rw [filter_filterMap_key hkey, filter_key_eq hnodup ha, filterMap_cons]
  cases g a <;> rfl

theorem filter_filterMap_key_eq_nil {h : β → κ}
    (hkey : ∀ a b, g a = some b → h b = f a) {k : κ} (hk : k ∉ l.map f) :
    ((l.filterMap g).filter fun b => h b = k) = [] := by
  rw [filter_filterMap_key hkey, filter_key_eq_nil hk, filterMap_nil]

end Taomni
