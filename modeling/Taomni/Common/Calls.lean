import Mathlib.Data.List.Basic
import Mathlib.Logic.Function.Basic
import Mathlib.Logic.Relation

/-!
# Programs that make calls

A program makes calls to an environment one after the other, and the result of each decides how it
goes on. The environment is a relation, so that a call may fail where it likes. Several programs share
an environment call by call (`Interleaves`), or one after the other behind a lock (`Exclusive`), where
every run is one of whole programs (`Exclusive.serial`).
-/

namespace Taomni

open Function (update_idem update_of_ne update_self)

inductive Calls (Op : Type) (Res : Op → Type) (α : Type) where
  | done (value : α)
  | call (op : Op) (next : Res op → Calls Op Res α)

namespace Calls

variable {Op : Type} {Res : Op → Type} {α β σ ι : Type}

def bind : Calls Op Res α → (α → Calls Op Res β) → Calls Op Res β
  | done value, f => f value
  | call op next, f => call op fun result => (next result).bind f

instance : Monad (Calls Op Res) where
  pure := done
  bind := bind

/-- What the environment may do with a call. -/
abbrev Environment (Op : Type) (Res : Op → Type) (σ : Type) :=
  (op : Op) → σ → Res op → σ → Prop

variable (step : Environment Op Res σ)

/-! ## One program -/

inductive Runs : Calls Op Res α → σ → α → σ → Prop where
  | done {value : α} {s : σ} : Runs (done value) s value s
  | call {op : Op} {next : Res op → Calls Op Res α} {s s' s'' : σ} {result : Res op} {value : α}
      (hstep : step op s result s') (hrest : Runs (next result) s' value s'') :
      Runs (call op next) s value s''

variable {value : α}

theorem Runs.bind {step : Environment Op Res σ} {p : Calls Op Res α} {f : α → Calls Op Res β}
    {s m s' : σ} {value' : β} (hrun : Runs step p s value m)
    (hrest : Runs step (f value) m value' s') : Runs step (p.bind f) s value' s' := by
  induction hrun with
  | done => exact hrest
  | call hstep _ ih => exact .call hstep (ih hrest)

/-- However the calls turn out, the program ends with this. -/
def Ensures (p : Calls Op Res α) (s : σ) (post : α → σ → Prop) : Prop :=
  ∀ value s', Runs step p s value s' → post value s'

variable {step} {p : Calls Op Res α} {s : σ}

namespace Ensures

theorem done {value : α} {post : α → σ → Prop} (h : post value s) :
    Ensures step (done value) s post := by
  intro value' s' hrun
  cases hrun
  exact h

theorem call {op : Op} {next : Res op → Calls Op Res α} {post : α → σ → Prop}
    (h : ∀ result s', step op s result s' → Ensures step (next result) s' post) :
    Ensures step (call op next) s post := by
  intro value s'' hrun
  cases hrun with
  | call hstep hrest => exact h _ _ hstep value s'' hrest

theorem mono {post post' : α → σ → Prop} (h : Ensures step p s post)
    (himp : ∀ value s', post value s' → post' value s') : Ensures step p s post' :=
  fun value s' hrun => himp value s' (h value s' hrun)

theorem bind {f : α → Calls Op Res β} {post : β → σ → Prop}
    (h : Ensures step p s fun value s' => Ensures step (f value) s' post) :
    Ensures step (p.bind f) s post := by
  induction p generalizing s with
  | done value => exact h value s .done
  | call op next ih =>
    refine call fun result s' hstep => ih result ?_
    exact fun value s'' hrest => h value s'' (.call hstep hrest)

end Ensures

/-! ## Many programs -/

variable [DecidableEq ι] (step)

/-- One of the programs makes its next call. -/
inductive Interleaves : (ι → Calls Op Res α) × σ → (ι → Calls Op Res α) × σ → Prop where
  | call {threads : ι → Calls Op Res α} {s s' : σ} (i : ι) {op : Op}
      {next : Res op → Calls Op Res α} {result : Res op} (hnext : threads i = .call op next)
      (hstep : step op s result s') :
      Interleaves (threads, s) (Function.update threads i (next result), s')

variable {step}

variable {threads : ι → Calls Op Res α}

/-- While the others wait, a program can run to its end. -/
theorem Runs.interleaves {s' : σ} (hrun : Runs step p s value s') (i : ι) (hi : threads i = p) :
    Relation.ReflTransGen (Interleaves step) (threads, s)
      (Function.update threads i (.done value), s') := by
  induction hrun generalizing threads with
  | done => rw [← hi, Function.update_eq_self]
  | call hstep hrest ih =>
    have hfirst : Interleaves step _ _ := .call i hi hstep
    have hothers := ih (update_self i _ threads)
    rw [update_idem] at hothers
    exact .head hfirst hothers

/-- Between a program's first call and its next one, another one can run to its end. -/
theorem Runs.overtaken {i j : ι} (hij : i ≠ j) {op : Op}
    {next : Res op → Calls Op Res α} {result : Res op} {m m' s' : σ} {value' : α}
    (hi : threads i = .call op next) (hstep : step op s result m)
    (hother : Runs step (threads j) m value' m') (hrest : Runs step (next result) m' value s') :
    Relation.ReflTransGen (Interleaves step) (threads, s)
      (Function.update (Function.update threads j (.done value')) i (.done value), s') := by
  have hfirst : Interleaves step (threads, s) (Function.update threads i (next result), m) :=
    .call i hi hstep
  have hsecond := hother.interleaves j (update_of_ne hij.symm (next result) threads)
  rw [Function.update_comm hij] at hsecond
  have hlast := hrest.interleaves i
    (update_self i (next result) (Function.update threads j (.done value')))
  rw [update_idem] at hlast
  exact .head hfirst (hsecond.trans hlast)

/-! ## One lock -/

inductive Phase (Op : Type) (Res : Op → Type) (α : Type) where
  | waiting
  | inside (rest : Calls Op Res α)
  | finished (value : α)

def Phase.IsInside : Phase Op Res α → Prop
  | inside _ => True
  | _ => False

variable (step) (program : ι → Calls Op Res α)

/-- The programs run behind one lock: one enters only while none is inside. -/
inductive Exclusive : (ι → Phase Op Res α) × σ → (ι → Phase Op Res α) × σ → Prop where
  | enter {phases : ι → Phase Op Res α} {s : σ} (i : ι) (hwaits : phases i = .waiting)
      (hfree : ∀ j, ¬(phases j).IsInside) :
      Exclusive (phases, s) (Function.update phases i (.inside (program i)), s)
  | call {phases : ι → Phase Op Res α} {s s' : σ} (i : ι) {op : Op}
      {next : Res op → Calls Op Res α} {result : Res op}
      (hinside : phases i = .inside (.call op next)) (hstep : step op s result s') :
      Exclusive (phases, s) (Function.update phases i (.inside (next result)), s')
  | leave {phases : ι → Phase Op Res α} {s : σ} (i : ι) {value : α}
      (hinside : phases i = .inside (.done value)) :
      Exclusive (phases, s) (Function.update phases i (.finished value), s)

variable {step} {program} in
/-- A program that enters can run to its end and leave. -/
theorem Runs.exclusive {phases : ι → Phase Op Res α} {i : ι} {s' : σ}
    (hrun : Runs step (program i) s value s') (hwaits : phases i = .waiting)
    (hfree : ∀ j, ¬(phases j).IsInside) : Relation.ReflTransGen (Exclusive step program) (phases, s)
      (Function.update phases i (.finished value), s') := by
  have henter : Exclusive step program (phases, s) _ := .enter i hwaits hfree
  refine .head henter ?_
  clear henter
  generalize program i = rest at hrun
  induction hrun with
  | @done value s =>
    have hleave : Exclusive step program (Function.update phases i (.inside (.done value)), s) _ :=
      .leave i (update_self ..)
    rw [update_idem] at hleave
    exact .single hleave
  | @call op next s m s'' result value hstep hrest ih =>
    have hcall : Exclusive step program
        (Function.update phases i (.inside (.call op next)), s) _ :=
      .call i (update_self ..) hstep
    rw [update_idem] at hcall
    exact .head hcall ih

/-- Whole programs one after the other, with what they return. -/
inductive Serial : List (ι × α) → σ → σ → Prop where
  | nil {s : σ} : Serial [] s s
  | snoc {log : List (ι × α)} {s m s' : σ} {i : ι} {value : α} (hlog : Serial log s m)
      (hfresh : ∀ value, (i, value) ∉ log) (hrun : Runs step (program i) m value s') :
      Serial (log ++ [(i, value)]) s s'

/-- The programs that are finished have run one after the other; one may be running. -/
inductive InOrder (log : List (ι × α)) (s : σ) : (ι → Phase Op Res α) × σ → Prop where
  | free {phases : ι → Phase Op Res α} {m : σ} (hlog : Serial step program log s m)
      (hfinished : ∀ i value, phases i = .finished value ↔ (i, value) ∈ log)
      (hfree : ∀ j, ¬(phases j).IsInside) : InOrder log s (phases, m)
  | running {phases : ι → Phase Op Res α} {m s' : σ} (i : ι) {rest : Calls Op Res α}
      (hlog : Serial step program log s m)
      (hfinished : ∀ i value, phases i = .finished value ↔ (i, value) ∈ log)
      (hinside : phases i = .inside rest) (halone : ∀ j, (phases j).IsInside → j = i)
      (hrest : ∀ value s'', Runs step rest s' value s'' → Runs step (program i) m value s'') :
      InOrder log s (phases, s')

variable {step} {program} {log : List (ι × α)} {phases : ι → Phase Op Res α}

theorem update_finished_iff {i : ι} {phase : Phase Op Res α} (hold : ∀ value, phases i ≠ .finished value)
    (hnew : ∀ value, phase ≠ .finished value) (j : ι) (value : α) :
    Function.update phases i phase j = .finished value ↔ phases j = .finished value := by
  by_cases hj : j = i
  · rw [hj, update_self]
    exact iff_of_false (hnew value) (hold value)
  · rw [update_of_ne hj]

theorem update_inside {i : ι} {phase : Phase Op Res α} (halone : ∀ j, (phases j).IsInside → j = i)
    (j : ι) (hj : (Function.update phases i phase j).IsInside) : j = i := by
  by_contra hne
  rw [update_of_ne hne] at hj
  exact hne (halone j hj)

theorem InOrder.next {c c' : (ι → Phase Op Res α) × σ} (h : InOrder step program log s c)
    (hstep : Exclusive step program c c') : ∃ log', InOrder step program log' s c' := by
  cases hstep with
  | @enter phases m i hwaits hfree =>
    cases h with
    | free hlog hfinished _ =>
      refine ⟨log, .running i hlog (fun j value => ?_) (update_self ..)
        (update_inside fun j hj => absurd hj (hfree j)) fun _ _ hrun => hrun⟩
      rw [update_finished_iff (by rw [hwaits]; exact nofun) nofun, hfinished]
    | running i' _ _ hinside _ _ =>
      refine absurd ?_ (hfree i')
      rw [hinside]
      trivial
  | @call phases m s' i op next result hinside hcall =>
    have hi : (phases i).IsInside := by
      rw [hinside]
      trivial
    cases h with
    | free _ _ hfree => exact absurd hi (hfree i)
    | running i' hlog hfinished hinside' halone hrest =>
      obtain rfl := halone i hi
      cases hinside.symm.trans hinside'
      refine ⟨log, .running i hlog (fun j value => ?_) (update_self ..)
        (update_inside halone) fun value s'' hrun => hrest value s'' (.call hcall hrun)⟩
      rw [update_finished_iff (by rw [hinside]; exact nofun) nofun, hfinished]
  | @leave phases m i value hinside =>
    have hi : (phases i).IsInside := by
      rw [hinside]
      trivial
    cases h with
    | free _ _ hfree => exact absurd hi (hfree i)
    | running i' hlog hfinished hinside' halone hrest =>
      obtain rfl := halone i hi
      cases hinside.symm.trans hinside'
      have hfresh (other : α) : (i, other) ∉ log := by
        rw [← hfinished, hinside]
        exact nofun
      refine ⟨log ++ [(i, value)], .free (.snoc hlog hfresh (hrest value m .done))
        (fun j other => ?_) fun j hj => ?_⟩
      · rw [List.mem_append, List.mem_singleton, Prod.mk.injEq]
        by_cases hj : j = i
        · rw [hj, update_self, Phase.finished.injEq, iff_false_intro (hfresh other),
            false_or, and_iff_right rfl, eq_comm]
        · rw [update_of_ne hj, hfinished, iff_false_intro hj, false_and, or_false]
      · have heq := update_inside halone j hj
        rw [heq, update_self] at hj
        exact hj

/-- Behind a lock, every run is one of whole programs. -/
theorem Exclusive.serial {c : (ι → Phase Op Res α) × σ}
    (h : Relation.ReflTransGen (Exclusive step program) (fun _ => .waiting, s) c) :
    ∃ log s', Serial step program log s s' ∧ ∀ i value, c.1 i = .finished value ↔ (i, value) ∈ log := by
  have hinv : ∃ log, InOrder step program log s c := by
    induction h with
    | refl =>
      refine ⟨[], .free .nil (fun i value => ?_) fun _ => id⟩
      exact iff_of_false nofun List.not_mem_nil
    | tail _ hstep ih =>
      obtain ⟨log, hlog⟩ := ih
      exact hlog.next hstep
  obtain ⟨log, hlog⟩ := hinv
  cases hlog with
  | free hlog hfinished _ => exact ⟨log, _, hlog, hfinished⟩
  | running _ hlog hfinished _ _ _ => exact ⟨log, _, hlog, hfinished⟩

end Calls

end Taomni
