import Mathlib.Data.List.Basic

/-!
# Programs that fail or are cut off

A program is a chain of steps over a state. Every step takes the next of a list of choices, which
says whether it does its work, fails, or is where the program is cut off. `Meets` states what holds
however a program ends; its rules follow the way programs are put together, and `Meets.rerun`
carries an invariant over any number of runs, each of them cut off anywhere.
-/

namespace Taomni

variable {χ σ ε ε' α β γ : Type}

/-- How a program ends. -/
inductive Ending (ε α : Type) where
  | ok (value : α)
  | failed (error : ε)
  | stopped
deriving DecidableEq

/-- A program takes its choices off the front of a list. -/
def Program (χ σ ε α : Type) : Type := List χ → σ → Ending ε α × List χ × σ

namespace Program

protected def pure (a : α) : Program χ σ ε α := fun choices s => (.ok a, choices, s)

protected def bind (p : Program χ σ ε α) (f : α → Program χ σ ε β) : Program χ σ ε β :=
  fun choices s =>
    match p choices s with
    | (.ok a, rest, s') => f a rest s'
    | (.failed e, rest, s') => (.failed e, rest, s')
    | (.stopped, rest, s') => (.stopped, rest, s')

instance : Monad (Program χ σ ε) where
  pure := Program.pure
  bind := Program.bind

/-- Fails without a step. -/
def fail (e : ε) : Program χ σ ε α := fun choices s => (.failed e, choices, s)

/-- Looks at the state without a step. -/
def look (f : σ → α) : Program χ σ ε α := fun choices s => (.ok (f s), choices, s)

/-- One step; where the choices have run out it is the default one. -/
def step [Inhabited χ] (act : χ → σ → Ending ε α × σ) : Program χ σ ε α := fun choices s =>
  ((act (choices.headD default) s).1, choices.tail, (act (choices.headD default) s).2)

/-- An `Except` made elsewhere. -/
def lift : Except ε α → Program χ σ ε α
  | .ok a => pure a
  | .error e => fail e

/-- The program with its error changed. -/
def mapError (g : ε → ε') (p : Program χ σ ε α) : Program χ σ ε' α := fun choices s =>
  match p choices s with
  | (.ok a, rest, s') => (.ok a, rest, s')
  | (.failed e, rest, s') => (.failed (g e), rest, s')
  | (.stopped, rest, s') => (.stopped, rest, s')

/-- Goes on after a failure. -/
def attempt (p : Program χ σ ε α) : Program χ σ ε' (Except ε α) := fun choices s =>
  match p choices s with
  | (.ok a, rest, s') => (.ok (.ok a), rest, s')
  | (.failed e, rest, s') => (.ok (.error e), rest, s')
  | (.stopped, rest, s') => (.stopped, rest, s')

/-- A loop over a list with an accumulator. -/
def fold (f : β → γ → Program χ σ ε β) : β → List γ → Program χ σ ε β
  | b, [] => pure b
  | b, c :: cs => do
    let b' ← f b c
    fold f b' cs

/-- A loop over a list. -/
def forEach (f : γ → Program χ σ ε Unit) : List γ → Program χ σ ε Unit :=
  fold (fun _ c => f c) ()

/-- The state after runs of the program, each with its own choices. -/
def rerun (p : Program χ σ ε α) : List (List χ) → σ → σ
  | [], s => s
  | choices :: runs, s => rerun p runs (p choices s).2.2

end Program

/-! ## What holds however a program ends -/

/-- A postcondition for each way to end. -/
structure Post (σ ε α : Type) where
  ok : α → σ → Prop
  failed : ε → σ → Prop
  stopped : σ → Prop

namespace Post

/-- The postcondition at an ending. -/
def Holds (post : Post σ ε α) : Ending ε α → σ → Prop
  | .ok a, s => post.ok a s
  | .failed e, s => post.failed e s
  | .stopped, s => post.stopped s

/-- `ok` where the program comes to its end, `broken` where it does not. -/
def orElse (ok : α → σ → Prop) (broken : σ → Prop) : Post σ ε α := ⟨ok, fun _ => broken, broken⟩

theorem Holds.mono {post post' : Post σ ε α} (hok : ∀ a s, post.ok a s → post'.ok a s)
    (hfailed : ∀ e s, post.failed e s → post'.failed e s)
    (hstopped : ∀ s, post.stopped s → post'.stopped s) {ending : Ending ε α} {s : σ}
    (h : post.Holds ending s) : post'.Holds ending s := by
  cases ending with
  | ok a => exact hok a s h
  | failed e => exact hfailed e s h
  | stopped => exact hstopped s h

/-- What all ways to end have in common. -/
theorem Holds.elim {post : Post σ ε α} {q : σ → Prop} {ending : Ending ε α} {s : σ}
    (h : post.Holds ending s) (hok : ∀ a, post.ok a s → q s) (hfailed : ∀ e, post.failed e s → q s)
    (hstopped : post.stopped s → q s) : q s := by
  cases ending with
  | ok a => exact hok a h
  | failed e => exact hfailed e h
  | stopped => exact hstopped h

end Post

/-- From a state with `pre`, whatever the choices, the program ends as `post` says. -/
def Meets (pre : σ → Prop) (p : Program χ σ ε α) (post : Post σ ε α) : Prop :=
  ∀ choices s, pre s → post.Holds (p choices s).1 (p choices s).2.2

namespace Meets

variable {pre pre' : σ → Prop} {p : Program χ σ ε α} {post post' : Post σ ε α}

theorem weaken (h : Meets pre p post) (hpre : ∀ s, pre' s → pre s)
    (hok : ∀ a s, post.ok a s → post'.ok a s) (hfailed : ∀ e s, post.failed e s → post'.failed e s)
    (hstopped : ∀ s, post.stopped s → post'.stopped s) : Meets pre' p post' :=
  fun choices s hs => (h choices s (hpre s hs)).mono hok hfailed hstopped

theorem of_exists {ι : Type} {pre : ι → σ → Prop} (h : ∀ i, Meets (pre i) p post) :
    Meets (fun s => ∃ i, pre i s) p post :=
  fun choices s ⟨i, hs⟩ => h i choices s hs

theorem of_imp {q : Prop} (hpre : ∀ s, pre s → q) (h : q → Meets pre p post) : Meets pre p post :=
  fun choices s hs => h (hpre s hs) choices s hs

theorem pure {a : α} (h : ∀ s, pre s → post.ok a s) : Meets pre (Pure.pure a : Program χ σ ε α) post :=
  fun _ s hs => h s hs

theorem fail {e : ε} (h : ∀ s, pre s → post.failed e s) :
    Meets pre (Program.fail e : Program χ σ ε α) post :=
  fun _ s hs => h s hs

theorem look {f : σ → α} (h : ∀ s, pre s → post.ok (f s) s) :
    Meets pre (Program.look f : Program χ σ ε α) post :=
  fun _ s hs => h s hs

theorem step [Inhabited χ] {act : χ → σ → Ending ε α × σ}
    (h : ∀ choice s, pre s → post.Holds (act choice s).1 (act choice s).2) :
    Meets pre (Program.step act) post :=
  fun choices s hs => h (choices.headD default) s hs

theorem lift {x : Except ε α} (hok : ∀ a s, x = .ok a → pre s → post.ok a s)
    (herror : ∀ e s, x = .error e → pre s → post.failed e s) :
    Meets pre (Program.lift x : Program χ σ ε α) post := by
  cases x with
  | ok a => exact Meets.pure fun s hs => hok a s rfl hs
  | error e => exact Meets.fail fun s hs => herror e s rfl hs

theorem bind {f : α → Program χ σ ε β} {post : Post σ ε β} (mid : α → σ → Prop)
    (hp : Meets pre p ⟨mid, post.failed, post.stopped⟩) (hf : ∀ a, Meets (mid a) (f a) post) :
    Meets pre (p >>= f) post := by
  intro choices s hs
  have hmid := hp choices s hs
  show post.Holds (Program.bind p f choices s).1 (Program.bind p f choices s).2.2
  unfold Program.bind
  rcases hrun : p choices s with ⟨_ | _ | _, rest, s'⟩ <;> rw [hrun] at hmid
  · exact hf _ rest s' hmid
  · exact hmid
  · exact hmid

theorem mapError {g : ε → ε'} {post : Post σ ε' α}
    (hp : Meets pre p ⟨post.ok, fun e => post.failed (g e), post.stopped⟩) :
    Meets pre (p.mapError g) post := by
  intro choices s hs
  have h := hp choices s hs
  unfold Program.mapError
  rcases hrun : p choices s with ⟨_ | _ | _, rest, s'⟩ <;> rw [hrun] at h <;> exact h

theorem attempt {post : Post σ ε' (Except ε α)}
    (hp : Meets pre p ⟨fun a => post.ok (.ok a), fun e => post.ok (.error e), post.stopped⟩) :
    Meets pre (p.attempt : Program χ σ ε' (Except ε α)) post := by
  intro choices s hs
  have h := hp choices s hs
  unfold Program.attempt
  rcases hrun : p choices s with ⟨_ | _ | _, rest, s'⟩ <;> rw [hrun] at h <;> exact h

/-- The invariant of a loop speaks of the elements that are done and of the accumulator. -/
theorem fold {f : β → γ → Program χ σ ε β} {cs : List γ} {b : β} {post : Post σ ε β}
    (inv : List γ → β → σ → Prop) (hstart : ∀ s, pre s → inv [] b s)
    (hbody : ∀ front c, c ∈ cs → ∀ b, Meets (inv front b) (f b c)
      ⟨fun b' => inv (front ++ [c]) b', post.failed, post.stopped⟩)
    (hend : ∀ b s, inv cs b s → post.ok b s) : Meets pre (Program.fold f b cs) post := by
  suffices hloop : ∀ front rest b, front ++ rest = cs →
      Meets (inv front b) (Program.fold f b rest) post from
    (hloop [] cs b rfl).weaken hstart (fun _ _ h => h) (fun _ _ h => h) (fun _ h => h)
  intro front rest
  induction rest generalizing front with
  | nil =>
    intro b happend
    rw [List.append_nil] at happend
    subst happend
    exact Meets.pure fun s hs => hend b s hs
  | cons c rest ih =>
    intro b happend
    have hmem : c ∈ cs := happend ▸ List.mem_append_right front List.mem_cons_self
    refine Meets.bind (fun b' => inv (front ++ [c]) b') (hbody front c hmem b) fun b' => ?_
    exact ih (front ++ [c]) b' (by rw [List.append_assoc, List.singleton_append, happend])

theorem forEach {f : γ → Program χ σ ε Unit} {cs : List γ} {post : Post σ ε Unit}
    (inv : List γ → σ → Prop) (hstart : ∀ s, pre s → inv [] s)
    (hbody : ∀ front c, c ∈ cs → Meets (inv front) (f c)
      ⟨fun _ => inv (front ++ [c]), post.failed, post.stopped⟩)
    (hend : ∀ s, inv cs s → post.ok () s) : Meets pre (Program.forEach f cs) post :=
  Meets.fold (fun front _ => inv front) hstart (fun front c hc _ => hbody front c hc)
    fun _ => hend

/-- What every run keeps, however it ends, holds after any number of runs. -/
theorem rerun {inv : σ → Prop} (h : Meets inv p (.orElse (fun _ => inv) inv)) (runs : List (List χ))
    {s : σ} (hs : inv s) : inv (p.rerun runs s) := by
  induction runs generalizing s with
  | nil => exact hs
  | cons choices runs ih =>
    apply ih
    exact (h choices s hs).elim (q := inv) (fun _ h => h) (fun _ h => h) fun h => h

end Meets

end Taomni
