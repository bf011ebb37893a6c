import Mathlib.Data.List.Basic
import Mathlib.Data.Set.Lattice

/-!
# Decoders over growing input

A `Decoder` reads its input at a position, writes as it goes and may fail; the position and what was
written survive a failure. `PrefixSafe` says when such a decoder may be started before all input is
there: on a prefix it does what it does on the whole input, or it fails with an error that says so and
has written nothing but the beginning of what it writes on the whole input. Writes that are made twice
are harmless (`paint_paint`).
-/

namespace Taomni

open List

/-! ## Decoders -/

/-- What a decoder did: result, position reached, and writes in order. -/
structure Decoded (ε ω α : Type) where
  result : Except ε α
  pos : ℕ
  log : List ω

/-- A decoder with input symbols `β`, errors `ε` and writes `ω`. -/
def Decoder (β ε ω α : Type) := List β → ℕ → Decoded ε ω α

variable {ι : Type}

variable (l : List ι)

namespace Decoder

variable {β ε ω α γ : Type}

protected def pure (a : α) : Decoder β ε ω α := fun _ pos => ⟨.ok a, pos, []⟩

protected def bind (m : Decoder β ε ω α) (f : α → Decoder β ε ω γ) : Decoder β ε ω γ :=
  fun input pos =>
    match m input pos with
    | ⟨.error e, pos, log⟩ => ⟨.error e, pos, log⟩
    | ⟨.ok a, pos, log⟩ => ⟨(f a input pos).result, (f a input pos).pos, log ++ (f a input pos).log⟩

instance : Monad (Decoder β ε ω) where
  pure := Decoder.pure
  bind := Decoder.bind

def fail (e : ε) : Decoder β ε ω α := fun _ pos => ⟨.error e, pos, []⟩

def write (log : List ω) : Decoder β ε ω Unit := fun _ pos => ⟨.ok (), pos, log⟩

/-- The symbol at the position, or the error `short`. -/
def next (short : ε) : Decoder β ε ω β := fun input pos =>
  match input[pos]? with
  | some b => ⟨.ok b, pos + 1, []⟩
  | none => ⟨.error short, pos, []⟩

/-- The next `count` symbols, or the error `short` if there are fewer. -/
def slice (count : ℕ) (short : ε) : Decoder β ε ω (List β) := fun input pos =>
  if pos + count ≤ input.length then ⟨.ok ((input.drop pos).take count), pos + count, []⟩
  else ⟨.error short, pos, []⟩

/-- A value that may be missing. -/
def ofOption (e : ε) : Option α → Decoder β ε ω α
  | some a => Decoder.pure a
  | none => fail e

/-! ## Bind, by the result of the first decoder -/

theorem bind_of_error {m : Decoder β ε ω α} (f : α → Decoder β ε ω γ) {input : List β} {pos : ℕ}
    {e : ε} (h : (m input pos).result = .error e) :
    (m >>= f) input pos = ⟨.error e, (m input pos).pos, (m input pos).log⟩ := by
  change Decoder.bind m f input pos = _
  rw [Decoder.bind]
  generalize m input pos = d at h
  obtain ⟨result, pos', log⟩ := d
  subst h
  rfl

theorem bind_of_ok {m : Decoder β ε ω α} (f : α → Decoder β ε ω γ) {input : List β} {pos : ℕ} {a : α}
    (h : (m input pos).result = .ok a) :
    (m >>= f) input pos = ⟨(f a input (m input pos).pos).result, (f a input (m input pos).pos).pos,
      (m input pos).log ++ (f a input (m input pos).pos).log⟩ := by
  change Decoder.bind m f input pos = _
  rw [Decoder.bind]
  generalize m input pos = d at h
  obtain ⟨result, pos', log⟩ := d
  subst h
  rfl

variable {f : α → Decoder β ε ω γ}

/-- A bind succeeds if both decoders do. -/
theorem bind_result_eq_ok {m : Decoder β ε ω α} {input : List β} {pos : ℕ}
    {c : γ} (h : ((m >>= f) input pos).result = .ok c) :
    ∃ a, (m input pos).result = .ok a ∧ (f a input (m input pos).pos).result = .ok c := by
  cases hm : (m input pos).result with
  | error e =>
    rw [bind_of_error f hm] at h
    cases h
  | ok a =>
    rw [bind_of_ok f hm] at h
    exact ⟨a, rfl, h⟩

/-- What follows a decoder matters only for the values it can return. -/
theorem bind_congr {m : Decoder β ε ω α} {g : α → Decoder β ε ω γ}
    (h : ∀ input pos a, (m input pos).result = .ok a → f a = g a) : m >>= f = m >>= g := by
  funext input pos
  cases hm : (m input pos).result with
  | error e => rw [bind_of_error f hm, bind_of_error g hm]
  | ok a => rw [bind_of_ok f hm, bind_of_ok g hm, h input pos a hm]

/-- What the first decoder wrote stays written. -/
theorem log_prefix_bind (m : Decoder β ε ω α) (f : α → Decoder β ε ω γ) (input : List β) (pos : ℕ) :
    (m input pos).log <+: ((m >>= f) input pos).log := by
  cases h : (m input pos).result with
  | error e =>
    simp only [bind_of_error f h, prefix_refl]
  | ok a =>
    rw [bind_of_ok f h]
    exact prefix_append _ _

/-! ## Decoders that may start early -/

section PrefixSafe

variable (short : ε → Prop)

/-- On a prefix of the input the decoder does what it does on all of it, or it fails with a `short`
error and has only begun to write. -/
def PrefixSafe (m : Decoder β ε ω α) : Prop :=
  ∀ ⦃available input : List β⦄, available <+: input → ∀ pos, m available pos = m input pos ∨
    ∃ e, (m available pos).result = .error e ∧ short e ∧ (m available pos).log <+: (m input pos).log

variable {short}

theorem prefixSafe_pure (a : α) : PrefixSafe short (pure a : Decoder β ε ω α) :=
  fun _ _ _ _ => .inl rfl

theorem prefixSafe_fail (e : ε) : PrefixSafe short (fail e : Decoder β ε ω α) :=
  fun _ _ _ _ => .inl rfl

theorem prefixSafe_write (log : List ω) : PrefixSafe short (write log : Decoder β ε ω Unit) :=
  fun _ _ _ _ => .inl rfl

theorem prefixSafe_next {e : ε} (he : short e) : PrefixSafe short (next e : Decoder β ε ω β) := by
  rintro available _ ⟨rest, rfl⟩ pos
  by_cases hpos : pos < available.length
  · left
    rw [next, next, getElem?_append_left hpos]
  · right
    rw [next, getElem?_eq_none (Nat.not_lt.mp hpos)]
    exact ⟨e, rfl, he, nil_prefix⟩

theorem prefixSafe_slice (count : ℕ) {e : ε} (he : short e) :
    PrefixSafe short (slice count e : Decoder β ε ω (List β)) := by
  rintro available _ ⟨rest, rfl⟩ pos
  by_cases hcount : pos + count ≤ available.length
  · left
    rw [slice, slice, if_pos hcount, if_pos (by rw [length_append]; omega),
      drop_append_of_le_length (by omega),
      take_append_of_le_length (by rw [length_drop]; omega)]
  · right
    rw [slice, if_neg hcount]
    exact ⟨e, rfl, he, nil_prefix⟩

theorem PrefixSafe.bind {m : Decoder β ε ω α} (hm : PrefixSafe short m)
    (hf : ∀ a, PrefixSafe short (f a)) : PrefixSafe short (m >>= f) := by
  intro available input hprefix pos
  rcases hm hprefix pos with heq | ⟨e, hresult, he, hlog⟩
  · cases hresult : (m input pos).result with
    | error e =>
      left
      rw [bind_of_error f hresult, bind_of_error f (heq ▸ hresult), heq]
    | ok a =>
      rw [bind_of_ok f hresult, bind_of_ok f (heq ▸ hresult), heq]
      rcases hf a hprefix (m input pos).pos with hnext | ⟨e, hresult', he, hlog⟩
      · left
        rw [hnext]
      · exact .inr ⟨e, hresult', he, prefix_append_right_inj _ |>.mpr hlog⟩
  · right
    rw [bind_of_error f hresult]
    exact ⟨e, rfl, he, hlog.trans (log_prefix_bind m f input pos)⟩

theorem PrefixSafe.ite {p : Prop} [Decidable p] {m m' : Decoder β ε ω α} (h : PrefixSafe short m)
    (h' : PrefixSafe short m') : PrefixSafe short (if p then m else m') := by
  split
  · exact h
  · exact h'

theorem PrefixSafe.forM {f : ι → Decoder β ε ω PUnit}
    (hf : ∀ i ∈ l, PrefixSafe short (f i)) : PrefixSafe short (forM l f) := by
  induction l with
  | nil => exact prefixSafe_pure _
  | cons i l ih =>
    rw [forM_cons]
    exact (hf i mem_cons_self).bind fun _ => ih fun j hj => hf j (mem_cons_of_mem i hj)

end PrefixSafe

end Decoder

/-! ## Writes into a list -/

/-- The writes, made in order. -/
def paint {α : Type} (out : List α) (log : List (ℕ × α)) : List α :=
  log.foldl (fun out w => out.set w.1 w.2) out

section Paint

variable {α : Type}

theorem paint_append (out : List α) (log more : List (ℕ × α)) :
    paint out (log ++ more) = paint (paint out log) more := foldl_append

theorem length_paint (out : List α) (log : List (ℕ × α)) : (paint out log).length = out.length := by
  induction log generalizing out with
  | nil => rfl
  | cons w log ih => exact (ih _).trans length_set

theorem getElem?_paint_of_forall_ne {log : List (ℕ × α)} {i : ℕ} (h : ∀ w ∈ log, w.1 ≠ i)
    (out : List α) : (paint out log)[i]? = out[i]? := by
  induction log generalizing out with
  | nil => rfl
  | cons w log ih =>
    refine (ih (fun v hv => h v (mem_cons_of_mem w hv)) _).trans ?_
    exact getElem?_set_ne (h w mem_cons_self)

/-- Lists that differ only where something is written become equal. -/
theorem paint_congr {out out' : List α} {log : List (ℕ × α)} (hlength : out.length = out'.length)
    (h : ∀ i, (∀ w ∈ log, w.1 ≠ i) → out[i]? = out'[i]?) : paint out log = paint out' log := by
  induction log generalizing out out' with
  | nil => exact ext_getElem? fun i => h i fun _ hw => absurd hw not_mem_nil
  | cons w log ih =>
    refine ih (by rw [length_set, length_set, hlength]) fun i hi => ?_
    by_cases heq : w.1 = i
    · subst heq
      rw [getElem?_set, getElem?_set, hlength, if_pos rfl, if_pos rfl]
    · rw [getElem?_set_ne heq, getElem?_set_ne heq]
      exact h i (forall_mem_cons.mpr ⟨heq, hi⟩)

/-- Starting over after a part of the writes changes nothing. -/
theorem paint_paint {log begun : List (ℕ × α)} (h : begun <+: log) (out : List α) :
    paint (paint out begun) log = paint out log := by
  obtain ⟨rest, rfl⟩ := h
  refine paint_congr (length_paint out begun) fun i hi => ?_
  exact getElem?_paint_of_forall_ne (fun w hw => hi w (mem_append_left rest hw)) out

end Paint

/-!
# Decoders that write a region

A decoder that `Paints` a region writes nowhere else, and when it succeeds it has written all of it.
What it leaves behind on the region then does not depend on what was there (`paint_eq_of_paints`). The
rules follow the decoder's structure: what two decoders paint one after the other is the union.
-/

namespace Decoder

variable {β ε α γ δ : Type}

/-- Every write is in the region, whether or not the decoder succeeds. -/
def Confined (region : Set ℕ) (m : Decoder β ε (ℕ × α) γ) : Prop :=
  ∀ input pos, ∀ w ∈ (m input pos).log, w.1 ∈ region

/-- Every write is in the region, and success has written all of it. -/
structure Paints (region : Set ℕ) (m : Decoder β ε (ℕ × α) γ) : Prop where
  confined : Confined region m
  covers : ∀ input pos c, (m input pos).result = .ok c →
    ∀ i ∈ region, ∃ w ∈ (m input pos).log, w.1 = i

/-- The decoder can return `c`. -/
def Returns (m : Decoder β ε (ℕ × α) γ) (c : γ) : Prop :=
  ∃ input pos, (m input pos).result = .ok c

variable {f : γ → Decoder β ε (ℕ × α) δ}

section Returns

variable {m : Decoder β ε (ℕ × α) γ}

theorem returns_pure {c c' : γ} (h : Returns (pure c : Decoder β ε (ℕ × α) γ) c') : c' = c := by
  obtain ⟨input, pos, h⟩ := h
  exact (Except.ok.inj h).symm

theorem not_returns_fail {e : ε} {c : γ} : ¬ Returns (fail e : Decoder β ε (ℕ × α) γ) c := by
  rintro ⟨input, pos, h⟩
  cases h

theorem returns_bind {d : δ} (h : Returns (m >>= f) d) : ∃ c, Returns m c ∧ Returns (f c) d := by
  obtain ⟨input, pos, h⟩ := h
  obtain ⟨c, hc, hd⟩ := bind_result_eq_ok h
  exact ⟨c, ⟨input, pos, hc⟩, input, _, hd⟩

end Returns

section Confined

variable {region : Set ℕ}

theorem confined_pure (c : γ) : Confined region (pure c : Decoder β ε (ℕ × α) γ) :=
  fun _ _ _ hw => absurd hw not_mem_nil

theorem confined_fail (e : ε) : Confined region (fail e : Decoder β ε (ℕ × α) γ) :=
  fun _ _ _ hw => absurd hw not_mem_nil

theorem log_next (e : ε) (input : List β) (pos : ℕ) :
    ((next e : Decoder β ε (ℕ × α) β) input pos).log = [] := by
  rw [next]
  split <;> rfl

theorem log_slice (count : ℕ) (e : ε) (input : List β) (pos : ℕ) :
    ((slice count e : Decoder β ε (ℕ × α) (List β)) input pos).log = [] := by
  rw [slice]
  split <;> rfl

theorem returns_slice {count : ℕ} {e : ε} {piece : List β}
    (h : Returns (slice count e : Decoder β ε (ℕ × α) (List β)) piece) : piece.length = count := by
  obtain ⟨input, pos, h⟩ := h
  rw [slice] at h
  split at h
  · rw [← Except.ok.inj h, length_take, length_drop]
    omega
  · cases h

theorem confined_next (e : ε) : Confined region (next e : Decoder β ε (ℕ × α) β) := by
  intro input pos w hw
  rw [log_next] at hw
  exact absurd hw not_mem_nil

theorem confined_slice (count : ℕ) (e : ε) :
    Confined region (slice count e : Decoder β ε (ℕ × α) (List β)) := by
  intro input pos w hw
  rw [log_slice] at hw
  exact absurd hw not_mem_nil

theorem confined_ofOption (e : ε) (c? : Option γ) :
    Confined region (ofOption e c? : Decoder β ε (ℕ × α) γ) := by
  cases c? with
  | some c => exact confined_pure c
  | none => exact confined_fail e

theorem returns_ofOption {e : ε} {c? : Option γ} {c : γ}
    (h : Returns (ofOption e c? : Decoder β ε (ℕ × α) γ) c) : c? = some c := by
  obtain ⟨input, pos, h⟩ := h
  cases c? with
  | some c' => exact congrArg some (Except.ok.inj h)
  | none => cases h

theorem confined_write {log : List (ℕ × α)} (h : ∀ w ∈ log, w.1 ∈ region) :
    Confined region (write log : Decoder β ε (ℕ × α) Unit) := fun _ _ => h

theorem Confined.bind {m : Decoder β ε (ℕ × α) γ}
    (hm : Confined region m) (hf : ∀ c, Returns m c → Confined region (f c)) :
    Confined region (m >>= f) := by
  intro input pos w hw
  cases hresult : (m input pos).result with
  | error e =>
    rw [bind_of_error f hresult] at hw
    exact hm input pos w hw
  | ok c =>
    rw [bind_of_ok f hresult, mem_append] at hw
    rcases hw with hw | hw
    · exact hm input pos w hw
    · exact hf c ⟨input, pos, hresult⟩ input _ w hw

theorem Confined.ite {p : Prop} [Decidable p] {m m' : Decoder β ε (ℕ × α) γ} (h : Confined region m)
    (h' : Confined region m') : Confined region (if p then m else m') := by
  split
  · exact h
  · exact h'

theorem Confined.forM {f : ι → Decoder β ε (ℕ × α) PUnit}
    (hf : ∀ i ∈ l, Confined region (f i)) : Confined region (forM l f) := by
  induction l with
  | nil => exact confined_pure _
  | cons i l ih =>
    rw [forM_cons]
    exact (hf i mem_cons_self).bind fun _ _ => ih fun j hj => hf j (mem_cons_of_mem i hj)

theorem Confined.mono {wider : Set ℕ} {m : Decoder β ε (ℕ × α) γ} (h : Confined region m)
    (hsub : region ⊆ wider) : Confined wider m := fun input pos w hw => hsub (h input pos w hw)

end Confined

section Paints

variable {region more : Set ℕ}

/-- A decoder that writes nothing. -/
theorem Confined.paints_empty {m : Decoder β ε (ℕ × α) γ} (h : Confined ∅ m) : Paints ∅ m :=
  ⟨h, fun _ _ _ _ i hi => absurd hi (Set.notMem_empty i)⟩

theorem paints_fail (e : ε) : Paints region (fail e : Decoder β ε (ℕ × α) γ) :=
  ⟨confined_fail e, nofun⟩

theorem paints_write {log : List (ℕ × α)} (h : ∀ i, i ∈ region ↔ ∃ w ∈ log, w.1 = i) :
    Paints region (write log : Decoder β ε (ℕ × α) Unit) :=
  ⟨confined_write fun w hw => (h w.1).mpr ⟨w, hw, rfl⟩, fun _ _ _ _ i hi => (h i).mp hi⟩

theorem Paints.ite {p : Prop} [Decidable p] {m m' : Decoder β ε (ℕ × α) γ} (h : p → Paints region m)
    (h' : ¬ p → Paints region m') : Paints region (if p then m else m') := by
  split
  · next hp => exact h hp
  · next hp => exact h' hp

/-- One decoder after the other paints what both paint. -/
theorem Paints.bind {m : Decoder β ε (ℕ × α) γ}
    (hm : Paints region m) (hf : ∀ c, Returns m c → Paints more (f c)) :
    Paints (region ∪ more) (m >>= f) := by
  refine ⟨?_, fun input pos d hd i hi => ?_⟩
  · exact (hm.confined.mono Set.subset_union_left).bind fun c hc =>
      (hf c hc).confined.mono Set.subset_union_right
  · obtain ⟨c, hc, hd⟩ := bind_result_eq_ok hd
    rw [bind_of_ok f hc]
    rcases hi with hi | hi
    · obtain ⟨w, hw, hwi⟩ := hm.covers input pos c hc i hi
      exact ⟨w, mem_append_left _ hw, hwi⟩
    · obtain ⟨w, hw, hwi⟩ := (hf c ⟨input, pos, hc⟩).covers input _ d hd i hi
      exact ⟨w, mem_append_right _ hw, hwi⟩

/-- Reading first. -/
theorem Paints.of_reads {m : Decoder β ε (ℕ × α) γ}
    (hm : Confined ∅ m) (hf : ∀ c, Returns m c → Paints region (f c)) : Paints region (m >>= f) := by
  rw [← Set.empty_union region]
  exact hm.paints_empty.bind hf

/-- More writes inside of what is painted already. -/
theorem Paints.then_confined {m : Decoder β ε (ℕ × α) γ}
    (hm : Paints region m) (hf : ∀ c, Returns m c → Confined region (f c)) :
    Paints region (m >>= f) := by
  refine ⟨hm.confined.bind hf, fun input pos d hd i hi => ?_⟩
  obtain ⟨c, hc, -⟩ := bind_result_eq_ok hd
  obtain ⟨w, hw, hwi⟩ := hm.covers input pos c hc i hi
  rw [bind_of_ok f hc]
  exact ⟨w, mem_append_left _ hw, hwi⟩

theorem iUnion_nil (r : ι → Set ℕ) : (⋃ i ∈ ([] : List ι), r i) = ∅ := by simp

theorem iUnion_cons (r : ι → Set ℕ) (i : ι) (l : List ι) : (⋃ j ∈ i :: l, r j) = r i ∪ ⋃ j ∈ l, r j := by
  simp only [mem_cons, Set.iUnion_iUnion_eq_or_left]

theorem Paints.forM {f : ι → Decoder β ε (ℕ × α) PUnit} {r : ι → Set ℕ}
    (hf : ∀ i ∈ l, Paints (r i) (f i)) : Paints (⋃ i ∈ l, r i) (forM l f) := by
  induction l with
  | nil =>
    rw [iUnion_nil]
    exact (confined_pure _).paints_empty
  | cons i l ih =>
    rw [forM_cons, iUnion_cons]
    exact (hf i mem_cons_self).bind fun _ _ => ih fun j hj => hf j (mem_cons_of_mem i hj)

end Paints

end Decoder

/-- Nothing of the old contents shows through. -/
theorem paint_eq_of_covers {α : Type} {out out' : List α} {log : List (ℕ × α)}
    (hlength : out.length = out'.length) (h : ∀ i < out.length, ∃ w ∈ log, w.1 = i) :
    paint out log = paint out' log := by
  refine paint_congr hlength fun i hi => ?_
  have hbeyond : out.length ≤ i := by
    by_contra hlt
    obtain ⟨w, hw, hwi⟩ := h i (Nat.not_le.mp hlt)
    exact hi w hw hwi
  rw [getElem?_eq_none hbeyond, getElem?_eq_none (hlength ▸ hbeyond)]

end Taomni
