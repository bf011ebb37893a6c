import Mathlib.Data.List.Infix
import Mathlib.Tactic.SplitIfs

/-!
# The input of the Telnet server

The parser drops commands and the LF or NUL after a CR. Its pending CR outlives a byte 255 of the data: an LF or NUL
that follows the CR only after such bytes is dropped as well.

Reference: `src-tauri/src/servers/telnet.rs`, `Telnet::process` and `answer_option`.
-/

namespace Taomni.Servers

/-- The values of `state`, from 0 to 4. -/
inductive TelnetState where
  | data
  | sawIac
  | sawCommand
  | subnegotiation
  | subnegotiationIac

structure Telnet where
  state : TelnetState
  cmd : UInt8
  crPending : Bool

namespace Telnet

abbrev Bytes := List UInt8

/-! ## The parser -/

def iac : UInt8 := 255
def dont : UInt8 := 254
def doOption : UInt8 := 253
def wont : UInt8 := 252
def will : UInt8 := 251
def sb : UInt8 := 250
def se : UInt8 := 240
def optEcho : UInt8 := 1
def optSga : UInt8 := 3
def cr : UInt8 := 13

/-- The bytes that are dropped after a CR. -/
def EndsPair (b : UInt8) : Prop := b = 10 ∨ b = 0

instance : DecidablePred EndsPair := fun _ => inferInstanceAs (Decidable (_ ∨ _))

def answerOption (cmd opt : UInt8) : Bytes :=
  if cmd = doOption then if opt = optEcho ∨ opt = optSga then [] else [iac, wont, opt]
  else if cmd = dont then if opt ≠ optEcho ∧ opt ≠ optSga then [iac, wont, opt] else []
  else if cmd = will ∨ cmd = wont then [iac, dont, opt]
  else []

/-- One byte of `process`, with what it adds to `to_pty` and to `to_sock`. -/
def step (t : Telnet) (b : UInt8) : Telnet × Bytes × Bytes :=
  match t.state with
  | .data =>
    if b = iac then ({ t with state := .sawIac }, [], [])
    else if t.crPending ∧ EndsPair b then ({ t with crPending := false }, [], [])
    else ({ t with crPending := b = cr }, [b], [])
  | .sawIac =>
    if b = doOption ∨ b = dont ∨ b = will ∨ b = wont then ({ t with cmd := b, state := .sawCommand }, [], [])
    else if b = sb then ({ t with state := .subnegotiation }, [], [])
    else if b = iac then ({ t with state := .data }, [iac], [])
    else ({ t with state := .data }, [], [])
  | .sawCommand => ({ t with state := .data }, [], answerOption t.cmd b)
  | .subnegotiation => (if b = iac then { t with state := .subnegotiationIac } else t, [], [])
  | .subnegotiationIac => ({ t with state := if b = se then .data else .subnegotiation }, [], [])

def process (t : Telnet) : Bytes → Telnet × Bytes × Bytes
  | [] => (t, [], [])
  | b :: input =>
    let (t, pty, sock) := t.step b
    let (t, pty', sock') := t.process input
    (t, pty ++ pty', sock ++ sock')

/-- What the terminal gets, one call of `process` for each chunk. -/
def toPty (t : Telnet) : List Bytes → Bytes
  | [] => []
  | chunk :: chunks => (t.process chunk).2.1 ++ (t.process chunk).1.toPty chunks

/-! ## What a client sends -/

/-- The payload of a subnegotiation as it is sent. -/
def doubled (payload : Bytes) : Bytes := payload.flatMap fun b => if b = iac then [iac, iac] else [b]

/-- A stream that types bytes, with commands anywhere between them. -/
inductive Types : Bytes → Bytes → Prop where
  | nil : Types [] []
  | byte {b : UInt8} {d s : Bytes} (h : b ≠ iac) (hs : Types d s) : Types (b :: d) (b :: s)
  | escaped {d s : Bytes} (hs : Types d s) : Types (iac :: d) (iac :: iac :: s)
  | option {d s : Bytes} {cmd : UInt8} (opt : UInt8) (h : cmd = doOption ∨ cmd = dont ∨ cmd = will ∨ cmd = wont)
    (hs : Types d s) : Types d (iac :: cmd :: opt :: s)
  | command {d s : Bytes} {cmd : UInt8} (h : cmd ∉ [doOption, dont, will, wont, sb, iac]) (hs : Types d s) :
    Types d (iac :: cmd :: s)
  | block {d s : Bytes} (payload : Bytes) (hs : Types d s) : Types d (iac :: sb :: (doubled payload ++ iac :: se :: s))

/-- The bytes without each LF or NUL directly after a CR; `last` is the byte before them. -/
def withoutPairs (last : UInt8) : Bytes → Bytes
  | [] => []
  | b :: d => if last = cr ∧ EndsPair b then withoutPairs b d else b :: withoutPairs b d

/-- The first byte that is not 255 is neither LF nor NUL. -/
def StartsApart (d : Bytes) : Prop := ∀ b ∈ (d.dropWhile (· = iac)).head?, ¬EndsPair b

/-- No LF or NUL follows a CR with bytes 255 between them, one or more. -/
def Unparted (d : Bytes) : Prop := ∀ rest, cr :: iac :: rest <:+ d → StartsApart rest

/-! ## Commands are dropped -/

/-- What the parser makes of typed bytes, with a CR pending or not. -/
def typed (pending : Bool) : Bytes → Bytes
  | [] => []
  | b :: d =>
    if b = iac then iac :: typed pending d
    else if pending ∧ EndsPair b then typed false d
    else b :: typed (b = cr) d

theorem process_append (a b : Bytes) (t : Telnet) :
    (t.process (a ++ b)).2.1 = (t.process a).2.1 ++ ((t.process a).1.process b).2.1 := by
  induction a generalizing t with
  | nil => rfl
  | cons c a ih => simp [process, ih]

theorem toPty_eq (t : Telnet) (chunks : List Bytes) : t.toPty chunks = (t.process chunks.flatten).2.1 := by
  induction chunks generalizing t with
  | nil => rfl
  | cons chunk chunks ih => rw [toPty, List.flatten_cons, process_append, ih]

theorem process_doubled (payload rest : Bytes) (cmd : UInt8) (pending : Bool) :
    (process ⟨.subnegotiation, cmd, pending⟩ (doubled payload ++ iac :: se :: rest)).2.1 =
      (process ⟨.data, cmd, pending⟩ rest).2.1 := by
  induction payload with
  | nil => simp [doubled, process, step]
  | cons b payload ih =>
    have hse : iac ≠ se := by decide
    rw [doubled, List.flatMap_cons, ← doubled]
    by_cases hb : b = iac <;> simpa [process, step, hb, hse] using ih

theorem process_of_types {d s : Bytes} (h : Types d s) (cmd : UInt8) (pending : Bool) :
    (process ⟨.data, cmd, pending⟩ s).2.1 = typed pending d := by
  induction h generalizing cmd pending with
  | nil => rfl
  | byte hb _ ih =>
    simp only [process, step, typed, if_neg hb]
    split <;> simp [ih]
  | escaped _ ih =>
    have hiac : ¬(iac = doOption ∨ iac = dont ∨ iac = will ∨ iac = wont) ∧ iac ≠ sb := by decide
    simp [process, step, typed, ih, hiac]
  | option opt hcmd _ ih => simp [process, step, hcmd, ih]
  | command hcmd _ ih =>
    simp only [List.mem_cons, List.not_mem_nil, or_false, not_or] at hcmd
    simp [process, step, hcmd, ih]
  | block payload _ ih =>
    have hsb : ¬(sb = doOption ∨ sb = dont ∨ sb = will ∨ sb = wont) := by decide
    refine Eq.trans ?_ ((process_doubled payload _ cmd pending).trans (ih cmd pending))
    simp [process, step, hsb]

/-! ## Line ends -/

theorem unparted_cons_cons {b c : UInt8} {d : Bytes} :
    Unparted (b :: c :: d) ↔ (b = cr → c = iac → StartsApart d) ∧ Unparted (c :: d) := by
  refine ⟨fun h => ⟨?_, fun rest hrest => h rest (hrest.trans (List.suffix_cons b _))⟩, ?_⟩
  · rintro rfl rfl
    exact h d (List.suffix_refl _)
  · rintro ⟨hfirst, h⟩ rest hrest
    rcases List.suffix_cons_iff.1 hrest with heq | hrest
    · cases heq
      exact hfirst rfl rfl
    · exact h rest hrest

theorem length_typed_le {pending : Bool} {last : UInt8} (h : last = cr → pending = true) (d : Bytes) :
    (typed pending d).length ≤ (withoutPairs last d).length := by
  induction d generalizing pending last with
  | nil => rfl
  | cons b d ih =>
    have hiac : iac ≠ cr ∧ ¬EndsPair iac := by decide
    simp only [typed, withoutPairs]
    by_cases hb : b = iac
    · subst hb
      simpa [hiac] using ih fun hcr => absurd hcr hiac.1
    · have hpair : EndsPair b → b ≠ cr := by rintro (rfl | rfl) <;> decide
      rw [if_neg hb]
      split_ifs with hp hl hl
      · exact ih fun hcr => absurd hcr (hpair hp.2)
      · exact (ih fun hcr => absurd hcr (hpair hp.2)).trans (Nat.le_succ _)
      · exact absurd ⟨h hl.1, hl.2⟩ hp
      · simpa using ih fun hcr => decide_eq_true hcr

/-- A CR is pending rightly after itself, and wrongly after bytes 255 that follow it. -/
theorem typed_eq_iff (d : Bytes) :
    (∀ last, typed (last = cr) d = withoutPairs last d ↔ Unparted (last :: d)) ∧
      (typed true d = withoutPairs iac d ↔ StartsApart d ∧ Unparted (iac :: d)) := by
  have hiac : iac ≠ cr ∧ ¬EndsPair iac := by decide
  have hkeep (b : UInt8) (d : Bytes) : withoutPairs iac (b :: d) = b :: withoutPairs b d :=
    if_neg fun h => hiac.1 h.1
  induction d with
  | nil =>
    have hnil (c : UInt8) : Unparted [c] := fun rest h => absurd h.length_le (by simp)
    exact ⟨fun last => iff_of_true rfl (hnil last), iff_of_true rfl ⟨nofun, hnil iac⟩⟩
  | cons b d ih =>
    obtain ⟨ih, ihgap⟩ := ih
    by_cases hb : b = iac
    · subst hb
      have hih := ih iac
      simp only [hiac.1, decide_false] at hih
      refine ⟨fun last => ?_, ?_⟩
      · rw [unparted_cons_cons, typed, if_pos rfl, withoutPairs, if_neg (by simp [hiac])]
        by_cases hlast : last = cr <;> simp [hlast, hih, ihgap]
      · rw [unparted_cons_cons, typed, if_pos rfl, hkeep]
        simp [ihgap, StartsApart, hiac.1]
    · have hpair : EndsPair b → b ≠ cr := by rintro (rfl | rfl) <;> decide
      have hapart : StartsApart (b :: d) ↔ ¬EndsPair b := by simp [StartsApart, hb]
      refine ⟨fun last => ?_, ?_⟩
      · rw [unparted_cons_cons, typed, if_neg hb, withoutPairs, ← ih b]
        by_cases h : last = cr ∧ EndsPair b
        · simp [h, hb, hpair h.2]
        · simp [h, hb]
      · rw [unparted_cons_cons, typed, if_neg hb, hkeep, ← ih b, hapart]
        by_cases h : EndsPair b
        · have hlength := @length_typed_le false _ (fun hcr => absurd hcr (hpair h)) d
          refine iff_of_false (fun heq => ?_) fun hno => hno.1 h
          rw [if_pos ⟨rfl, h⟩] at heq
          rw [heq, List.length_cons] at hlength
          omega
        · simp [h, hiac.1]

/-- The terminal gets what was typed without the pairs' second bytes, whatever the chunks, exactly when no pair is
parted by bytes 255. -/
theorem toPty_eq_iff (d s : Bytes) (h : Types d s) (chunks : List Bytes) (hchunks : chunks.flatten = s) :
    toPty ⟨.data, 0, false⟩ chunks = withoutPairs 0 d ↔ Unparted d := by
  have hzero : Unparted (0 :: d) ↔ Unparted d := by
    cases d with
    | nil => exact iff_of_true (fun _ h => absurd h.length_le (by simp)) fun _ h => absurd h.length_le (by simp)
    | cons c d => simp [unparted_cons_cons, show (0 : UInt8) ≠ cr by decide]
  rw [toPty_eq, hchunks, process_of_types h, ← hzero, ← (typed_eq_iff d).1 0]
  rfl

theorem toPty_eq_iff_enter :
    toPty ⟨.data, 0, false⟩ [[13], [255, 241, 0]] = withoutPairs 0 [13, 0] ↔ Unparted [13, 0] :=
  toPty_eq_iff [13, 0] [13, 255, 241, 0]
    (.byte (by decide) (@Types.command [0] [0] 241 (by decide) (.byte (by decide) .nil))) _ rfl

/-- An LF after a CR and a byte 255 is lost. -/
theorem toPty_parted_wrong : ¬∀ d s, Types d s → ∀ chunks : List Bytes, chunks.flatten = s →
    toPty ⟨.data, 0, false⟩ chunks = withoutPairs 0 d := by
  intro h
  have hlost := h [13, 255, 10] [13, 255, 255, 10] (.byte (by decide) (.escaped (.byte (by decide) .nil)))
    [[13, 255, 255, 10]] rfl
  revert hlost
  decide

end Telnet

end Taomni.Servers
