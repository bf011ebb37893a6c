import Taomni.Vnc.Zrle

/-!
# Overlapped ZRLE decoding

Reference: the tile loops of `decode_zrle_into` and `decode_zrle_pipelined` in
`src-tauri/src/vnc/encodings/zrle.rs`.

A helper inflates the stream and publishes how much of it is there. The consumer decodes a tile from
what is published and starts the tile over if that was too little. It runs step by step, one atomic
load to a step; a `Schedule` says what the loads see at each of its steps, so a schedule stands for any
interleaving with the helper. What is left to decode, done on the whole stream, is the invariant.
-/

namespace Taomni.Vnc

/-! ## Tiles of a rectangle -/

/-- The positions and sizes of a tile loop: `size = min 64 (extent - t)`, then `t += size`. -/
def tileSpans (extent : ℕ) : ℕ → ℕ → List (ℕ × ℕ)
  | 0, _ => []
  | fuel + 1, t =>
    if t < extent then
      (t, min 64 (extent - t)) :: tileSpans extent fuel (t + min 64 (extent - t))
    else []

/-- The tiles in the order of the nested loops. -/
def tiles (rectW rectH : ℕ) : List Tile :=
  (tileSpans rectH rectH 0).flatMap fun row =>
    (tileSpans rectW rectW 0).map fun col => ⟨col.1, row.1, col.2, row.2⟩

/-- Every pass moves on, so the extent is enough fuel. -/
theorem tileSpans_fuel {extent fuel t : ℕ} (h : extent ≤ t + fuel) (more : ℕ) :
    tileSpans extent (fuel + more) t = tileSpans extent fuel t := by
  induction fuel generalizing t with
  | zero =>
    cases more with
    | zero => rfl
    | succ more => rw [Nat.zero_add, tileSpans, tileSpans, if_neg (by omega)]
  | succ fuel ih =>
    rw [Nat.add_right_comm, tileSpans, tileSpans]
    by_cases ht : t < extent
    · rw [if_pos ht, if_pos ht, ih (by omega)]
    · rw [if_neg ht, if_neg ht]

/-! ## Sequential decoding -/

variable {rest : List Tile} {tile : Tile}

section Sequential

variable (conv : PixelConverter) (stride : ℕ) (stream : List UInt8)

/-- Verdict, position and output of the sequential tile loop. -/
@[grind =] def decodeTiles : List Tile → ℕ → List Rgba → Except String Unit × ℕ × List Rgba
  | [], pos, out => (.ok (), pos, out)
  | tile :: rest, pos, out =>
    match zrleDecodeTile conv stride tile stream pos out with
    | (.ok (), pos, out) => decodeTiles rest pos out
    | (.error e, pos, out) => (.error e, pos, out)

/-- Same verdict, same position, and on success the same output. -/
def SameOutcome (a b : Except String Unit × ℕ × List Rgba) : Prop :=
  a.1 = b.1 ∧ a.2.1 = b.2.1 ∧ (a.1 = .ok () → a.2.2 = b.2.2)

theorem SameOutcome.refl (a : Except String Unit × ℕ × List Rgba) : SameOutcome a a :=
  ⟨rfl, rfl, fun _ => rfl⟩

theorem SameOutcome.trans {a b c : Except String Unit × ℕ × List Rgba} (hab : SameOutcome a b)
    (hbc : SameOutcome b c) : SameOutcome a c :=
  ⟨hab.1.trans hbc.1, hab.2.1.trans hbc.2.1, fun h => (hab.2.2 h).trans (hbc.2.2 (hab.1 ▸ h))⟩

variable {conv stride stream}

theorem decodeTiles_of_ok {pos : ℕ} {out : List Rgba}
    (h : (zrleDecodeTile conv stride tile stream pos out).1 = .ok ()) :
    decodeTiles conv stride stream (tile :: rest) pos out = decodeTiles conv stride stream rest
      (zrleDecodeTile conv stride tile stream pos out).2.1
      (zrleDecodeTile conv stride tile stream pos out).2.2 := by
  rw [decodeTiles]
  generalize zrleDecodeTile conv stride tile stream pos out = d at h
  obtain ⟨result, pos', out'⟩ := d
  subst h
  rfl

theorem decodeTiles_of_error {pos : ℕ} {out : List Rgba} {e : String}
    (h : (zrleDecodeTile conv stride tile stream pos out).1 = .error e) :
    decodeTiles conv stride stream (tile :: rest) pos out =
      zrleDecodeTile conv stride tile stream pos out := by
  rw [decodeTiles]
  generalize zrleDecodeTile conv stride tile stream pos out = d at h
  obtain ⟨result, pos', out'⟩ := d
  subst h
  rfl

/-- A tile may be decoded over the remains of an attempt to decode it. -/
theorem decodeTiles_restart {begun : List PixelWrite} {pos : ℕ}
    (h : begun <+: (tileDecoder conv stride tile stream pos).log) (rest : List Tile) (out : List Rgba) :
    SameOutcome (decodeTiles conv stride stream (tile :: rest) pos (paint out begun))
      (decodeTiles conv stride stream (tile :: rest) pos out) := by
  have hpaint : zrleDecodeTile conv stride tile stream pos (paint out begun) =
      zrleDecodeTile conv stride tile stream pos out := by
    rw [zrleDecodeTile, zrleDecodeTile, paint_paint h]
  rw [decodeTiles, decodeTiles, hpaint]
  exact .refl _

end Sequential

/-- A tile decoder on a prefix of the stream: its result on the whole stream, or an `eof` error with
nothing painted that the whole stream would not have painted first. -/
theorem zrleDecodeTile_take (conv : PixelConverter) (stride : ℕ) (tile : Tile) (stream : List UInt8)
    (available pos : ℕ) (out : List Rgba) :
    zrleDecodeTile conv stride tile (stream.take available) pos out =
        zrleDecodeTile conv stride tile stream pos out ∨
      ∃ e begun, zrleDecodeTile conv stride tile (stream.take available) pos out =
          (.error e, (tileDecoder conv stride tile (stream.take available) pos).pos, paint out begun) ∧
        isEof e ∧ begun <+: (tileDecoder conv stride tile stream pos).log := by
  rcases tileDecoder_prefixSafe conv stride tile (List.take_prefix available stream) pos with
    heq | ⟨e, hresult, he, hlog⟩
  · left
    rw [zrleDecodeTile, zrleDecodeTile, heq]
  · refine .inr ⟨e, _, ?_, he, hlog⟩
    rw [zrleDecodeTile, hresult]

/-! ## The consumer -/

/-- Where the consumer stands: before a load or before decoding, with what it has loaded. -/
inductive Phase where
  | loadFinished
  | loadProduced (done : Bool)
  | decodeTile (done : Bool) (available : ℕ)
  | waitFinished (available : ℕ)
  | waitProduced (available : ℕ)
  | returned (verdict : Except String Unit)

structure Consumer where
  tiles : List Tile
  pos : ℕ
  out : List Rgba
  phase : Phase

/-- What the consumer's loads see at each of its steps: growing prefixes, and in the end that the
helper has finished with the whole stream. -/
structure Schedule (length : ℕ) where
  finished : ℕ → Bool
  produced : ℕ → ℕ
  finished_succ : ∀ t, finished t → finished (t + 1)
  produced_succ : ∀ t, produced t ≤ produced (t + 1)
  produced_le : ∀ t, produced t ≤ length
  produced_of_finished : ∀ t, finished t → produced t = length
  eventually_finished : ∃ t, finished t

/-- The helper that publishes a byte at every step of the consumer. -/
def Schedule.bytewise (length : ℕ) : Schedule length where
  finished t := length ≤ t
  produced t := min t length
  finished_succ t h := decide_eq_true (Nat.le_succ_of_le (of_decide_eq_true h))
  produced_succ t := by omega
  produced_le t := Nat.min_le_right t length
  produced_of_finished t h := Nat.min_eq_right (of_decide_eq_true h)
  eventually_finished := ⟨length, decide_eq_true (Nat.le_refl length)⟩

section Pipelined

variable (conv : PixelConverter) (stride : ℕ) (stream : List UInt8)

/-- After an attempt at a tile: on to the next tile, wait for more bytes, or give up. -/
def Consumer.afterTile (c : Consumer) (rest : List Tile) (done : Bool) (available : ℕ) :
    Except String Unit × ℕ × List Rgba → Consumer
  | (.ok (), pos, out) => ⟨rest, pos, out, .loadFinished⟩
  | (.error e, pos, out) =>
    if done = false ∧ isEof e then { c with out := out, phase := .waitFinished available }
    else { c with pos := pos, out := out, phase := .returned (.error e) }

/-- One step, with what the loads see now. -/
def Consumer.step (finished : Bool) (produced : ℕ) (c : Consumer) : Consumer :=
  match c.phase, c.tiles with
  | .returned _, _ => c
  | _, [] => { c with phase := .returned (.ok ()) }
  | .loadFinished, _ :: _ => { c with phase := .loadProduced finished }
  | .loadProduced done, _ :: _ => { c with phase := .decodeTile done produced }
  | .decodeTile done available, tile :: rest =>
    c.afterTile rest done available
      (zrleDecodeTile conv stride tile (stream.take available) c.pos c.out)
  | .waitFinished available, _ :: _ =>
    { c with phase := if finished then .loadFinished else .waitProduced available }
  | .waitProduced available, _ :: _ =>
    { c with phase := if produced = available then .waitFinished available else .loadFinished }

/-- `decode_zrle_pipelined` after some steps of the consumer. -/
def decodeZrlePipelined (rectW rectH : ℕ) (schedule : Schedule stream.length) (out : List Rgba) :
    ℕ → Consumer
  | 0 => ⟨tiles rectW rectH, 0, out, .loadFinished⟩
  | t + 1 => (decodeZrlePipelined rectW rectH schedule out t).step conv rectW stream
      (schedule.finished t) (schedule.produced t)

/-! ## The invariant -/

/-- What comes out if the rest is decoded from the whole stream. -/
def Consumer.outcome (c : Consumer) : Except String Unit × ℕ × List Rgba :=
  match c.phase with
  | .returned verdict => (verdict, c.pos, c.out)
  | _ => decodeTiles conv stride stream c.tiles c.pos c.out

/-- A consumer that has seen the helper finish works on the whole stream. -/
def Phase.Informed (length : ℕ) (finished : Bool) : Phase → Prop
  | .loadProduced done => done → finished
  | .decodeTile done available => done → available = length
  | _ => True

variable {conv stride stream}

variable (c : Consumer)

variable {d : Except String Unit × ℕ × List Rgba}

private theorem Consumer.afterTile_of_ok (rest : List Tile) (done : Bool)
    (available : ℕ) (h : d.1 = .ok ()) :
    c.afterTile rest done available d = ⟨rest, d.2.1, d.2.2, .loadFinished⟩ := by
  obtain ⟨result, pos, out⟩ := d
  subst h
  rfl

private theorem Consumer.afterTile_of_error (rest : List Tile) (done : Bool)
    (available : ℕ) {e : String} (h : d.1 = .error e) : c.afterTile rest done available d =
      if done = false ∧ isEof e then { c with out := d.2.2, phase := .waitFinished available }
      else { c with pos := d.2.1, out := d.2.2, phase := .returned (.error e) } := by
  obtain ⟨result, pos, out⟩ := d
  subst h
  rfl

/-- What an attempt leads to. -/
private theorem Consumer.afterTile_cases (rest : List Tile) (done : Bool)
    (available : ℕ) (d : Except String Unit × ℕ × List Rgba) :
    (done = false ∧ c.afterTile rest done available d =
        { c with out := d.2.2, phase := .waitFinished available }) ∨
      (∃ e, c.afterTile rest done available d =
        { c with pos := d.2.1, out := d.2.2, phase := .returned (.error e) }) ∨
      c.afterTile rest done available d = ⟨rest, d.2.1, d.2.2, .loadFinished⟩ := by
  cases hresult : d.1 with
  | ok => exact .inr (.inr (afterTile_of_ok c rest done available hresult))
  | error e =>
    rw [afterTile_of_error c rest done available hresult]
    by_cases hretry : done = false ∧ isEof e
    · exact .inl ⟨hretry.1, if_pos hretry⟩
    · exact .inr (.inl ⟨e, if_neg hretry⟩)

/-- An attempt at the next tile, whole or cut short, leaves the outcome as it is. -/
private theorem Consumer.outcome_afterTile {c : Consumer}
    (htiles : c.tiles = tile :: rest) {done : Bool} {available : ℕ}
    (hinformed : done → available = stream.length) : SameOutcome ((c.afterTile rest done available
        (zrleDecodeTile conv stride tile (stream.take available) c.pos c.out)).outcome
          conv stride stream) (decodeTiles conv stride stream (tile :: rest) c.pos c.out) := by
  have hwhole : SameOutcome ((c.afterTile rest done available
      (zrleDecodeTile conv stride tile stream c.pos c.out)).outcome conv stride stream)
      (decodeTiles conv stride stream (tile :: rest) c.pos c.out) := by
    cases hresult : (zrleDecodeTile conv stride tile stream c.pos c.out).1 with
    | ok =>
      rw [decodeTiles_of_ok hresult, afterTile_of_ok _ _ _ _ hresult]
      exact .refl _
    | error e =>
      rw [afterTile_of_error _ _ _ _ hresult]
      split
      · rw [outcome, htiles]
        exact decodeTiles_restart (List.prefix_refl _) rest c.out
      · rw [decodeTiles_of_error hresult, outcome, ← hresult]
        exact .refl _
  rcases zrleDecodeTile_take conv stride tile stream available c.pos c.out with
    heq | ⟨e, begun, heq, he, hbegun⟩
  · rwa [heq]
  · cases done with
    | true => rwa [hinformed rfl, List.take_length]
    | false =>
      rw [heq, afterTile, if_pos ⟨rfl, he⟩, outcome, htiles]
      exact decodeTiles_restart hbegun rest c.out

/-- No step changes what comes out. -/
private theorem Consumer.outcome_step (finished : Bool) (produced : ℕ)
    (hinformed : c.phase.Informed stream.length finished) :
    SameOutcome ((c.step conv stride stream finished produced).outcome conv stride stream)
      (c.outcome conv stride stream) := by
  obtain ⟨tiles, pos, out, phase⟩ := c
  cases tiles with
  | nil => cases phase <;> exact .refl _
  | cons tile rest =>
    cases phase with
    | decodeTile done available => exact outcome_afterTile rfl hinformed
    | loadFinished => exact .refl _
    | loadProduced done => exact .refl _
    | waitFinished available => cases finished <;> exact .refl _
    | waitProduced available =>
      rw [step]
      dsimp only
      split <;> exact .refl _
    | returned verdict => exact .refl _

private theorem Consumer.informed_step {c : Consumer} {finished finished' : Bool} {produced : ℕ}
    (hfinished : finished → finished') (hproduced : finished → produced = stream.length)
    (hinformed : c.phase.Informed stream.length finished) :
    (c.step conv stride stream finished produced).phase.Informed stream.length finished' := by
  obtain ⟨tiles, pos, out, phase⟩ := c
  cases tiles with
  | nil => cases phase <;> trivial
  | cons tile rest =>
    cases phase with
    | loadFinished => exact hfinished
    | loadProduced done => exact fun hdone => hproduced (hinformed hdone)
    | decodeTile done available =>
      change (afterTile _ rest done available _).phase.Informed _ _
      rcases afterTile_cases ⟨tile :: rest, pos, out, .decodeTile done available⟩ rest done available
          (zrleDecodeTile conv stride tile (stream.take available) pos out) with
        ⟨-, heq⟩ | ⟨e, heq⟩ | heq
      · rw [heq]
        trivial
      · rw [heq]
        trivial
      · rw [heq]
        trivial
    | waitFinished available => cases finished <;> trivial
    | waitProduced available =>
      rw [step]
      dsimp only
      split <;> trivial
    | returned verdict => trivial

section Run

variable (rectW rectH : ℕ) (schedule : Schedule stream.length) (out : List Rgba)

private theorem informed_decodeZrlePipelined (t : ℕ) :
    (decodeZrlePipelined conv stream rectW rectH schedule out t).phase.Informed stream.length
      (schedule.finished t) := by
  induction t with
  | zero => trivial
  | succ t ih =>
    exact Consumer.informed_step (schedule.finished_succ t) (schedule.produced_of_finished t) ih

/-- At every moment the rest, decoded from the whole stream, gives what the sequential loop gives. -/
theorem outcome_decodeZrlePipelined (t : ℕ) :
    SameOutcome ((decodeZrlePipelined conv stream rectW rectH schedule out t).outcome conv rectW stream)
      (decodeTiles conv rectW stream (tiles rectW rectH) 0 out) := by
  induction t with
  | zero => exact .refl _
  | succ t ih =>
    refine SameOutcome.trans ?_ ih
    exact Consumer.outcome_step _ _ _ (informed_decodeZrlePipelined rectW rectH schedule out t)

end Run

/-! ## Termination -/

/-- Steps to the end of the current tile once the helper has finished. -/
def Phase.rank : Phase → ℕ
  | .decodeTile true _ => 1
  | .loadProduced true => 2
  | .loadFinished => 3
  | .waitFinished _ => 4
  | .waitProduced _ => 5
  | .decodeTile false _ => 5
  | .loadProduced false => 6
  | .returned _ => 0

/-- Steps to the end. -/
def Consumer.work (c : Consumer) : ℕ :=
  match c.phase with
  | .returned _ => 0
  | phase => 7 * c.tiles.length + phase.rank

/-- Once the helper has finished, every step brings the end closer. -/
private theorem Consumer.work_step (produced : ℕ) :
    (c.step conv stride stream true produced).work ≤ c.work - 1 := by
  obtain ⟨tiles, pos, out, phase⟩ := c
  cases tiles with
  | nil =>
    cases phase <;> exact Nat.zero_le _
  | cons tile rest =>
    cases phase with
    | loadFinished => exact Nat.le_refl _
    | loadProduced done => cases done <;> exact Nat.le_refl _
    | decodeTile done available =>
      change (afterTile _ rest done available _).work ≤ _
      rcases afterTile_cases ⟨tile :: rest, pos, out, .decodeTile done available⟩ rest done available
          (zrleDecodeTile conv stride tile (stream.take available) pos out) with
        ⟨hdone, heq⟩ | ⟨e, heq⟩ | heq
      · subst hdone
        rw [heq]
        exact Nat.le_refl _
      · rw [heq]
        exact Nat.zero_le _
      · rw [heq]
        cases done <;> simp only [work, Phase.rank, List.length_cons] <;> omega
    | waitFinished available => exact Nat.le_refl _
    | waitProduced available =>
      rw [step]
      dsimp only
      split <;> simp only [work, Phase.rank] <;> omega
    | returned verdict => exact Nat.le_refl _

theorem Consumer.returned_of_work_eq_zero {c : Consumer} (h : c.work = 0) :
    ∃ verdict, c.phase = .returned verdict := by
  obtain ⟨tiles, pos, out, phase⟩ := c
  cases phase with
  | returned verdict => exact ⟨verdict, rfl⟩
  | loadProduced done => cases done <;> simp only [work, Phase.rank] at h <;> omega
  | decodeTile done available => cases done <;> simp only [work, Phase.rank] at h <;> omega
  | _ => simp only [work, Phase.rank] at h; omega

theorem Schedule.finished_add {length : ℕ} (schedule : Schedule length) {t : ℕ}
    (h : schedule.finished t) (n : ℕ) : schedule.finished (t + n) := by
  induction n with
  | zero => exact h
  | succ n ih => exact schedule.finished_succ _ ih

private theorem work_decodeZrlePipelined (rectW rectH : ℕ) (schedule : Schedule stream.length)
    (out : List Rgba) {t : ℕ} (ht : schedule.finished t) (n : ℕ) :
    (decodeZrlePipelined conv stream rectW rectH schedule out (t + n)).work ≤
      (decodeZrlePipelined conv stream rectW rectH schedule out t).work - n := by
  induction n with
  | zero => exact Nat.le_refl _
  | succ n ih =>
    rw [← Nat.add_assoc, decodeZrlePipelined, schedule.finished_add ht n]
    exact Nat.le_trans (Consumer.work_step _ _) (by omega)

/-! ## Agreement -/

/-- Whatever the schedule, the pipelined loop comes to an end, with the verdict, the position and, if it
succeeds, the output of the sequential loop; and a tile decoder on a prefix of the stream fails for
want of bytes or does what it does on the whole stream. -/
theorem pipelined_agrees (conv : PixelConverter) (stream : List UInt8) (rectW rectH : ℕ)
    (out : List Rgba) : (∀ schedule : Schedule stream.length, ∃ last, ∀ t, last ≤ t →
      let sequential := decodeTiles conv rectW stream (tiles rectW rectH) 0 out
      let c := decodeZrlePipelined conv stream rectW rectH schedule out t
      c.phase = .returned sequential.1 ∧ c.pos = sequential.2.1 ∧
        (sequential.1 = .ok () → c.out = sequential.2.2)) ∧
    ∀ stride tile available pos,
      zrleDecodeTile conv stride tile (stream.take available) pos out =
          zrleDecodeTile conv stride tile stream pos out ∨
        ∃ e, (zrleDecodeTile conv stride tile (stream.take available) pos out).1 = .error e ∧
          isEof e := by
  refine ⟨fun schedule => ?_, fun stride tile available pos => ?_⟩
  · obtain ⟨T, hT⟩ := schedule.eventually_finished
    refine ⟨T + (decodeZrlePipelined conv stream rectW rectH schedule out T).work, fun t ht => ?_⟩
    obtain ⟨n, rfl⟩ := Nat.exists_eq_add_of_le (Nat.le_trans (Nat.le_add_right T _) ht)
    have hwork : (decodeZrlePipelined conv stream rectW rectH schedule out (T + n)).work ≤
        (decodeZrlePipelined conv stream rectW rectH schedule out T).work - n :=
      work_decodeZrlePipelined rectW rectH schedule out hT n
    obtain ⟨verdict, hverdict⟩ := Consumer.returned_of_work_eq_zero
      (c := decodeZrlePipelined conv stream rectW rectH schedule out (T + n)) (by omega)
    have hagrees : SameOutcome _ (decodeTiles conv rectW stream (tiles rectW rectH) 0 out) :=
      outcome_decodeZrlePipelined rectW rectH schedule out (T + n)
    rw [Consumer.outcome, hverdict] at hagrees
    obtain ⟨hresult, hpos, hout⟩ := hagrees
    exact ⟨hverdict.trans (congrArg _ hresult), hpos, fun hok => hout (hresult.trans hok)⟩
  · rcases zrleDecodeTile_take conv stride tile stream available pos out with
      heq | ⟨e, begun, heq, he, -⟩
    · exact .inl heq
    · exact .inr ⟨e, by rw [heq], he⟩

/-- A run of 65 black pixels, of which the tile has two, is cut off three times. -/
example : (decodeZrlePipelined ⟨.rgb888⟩ [128, 0, 0, 0, 64] 2 1 (.bytewise 5)
    (List.replicate 2 ⟨9, 9, 9, 9⟩) 24).out = List.replicate 2 ⟨0, 0, 0, 255⟩ := by
  decide

end Pipelined

end Taomni.Vnc
