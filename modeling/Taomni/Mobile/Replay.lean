import Mathlib.Algebra.BigOperators.Group.List.Basic
import Mathlib.Algebra.GroupWithZero.Nat
import Taomni.Common.Utf8
import Taomni.Mobile.Broker

/-!
# The text tail of a terminal

Every push decodes what has come, interprets it letter by letter and drops lines from the front. Dropping lines
changes nothing else, so the tail is the end of what one pass over the whole stream would give.

Reference: `src-tauri/src/mobile/replay.rs`.
-/

namespace Taomni.Mobile

open List

abbrev Text := List Char

namespace Replay

def maxLines : ℕ := 1000

def maxBytes : ℕ := 512 * 1024

def maxLine : ℕ := 16 * 1024

def truncatedMark : Text := " …[truncated]".toList

end Replay

structure Replay where
  /-- The lines that have ended. -/
  lines : List Text := []
  line : Text := []
  pending : Bytes := []
  carriage : Bool := false
  truncated : Bool := false
  /-- The length of the lines that have ended. -/
  bytes : ℕ := 0

namespace Replay

/-- A letter after a carriage return starts the line again. -/
def returned (r : Replay) (ch : Char) : Replay :=
  if r.carriage ∧ ch ≠ '\n' then { r with line := [], truncated := false, carriage := false }
  else { r with carriage := false }

/-- The loop body over the letters. -/
def letter (r : Replay) (ch : Char) : Replay :=
  let r := r.returned ch
  if ch = '\r' then { r with carriage := true }
  else if ch = '\n' then
    { r with lines := r.lines ++ [r.line], line := [], bytes := r.bytes + byteLength r.line, truncated := false }
  else if r.truncated then r
  else if maxLine - 32 < byteLength r.line + ch.utf8Size then
    { r with line := r.line ++ truncatedMark, truncated := true }
  else { r with line := r.line ++ [ch] }

/-- The last loop of `push`, with the length of the current line. -/
def dropLines (current : ℕ) : List Text → ℕ → List Text × ℕ
  | [], bytes => ([], bytes)
  | old :: lines, bytes =>
    if maxLines < (old :: lines).length + 1 ∨ maxBytes < bytes + current then
      dropLines current lines (bytes - byteLength old)
    else (old :: lines, bytes)

/-- What a push does before it drops lines. -/
def take (r : Replay) (data : Bytes) : Replay :=
  let drained := drainUtf8 (r.pending ++ data)
  drained.1.foldl letter { r with pending := drained.2 }

def push (r : Replay) (data : Bytes) : Replay :=
  let r := r.take data
  let dropped := dropLines (byteLength r.line) r.lines r.bytes
  { r with lines := dropped.1, bytes := dropped.2 }

/-- `Replay::lines`: the current line comes last. -/
def allLines (r : Replay) : List Text := r.lines ++ [r.line]

/-! ## Letters -/

def lengths (lines : List Text) : ℕ := (lines.map byteLength).sum

/-- The counter counts the lines that have ended, and the current line leaves room for the mark. -/
structure Counted (r : Replay) : Prop where
  bytes : r.bytes = lengths r.lines
  line : byteLength r.line + (if r.truncated then 0 else 32) ≤ maxLine

theorem empty_le : byteLength [] + (if false then 0 else 32) ≤ maxLine := by decide

variable {r : Replay}

theorem Counted.returned (h : r.Counted) (ch : Char) : (r.returned ch).Counted := by
  unfold Replay.returned
  split
  · exact ⟨h.bytes, empty_le⟩
  · exact ⟨h.bytes, h.line⟩

theorem Counted.letter (h : r.Counted) (ch : Char) : (r.letter ch).Counted := by
  have hreturned := h.returned ch
  unfold Replay.letter
  dsimp only
  generalize r.returned ch = r' at hreturned
  have hline := hreturned.line
  split
  · exact ⟨hreturned.bytes, hline⟩
  split
  · refine ⟨?_, empty_le⟩
    dsimp only [lengths]
    rw [map_append, sum_append, map_singleton, sum_singleton, hreturned.bytes, lengths]
  split
  · exact hreturned
  · next htruncated =>
    rw [if_neg htruncated] at hline
    have hmark : byteLength truncatedMark = 15 := by decide
    have hmax : maxLine = 16384 := rfl
    split
    · refine ⟨hreturned.bytes, ?_⟩
      dsimp only
      rw [if_pos rfl, byteLength_append, hmark]
      omega
    · refine ⟨hreturned.bytes, ?_⟩
      have hch : byteLength [ch] = ch.utf8Size := Nat.add_zero _
      dsimp only
      rw [if_neg htruncated, byteLength_append, hch]
      omega

theorem Counted.foldl (h : r.Counted) (text : Text) : (text.foldl Replay.letter r).Counted := by
  induction text generalizing r with
  | nil => exact h
  | cons ch text ih => exact ih (h.letter ch)

/-- The letters leave the bytes that wait. -/
theorem letter_pending (r : Replay) (pending : Bytes) (ch : Char) :
    ({ r with pending := pending } : Replay).letter ch = { r.letter ch with pending := pending } := by
  have hreturned : ({ r with pending := pending } : Replay).returned ch
      = { r.returned ch with pending := pending } := by
    unfold Replay.returned
    dsimp only
    split <;> rfl
  unfold Replay.letter
  dsimp only
  rw [hreturned]
  dsimp only
  repeat' split
  all_goals rfl

theorem foldl_pending (text : Text) (r : Replay) (pending : Bytes) :
    text.foldl letter { r with pending := pending } = { text.foldl letter r with pending := pending } := by
  induction text generalizing r with
  | nil => rfl
  | cons ch text ih => rw [foldl_cons, letter_pending, ih, foldl_cons]

theorem take_eq (r : Replay) (data : Bytes) : r.take data
    = { (drainUtf8 (r.pending ++ data)).1.foldl letter r with pending := (drainUtf8 (r.pending ++ data)).2 } :=
  foldl_pending _ r _

/-- Two pieces are taken as one. -/
theorem take_take (r : Replay) (data more : Bytes) : (r.take data).take more = r.take (data ++ more) := by
  have hpending : (r.take data).pending = (drainUtf8 (r.pending ++ data)).2 := by rw [take_eq]
  have hdrain := drainUtf8_append (r.pending ++ data) more
  rw [append_assoc] at hdrain
  rw [take_eq (r.take data), hpending, take_eq r data, foldl_pending, take_eq r (data ++ more), hdrain,
    foldl_append]

theorem length_pending_take (r : Replay) (data : Bytes) : (r.take data).pending.length ≤ 3 := by
  rw [take_eq]
  exact length_drainUtf8_le _

/-! ## Lines that are dropped -/

/-- A tail that has lost nothing but lines from the front. -/
structure TailOf (r whole : Replay) : Prop where
  lines : r.lines <:+ whole.lines
  line : r.line = whole.line
  pending : r.pending = whole.pending
  carriage : r.carriage = whole.carriage
  truncated : r.truncated = whole.truncated

theorem suffix_concat {xs ys : List Text} (h : xs <:+ ys) (line : Text) : xs ++ [line] <:+ ys ++ [line] := by
  obtain ⟨front, rfl⟩ := h
  exact ⟨front, (append_assoc _ _ _).symm⟩

variable {whole : Replay}

theorem TailOf.returned (h : TailOf r whole) (ch : Char) :
    TailOf (r.returned ch) (whole.returned ch) := by
  unfold Replay.returned
  rw [h.carriage]
  split
  · exact ⟨h.lines, rfl, h.pending, rfl, rfl⟩
  · exact ⟨h.lines, h.line, h.pending, rfl, h.truncated⟩

/-- No letter looks at the lines that have ended. -/
theorem TailOf.letter (h : TailOf r whole) (ch : Char) : TailOf (r.letter ch) (whole.letter ch) := by
  have hreturned := h.returned ch
  unfold Replay.letter
  dsimp only
  generalize r.returned ch = r' at hreturned
  generalize whole.returned ch = whole' at hreturned
  obtain ⟨hlines, hline, hpending, hcarriage, htruncated⟩ := hreturned
  rw [htruncated, hline]
  by_cases hreturn : ch = '\r'
  · rw [if_pos hreturn, if_pos hreturn]
    exact ⟨hlines, rfl, hpending, rfl, rfl⟩
  rw [if_neg hreturn, if_neg hreturn]
  by_cases hnewline : ch = '\n'
  · rw [if_pos hnewline, if_pos hnewline]
    exact ⟨suffix_concat hlines whole'.line, rfl, hpending, hcarriage, rfl⟩
  rw [if_neg hnewline, if_neg hnewline]
  by_cases hcut : whole'.truncated = true
  · rw [if_pos hcut, if_pos hcut]
    exact ⟨hlines, hline, hpending, hcarriage, htruncated⟩
  rw [if_neg hcut, if_neg hcut]
  split
  · exact ⟨hlines, rfl, hpending, hcarriage, rfl⟩
  · exact ⟨hlines, rfl, hpending, hcarriage, rfl⟩

theorem TailOf.foldl (h : TailOf r whole) (text : Text) :
    TailOf (text.foldl Replay.letter r) (text.foldl Replay.letter whole) := by
  induction text generalizing r whole with
  | nil => exact h
  | cons ch text ih => exact ih (h.letter ch)

theorem TailOf.take (h : TailOf r whole) (data : Bytes) : TailOf (r.take data) (whole.take data) := by
  have hfold := h.foldl (drainUtf8 (whole.pending ++ data)).1
  rw [take_eq, take_eq, h.pending]
  exact ⟨hfold.lines, hfold.line, rfl, hfold.carriage, hfold.truncated⟩

theorem Counted.take (h : r.Counted) (data : Bytes) : (r.take data).Counted := by
  have hfold := h.foldl (drainUtf8 (r.pending ++ data)).1
  rw [take_eq]
  exact ⟨hfold.bytes, hfold.line⟩

/-- What is left after the loop: lines from the end, counted, and no more than may be kept. -/
theorem dropLines_spec {current bytes : ℕ} (hcurrent : current ≤ maxBytes) {lines : List Text}
    (hbytes : bytes = lengths lines) : (dropLines current lines bytes).1 <:+ lines ∧
      (dropLines current lines bytes).2 = lengths (dropLines current lines bytes).1 ∧
      (dropLines current lines bytes).1.length + 1 ≤ maxLines ∧ (dropLines current lines bytes).2 + current ≤ maxBytes := by
  induction lines generalizing bytes with
  | nil =>
    rw [hbytes]
    have hone : ([] : List Text).length + 1 ≤ maxLines := by decide
    exact ⟨suffix_rfl, rfl, hone, (Nat.zero_add current).symm ▸ hcurrent⟩
  | cons old lines ih =>
    rw [dropLines]
    split
    · have hrest : bytes - byteLength old = lengths lines := by
        rw [hbytes, lengths, map_cons, sum_cons, Nat.add_sub_cancel_left, ← lengths]
      obtain ⟨hsuffix, hkept⟩ := ih hrest
      exact ⟨hsuffix.trans (suffix_cons old lines), hkept⟩
    · next hkept =>
      obtain ⟨hlines, hlength⟩ := not_or.mp hkept
      exact ⟨suffix_rfl, hbytes, Nat.not_lt.mp hlines, Nat.not_lt.mp hlength⟩

/-! ## A push -/

/-- What holds between two pushes, next to what one pass over the stream gives. -/
structure Kept (stream : Bytes) (r : Replay) : Prop where
  counted : r.Counted
  tail : TailOf r (take {} stream)

theorem kept_empty : Kept [] {} := by
  have hempty : take {} [] = {} := by
    rw [take_eq, append_nil, drainUtf8_nil]
    rfl
  refine ⟨⟨rfl, by decide⟩, ?_⟩
  rw [hempty]
  exact ⟨suffix_rfl, rfl, rfl, rfl, rfl⟩

/-- A tail whose text is bounded. -/
structure Bounded (r : Replay) : Prop where
  lines : r.allLines.length ≤ maxLines
  text : lengths r.allLines ≤ maxBytes
  pending : r.pending.length ≤ 3

theorem lengths_allLines (r : Replay) : lengths r.allLines = lengths r.lines + byteLength r.line := by
  rw [allLines, lengths, map_append, sum_append, map_singleton, sum_singleton, ← lengths]

theorem push_spec {stream : Bytes} (h : Kept stream r) (data : Bytes) :
    Kept (stream ++ data) (r.push data) ∧ Bounded (r.push data) := by
  have hcounted := h.counted.take data
  have htail := h.tail.take data
  rw [take_take] at htail
  have hline : byteLength (r.take data).line ≤ maxBytes := by
    have hroom : byteLength (r.take data).line ≤ maxLine := (Nat.le_add_right _ _).trans hcounted.line
    exact hroom.trans (by decide)
  have hpending := length_pending_take r data
  obtain ⟨hsuffix, hbytes, hlines, htext⟩ := dropLines_spec hline hcounted.bytes
  refine ⟨⟨⟨hbytes, hcounted.line⟩, ⟨hsuffix.trans htail.lines, htail.line, htail.pending, htail.carriage,
    htail.truncated⟩⟩, ⟨?_, ?_, hpending⟩⟩
  · rw [allLines, length_append, length_singleton]
    exact hlines
  · rw [lengths_allLines]
    rw [hbytes] at htext
    exact htext

theorem kept_foldl (chunks : List Bytes) {stream : Bytes} (h : Kept stream r) :
    Kept (stream ++ chunks.flatten) (chunks.foldl push r) := by
  induction chunks generalizing stream r with
  | nil =>
    rw [flatten_nil, append_nil]
    exact h
  | cons data chunks ih =>
    have hrest := ih (push_spec h data).1
    rwa [append_assoc, ← flatten_cons] at hrest

theorem bounded_foldl (chunks : List Bytes) : Bounded (chunks.foldl push {}) := by
  rcases eq_nil_or_concat' chunks with rfl | ⟨chunks, data, rfl⟩
  · exact ⟨by decide, by decide, by decide⟩
  · rw [foldl_append]
    exact (push_spec (kept_foldl chunks kept_empty) data).2

/-- However a stream is cut, after its last piece the tail is bounded and counted, and its lines are the last
ones of a pass over the whole stream that drops none. -/
theorem foldl_push (chunks : List Bytes) : Bounded (chunks.foldl push {}) ∧
      (chunks.foldl push {}).bytes = lengths (chunks.foldl push {}).lines ∧
      (chunks.foldl push {}).allLines <:+ (take {} chunks.flatten).allLines := by
  have hkept := kept_foldl chunks kept_empty
  rw [nil_append] at hkept
  refine ⟨bounded_foldl chunks, hkept.counted.bytes, ?_⟩
  rw [allLines, allLines, hkept.tail.line]
  exact suffix_concat hkept.tail.lines _

end Replay

/-- The tail that the terminals have. -/
def replayTail : TextTail where
  Tail := Replay
  empty := {}
  push := Replay.push
  lines r := r.allLines.map String.ofList

end Taomni.Mobile
