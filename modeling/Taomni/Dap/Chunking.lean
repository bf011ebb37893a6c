import Taomni.Dap.Codec
import Taomni.Encoding.RoundTrip

/-!
# Cutting the stream of a debug adapter

Reference: `src-tauri/src/dap/codec.rs`.

A round of the decoder is incremental (`incremental_round`), so the chunks do not matter
(`readChunks_eq`); a frame that was encoded is one item (`round_encodeMessage`). What is left to go wrong
is a declared length that does not fit behind its header (`chunking_iff`).
-/

namespace Taomni.Dap

open List
open Agent (Text trim isWhitespace)
open Encoding (utf8Bytes fromUtf8 fromUtf8_utf8Bytes utf8Bytes_append)

/-! ## Searching -/

theorem findSubsequence_eq_some {needle haystack : Bytes} {i : ℕ}
    (h : findSubsequence needle haystack = some i) : i + needle.length ≤ haystack.length := by
  induction haystack generalizing i with
  | nil =>
    rw [findSubsequence] at h
    split at h
    · next hbegins =>
      cases h
      have hlength := (List.isPrefixOf_iff_prefix.mp hbegins).length_le
      omega
    · cases h
  | cons b haystack ih =>
    rw [findSubsequence] at h
    split at h
    · next hbegins =>
      cases h
      have hlength := (List.isPrefixOf_iff_prefix.mp hbegins).length_le
      omega
    · obtain ⟨j, hj, rfl⟩ := Option.map_eq_some_iff.mp h
      have hlength := ih hj
      rw [length_cons]
      omega

/-- What was found is found with more behind it. -/
theorem findSubsequence_append {needle haystack : Bytes} {i : ℕ} (later : Bytes)
    (h : findSubsequence needle haystack = some i) :
    findSubsequence needle (haystack ++ later) = some i := by
  induction haystack generalizing i with
  | nil =>
    have hlength := findSubsequence_eq_some h
    obtain rfl : needle = [] := eq_nil_of_length_eq_zero (by rw [length_nil] at hlength; omega)
    cases h
    cases later <;> rfl
  | cons b haystack ih =>
    have hlength := findSubsequence_eq_some h
    rw [findSubsequence] at h
    rw [cons_append, findSubsequence]
    by_cases hbegins : needle.isPrefixOf (b :: haystack) = true
    · rw [if_pos hbegins] at h
      have hlater : needle.isPrefixOf (b :: (haystack ++ later)) = true :=
        isPrefixOf_iff_prefix.mpr
          ((List.isPrefixOf_iff_prefix.mp hbegins).trans (prefix_append _ _))
      rw [if_pos hlater, h]
    · rw [if_neg hbegins] at h
      have hlater : ¬ needle.isPrefixOf (b :: (haystack ++ later)) = true := by
        rw [List.isPrefixOf_iff_prefix] at hbegins ⊢
        exact fun hneedle => hbegins
          (prefix_of_prefix_length_le hneedle (prefix_append (b :: haystack) later) (by omega))
      rw [if_neg hlater]
      obtain ⟨j, hj, rfl⟩ := Option.map_eq_some_iff.mp h
      rw [ih hj]
      rfl

/-! ## Rounds -/

section

variable {V : Type} {fromSlice : Bytes → Option V}

/-- The buffer begins with a header block, up to `headerEnd`, that declares a length, or none. -/
def Header (buffer : Bytes) (headerEnd : ℕ) (declared : Option ℕ) : Prop :=
  findSubsequence crlfCrlf buffer = some headerEnd ∧
    parseContentLength (buffer.take headerEnd) = declared

variable {buffer : Bytes} {headerEnd : ℕ}

variable {declared : Option ℕ}

theorem Header.le (h : Header buffer headerEnd declared) : headerEnd + 4 ≤ buffer.length :=
  findSubsequence_eq_some h.1

theorem Header.append (h : Header buffer headerEnd declared) (later : Bytes) :
    Header (buffer ++ later) headerEnd declared := by
  have hle := h.le
  refine ⟨findSubsequence_append later h.1, ?_⟩
  rw [take_append_of_le_length (by omega)]
  exact h.2

theorem Header.unique {headerEnd' : ℕ} {declared' : Option ℕ}
    (h : Header buffer headerEnd declared) (h' : Header buffer headerEnd' declared') :
    headerEnd = headerEnd' ∧ declared = declared' := by
  cases h.1.symm.trans h'.1
  exact ⟨rfl, h.2.symm.trans h'.2⟩

theorem round_of_malformed (h : Header buffer headerEnd none) :
    round fromSlice buffer = .skip (buffer.drop (headerEnd + 4)) := by
  unfold round
  rw [h.1]
  simp only [h.2]

/-- What a round makes of a body. -/
def bodyRound (fromSlice : Bytes → Option V) (body rest : Bytes) : Round UInt8 V :=
  match fromSlice body with
  | some value => .item value rest
  | none => .skip rest

theorem round_of_header {len : ℕ} (h : Header buffer headerEnd (some len)) :
    round fromSlice buffer = if usizeLimit ≤ headerEnd + 4 + len then .fault
      else if buffer.length < headerEnd + 4 + len then .more
      else bodyRound fromSlice ((buffer.drop (headerEnd + 4)).take len)
        (buffer.drop (headerEnd + 4 + len)) := by
  unfold round
  rw [h.1]
  simp only [h.2]
  rfl

/-- What a round can do. -/
theorem round_cases (fromSlice : Bytes → Option V) (buffer : Bytes) : round fromSlice buffer = .more ∨
    (∃ headerEnd, Header buffer headerEnd none) ∨
    (∃ headerEnd len, Header buffer headerEnd (some len) ∧ usizeLimit ≤ headerEnd + 4 + len) ∨
    ∃ headerEnd len, Header buffer headerEnd (some len) ∧ headerEnd + 4 + len < usizeLimit ∧
      headerEnd + 4 + len ≤ buffer.length := by
  cases hfind : findSubsequence crlfCrlf buffer with
  | none =>
    left
    rw [round, hfind]
  | some headerEnd =>
    cases hparse : parseContentLength (buffer.take headerEnd) with
    | none => exact .inr (.inl ⟨headerEnd, hfind, hparse⟩)
    | some len =>
      have hheader : Header buffer headerEnd (some len) := ⟨hfind, hparse⟩
      by_cases hfit : usizeLimit ≤ headerEnd + 4 + len
      · exact .inr (.inr (.inl ⟨headerEnd, len, hheader, hfit⟩))
      by_cases hshort : buffer.length < headerEnd + 4 + len
      · left
        rw [round_of_header hheader, if_neg hfit, if_pos hshort]
      · exact .inr (.inr (.inr ⟨headerEnd, len, hheader, Nat.not_le.mp hfit, Nat.not_lt.mp hshort⟩))

theorem round_of_frame {len : ℕ} (h : Header buffer headerEnd (some len))
    (hfit : headerEnd + 4 + len < usizeLimit) (hlength : headerEnd + 4 + len ≤ buffer.length) :
    round fromSlice buffer = bodyRound fromSlice ((buffer.drop (headerEnd + 4)).take len)
      (buffer.drop (headerEnd + 4 + len)) := by
  rw [round_of_header h, if_neg (Nat.not_le.mpr hfit), if_neg (Nat.not_lt.mpr hlength)]

theorem rest_bodyRound (body rest : Bytes) : (bodyRound fromSlice body rest).rest = some rest := by
  unfold bodyRound
  split <;> rfl

theorem push_bodyRound (body rest later : Bytes) :
    (bodyRound fromSlice body rest).push later = bodyRound fromSlice body (rest ++ later) := by
  unfold bodyRound
  split <;> rfl

/-- More behind the buffer does not change what a round finds. -/
theorem incremental_round (fromSlice : Bytes → Option V) : Incremental (round fromSlice) where
  length_lt := by
    intro buffer rest hrest
    rcases round_cases fromSlice buffer with
      hmore | ⟨headerEnd, hheader⟩ | ⟨headerEnd, len, hheader, hfit⟩ |
        ⟨headerEnd, len, hheader, hfit, hlength⟩
    · rw [hmore] at hrest
      cases hrest
    · have hle := hheader.le
      rw [round_of_malformed hheader] at hrest
      cases hrest
      rw [length_drop]
      omega
    · rw [round_of_header hheader, if_pos hfit] at hrest
      cases hrest
    · rw [round_of_frame hheader hfit hlength, rest_bodyRound] at hrest
      cases hrest
      rw [length_drop]
      omega
  append := by
    intro buffer later hmore
    rcases round_cases fromSlice buffer with
      hmore' | ⟨headerEnd, hheader⟩ | ⟨headerEnd, len, hheader, hfit⟩ |
        ⟨headerEnd, len, hheader, hfit, hlength⟩
    · exact absurd hmore' hmore
    · rw [round_of_malformed hheader, round_of_malformed (hheader.append later),
        drop_append_of_le_length hheader.le]
      rfl
    · rw [round_of_header hheader, round_of_header (hheader.append later), if_pos hfit, if_pos hfit]
      rfl
    · have hlength' : headerEnd + 4 + len ≤ (buffer ++ later).length := by
        rw [length_append]
        omega
      have hbody : len ≤ (buffer.drop (headerEnd + 4)).length := by
        rw [length_drop]
        omega
      rw [round_of_frame hheader hfit hlength, round_of_frame (hheader.append later) hfit hlength',
        push_bodyRound, drop_append_of_le_length hheader.le, take_append_of_le_length hbody,
        drop_append_of_le_length hlength]

/-! ## Loops -/

/-- What `next_message` has done of draining the buffer. -/
inductive Advances (fromSlice : Bytes → Option V) (buffer : Bytes) : Outcome V → Bytes → Prop where
  | pending {rest} : Drains (round fromSlice) buffer [] rest false →
      Advances fromSlice buffer .pending rest
  | panicked {rest} : Drains (round fromSlice) buffer [] rest true →
      Advances fromSlice buffer .panicked rest
  | message {value rest} : rest.length < buffer.length →
      (∀ {vs left faulted}, Drains (round fromSlice) rest vs left faulted →
        Drains (round fromSlice) buffer (value :: vs) left faulted) →
      Advances fromSlice buffer (.message value) rest

variable {left : Bytes}

theorem Advances.skip {rest : Bytes} {outcome : Outcome V}
    (hround : round fromSlice buffer = .skip rest) (h : Advances fromSlice rest outcome left) :
    Advances fromSlice buffer outcome left := by
  cases h with
  | pending h => exact .pending (.skip hround h)
  | panicked h => exact .panicked (.skip hround h)
  | message hlength h =>
    have hlt := (incremental_round fromSlice).length_lt (hround ▸ rfl : (round _ buffer).rest = some rest)
    exact .message (Nat.lt_trans hlength hlt) fun hrest => .skip hround (h hrest)

/-- `next_message` returns. -/
theorem exists_nextMessage (fromSlice : Bytes → Option V) {fuel : ℕ}
    (hfuel : buffer.length < fuel) : ∃ outcome rest,
      nextMessage fromSlice fuel buffer = some (outcome, rest) ∧ Advances fromSlice buffer outcome rest := by
  induction fuel generalizing buffer with
  | zero => omega
  | succ fuel ih =>
    rw [nextMessage]
    cases hround : round fromSlice buffer with
    | more => exact ⟨_, _, rfl, .pending (.more hround)⟩
    | fault => exact ⟨_, _, rfl, .panicked (.fault hround)⟩
    | item value rest =>
      have hlt := (incremental_round fromSlice).length_lt
        (hround ▸ rfl : (round _ buffer).rest = some rest)
      exact ⟨_, _, rfl, .message hlt fun hrest => .item hround hrest⟩
    | skip rest =>
      have hlt := (incremental_round fromSlice).length_lt
        (hround ▸ rfl : (round _ buffer).rest = some rest)
      obtain ⟨outcome, left, hnext, hadvances⟩ := ih (Nat.lt_of_lt_of_le hlt (Nat.le_of_lt_succ hfuel))
      exact ⟨outcome, left, hnext, hadvances.skip hround⟩

variable {vs : List V}

variable {faulted : Bool}

/-- Draining returns what the rounds say. -/
theorem drainMessages_eq {fuel : ℕ}
    (hfuel : buffer.length < fuel) (h : Drains (round fromSlice) buffer vs left faulted) :
    drainMessages fromSlice fuel buffer = some ⟨vs, left, faulted⟩ := by
  induction fuel generalizing buffer vs left faulted with
  | zero => omega
  | succ fuel ih =>
    obtain ⟨outcome, rest, hnext, hadvances⟩ := exists_nextMessage fromSlice (Nat.lt_succ_self buffer.length)
    rw [drainMessages, hnext]
    cases hadvances with
    | pending h' =>
      obtain ⟨rfl, rfl, rfl⟩ := h.unique h'
      rfl
    | panicked h' =>
      obtain ⟨rfl, rfl, rfl⟩ := h.unique h'
      rfl
    | message hlength hmessage =>
      obtain ⟨ws, left', faulted', hrest⟩ := (incremental_round fromSlice).exists_drains rest
      obtain ⟨rfl, rfl, rfl⟩ := h.unique (hmessage hrest)
      simp only [ih (by omega) hrest, Option.map_some]

/-- Reading in chunks is draining the whole stream. -/
theorem readChunks_eq {chunks : List Bytes} (hbuffer : round fromSlice buffer = .more)
    (h : Drains (round fromSlice) (buffer ++ chunks.flatten) vs left faulted) :
    ∃ unread, readChunks fromSlice chunks buffer = some ⟨vs, unread, faulted⟩ ∧
      (faulted = false → unread = left) := by
  induction chunks generalizing buffer vs left faulted with
  | nil =>
    rw [flatten_nil, append_nil] at h
    obtain ⟨rfl, rfl, rfl⟩ := h.unique (.more hbuffer)
    exact ⟨_, rfl, fun _ => rfl⟩
  | cons chunk chunks ih =>
    have hinc := incremental_round fromSlice
    obtain ⟨ws, rest, faulted', hdrains⟩ := hinc.exists_drains (buffer ++ chunk)
    rw [flatten_cons, ← append_assoc] at h
    rw [readChunks, drainMessages_eq (Nat.lt_succ_self _) hdrains]
    cases faulted' with
    | true =>
      obtain ⟨rfl, rfl, rfl⟩ := h.unique (hdrains.append_of_fault hinc chunks.flatten)
      exact ⟨rest, rfl, Bool.noConfusion⟩
    | false =>
      obtain ⟨ws', left', faulted', hrest⟩ := hinc.exists_drains (rest ++ chunks.flatten)
      obtain ⟨rfl, rfl, rfl⟩ := h.unique (hdrains.append hinc hrest)
      obtain ⟨unread, hread, hleft⟩ := ih hdrains.round_left hrest
      refine ⟨unread, ?_, hleft⟩
      simp only [hread, Bool.false_eq_true, if_false, Option.map_some]

/-! ## Declared lengths -/

/-- A header block that the stream is split up to: each block is followed by as many bytes as it declares. -/
inductive Reaches : Bytes → Bytes → Prop where
  | refl {stream} : Reaches stream stream
  | malformed {stream headerEnd later} : Header stream headerEnd none →
      Reaches (stream.drop (headerEnd + 4)) later → Reaches stream later
  | frame {stream headerEnd len later} : Header stream headerEnd (some len) →
      headerEnd + 4 + len ≤ stream.length → Reaches (stream.drop (headerEnd + 4 + len)) later →
      Reaches stream later

/-- Every header block declares a length that fits behind it. -/
def LengthsFit (stream : Bytes) : Prop :=
  ∀ later headerEnd len, Reaches stream later → Header later headerEnd (some len) →
    headerEnd + 4 + len < usizeLimit

variable {stream : Bytes}

/-- Behind a block without a length the stream goes on. -/
theorem lengthsFit_malformed (h : Header stream headerEnd none) :
    LengthsFit stream ↔ LengthsFit (stream.drop (headerEnd + 4)) := by
  constructor
  · exact fun hfit later headerEnd' len hreaches => hfit later headerEnd' len (.malformed h hreaches)
  · intro hfit later headerEnd' len hreaches hheader
    cases hreaches with
    | refl => cases (h.unique hheader).2
    | malformed h' hreaches =>
      obtain ⟨rfl, -⟩ := h.unique h'
      exact hfit later headerEnd' len hreaches hheader
    | frame h' _ _ => cases (h.unique h').2

/-- Behind a frame the stream goes on. -/
theorem lengthsFit_frame {len : ℕ} (h : Header stream headerEnd (some len))
    (hlen : headerEnd + 4 + len < usizeLimit) (hlength : headerEnd + 4 + len ≤ stream.length) :
    LengthsFit stream ↔ LengthsFit (stream.drop (headerEnd + 4 + len)) := by
  constructor
  · exact fun hfit later headerEnd' len' hreaches =>
      hfit later headerEnd' len' (.frame h hlength hreaches)
  · intro hfit later headerEnd' len' hreaches hheader
    cases hreaches with
    | refl =>
      obtain ⟨rfl, hdeclared⟩ := h.unique hheader
      cases hdeclared
      exact hlen
    | malformed h' _ => cases (h.unique h').2
    | frame h' _ hreaches =>
      obtain ⟨rfl, hdeclared⟩ := h.unique h'
      cases hdeclared
      exact hfit later headerEnd' len' hreaches hheader

/-- Where a round asks for more, the only header block is one whose body has not arrived. -/
theorem lengthsFit_of_more (h : round fromSlice stream = .more) : LengthsFit stream := by
  intro later headerEnd len hreaches hheader
  have hno (headerEnd : ℕ) (hmalformed : Header stream headerEnd none) : False := by
    rw [round_of_malformed hmalformed] at h
    cases h
  have hfits {headerEnd len : ℕ} (hheader : Header stream headerEnd (some len)) :
      headerEnd + 4 + len < usizeLimit ∧ stream.length < headerEnd + 4 + len := by
    by_cases hfit : usizeLimit ≤ headerEnd + 4 + len
    · rw [round_of_header hheader, if_pos hfit] at h
      cases h
    refine ⟨Nat.not_le.mp hfit, Nat.not_le.mp fun hlength => ?_⟩
    have hrest : (bodyRound fromSlice _ _).rest = some _ :=
      rest_bodyRound ((stream.drop (headerEnd + 4)).take len) (stream.drop (headerEnd + 4 + len))
    rw [← round_of_frame hheader (Nat.not_le.mp hfit) hlength, h] at hrest
    cases hrest
  cases hreaches with
  | refl => exact (hfits hheader).1
  | malformed h' _ => exact (hno _ h').elim
  | frame h' hlength _ => exact absurd (hfits h').2 (Nat.not_lt.mpr hlength)

/-- A round that uses something up stands between two places that are reached. -/
theorem lengthsFit_of_rest {rest : Bytes} (h : (round fromSlice stream).rest = some rest) :
    LengthsFit stream ↔ LengthsFit rest := by
  rcases round_cases fromSlice stream with
    hmore | ⟨headerEnd, hheader⟩ | ⟨headerEnd, len, hheader, hfit⟩ |
      ⟨headerEnd, len, hheader, hfit, hlength⟩
  · rw [hmore] at h
    cases h
  · rw [round_of_malformed hheader] at h
    cases h
    exact lengthsFit_malformed hheader
  · rw [round_of_header hheader, if_pos hfit] at h
    cases h
  · rw [round_of_frame hheader hfit hlength, rest_bodyRound] at h
    cases h
    exact lengthsFit_frame hheader hfit hlength

/-- A round faults where a declared length does not fit. -/
theorem not_lengthsFit_of_fault (h : round fromSlice stream = .fault) : ¬ LengthsFit stream := by
  have hrest : (round fromSlice stream).rest = none := by rw [h]; rfl
  rcases round_cases fromSlice stream with
    hmore | ⟨headerEnd, hheader⟩ | ⟨headerEnd, len, hheader, hfit⟩ |
      ⟨headerEnd, len, hheader, hfit, hlength⟩
  · rw [hmore] at h
    cases h
  · rw [round_of_malformed hheader] at h
    cases h
  · exact fun hall => absurd (hall stream headerEnd len .refl hheader) (Nat.not_lt.mpr hfit)
  · rw [round_of_frame hheader hfit hlength, rest_bodyRound] at hrest
    cases hrest

/-- Draining faults where a declared length does not fit, and nowhere else. -/
theorem lengthsFit_iff
    (h : Drains (round fromSlice) stream vs left faulted) : LengthsFit stream ↔ faulted = false := by
  induction h with
  | more hround => exact iff_of_true (lengthsFit_of_more hround) rfl
  | fault hround => exact iff_of_false (not_lengthsFit_of_fault hround) Bool.noConfusion
  | skip hround _ ih => exact (lengthsFit_of_rest (by rw [hround]; rfl)).trans ih
  | item hround _ ih => exact (lengthsFit_of_rest (by rw [hround]; rfl)).trans ih

/-! ## Encoded messages -/

theorem findSubsequence_crlfCrlf {before : Bytes} (h : 13 ∉ before) (later : Bytes) :
    findSubsequence crlfCrlf (before ++ (crlfCrlf ++ later)) = some before.length := by
  induction before with
  | nil => rfl
  | cons b before ih =>
    have hb : 13 ≠ b := fun heq => h (heq ▸ mem_cons_self)
    have hbefore : 13 ∉ before := fun hmem => h (mem_cons_of_mem b hmem)
    have hbegins : ¬ crlfCrlf.isPrefixOf (b :: (before ++ (crlfCrlf ++ later))) = true := by
      rw [List.isPrefixOf_iff_prefix, crlfCrlf, cons_prefix_cons]
      exact fun hprefixed => hb hprefixed.1
    rw [cons_append, findSubsequence, if_neg hbegins, ih hbefore]
    rfl

theorem splitCrlf_of_not_mem {text : Text} (h : '\r' ∉ text) : splitCrlf text = [text] := by
  induction text with
  | nil => rfl
  | cons c text ih =>
    have hc : c ≠ '\r' := fun heq => h (heq ▸ mem_cons_self)
    have htext : '\r' ∉ text := fun hmem => h (mem_cons_of_mem c hmem)
    rw [splitCrlf.eq_3 c text fun _ hcr => (hc hcr).elim, ih htext]

theorem toNat_of_isDigit {c : Char} (h : c.isDigit = true) : 48 ≤ c.toNat ∧ c.toNat ≤ 57 := by
  simp only [Char.isDigit, Bool.and_eq_true, decide_eq_true_eq, ge_iff_le,
    UInt32.le_iff_toNat_le] at h
  exact h

theorem isWhitespace_of_isDigit {c : Char} (h : c.isDigit = true) : isWhitespace c = false := by
  obtain ⟨hlow, hhigh⟩ := toNat_of_isDigit h
  rw [← Bool.not_eq_true]
  intro hblank
  simp only [isWhitespace, Bool.or_eq_true, Bool.and_eq_true, decide_eq_true_eq, beq_iff_eq] at hblank
  omega

/-- The digits of a number that fits are read back. -/
theorem parseUsize_toDigits {n : ℕ} (h : n < usizeLimit) : parseUsize (Nat.toDigits 10 n) = some n := by
  have hdigits (c : Char) (hc : c ∈ Nat.toDigits 10 n) : c.isDigit = true :=
    Nat.isDigit_of_mem_toDigits (by decide) (by decide) hc
  have hsign : (Nat.toDigits 10 n).head? ≠ some '+' := by
    intro hplus
    have hplus := hdigits '+' (mem_of_head? hplus)
    revert hplus
    decide
  have hne : ¬ (Nat.toDigits 10 n).isEmpty = true := by
    rw [List.isEmpty_iff]
    exact Nat.toDigits_ne_nil
  have hall : ¬ (!(Nat.toDigits 10 n).all Char.isDigit) = true := by
    rw [all_eq_true.mpr hdigits]
    decide
  rw [parseUsize, if_neg hsign]
  simp only [if_neg hne, if_neg hall, Nat.ofDigitChars_ten_toDigits, if_pos h]

theorem trim_cons_space {digits : Text} (hdigits : ∀ c ∈ digits, c.isDigit = true) :
    trim (' ' :: digits) = digits := by
  have hfirst : digits.dropWhile isWhitespace = digits := by
    rw [dropWhile_eq_self_iff]
    intro hlength
    rw [isWhitespace_of_isDigit (hdigits _ (getElem_mem hlength))]
    exact Bool.false_ne_true
  rw [trim, dropWhile_cons_of_pos (by decide), hfirst, rdropWhile_eq_self_iff]
  intro hlast
  rw [isWhitespace_of_isDigit (hdigits _ (getLast_mem hlast))]
  exact Bool.false_ne_true

theorem contentLengthOf_header {n : ℕ} (h : n < usizeLimit) :
    contentLengthOf [("Content-Length: " : String).toList ++ Nat.toDigits 10 n] = some n := by
  have honce : splitOnce ':' (("Content-Length: " : String).toList ++ Nat.toDigits 10 n) =
      some ("Content-Length".toList, ' ' :: Nat.toDigits 10 n) := by
    rw [splitOnce, if_pos]
    · rfl
    · rfl
  have hdigits (c : Char) (hc : c ∈ Nat.toDigits 10 n) : c.isDigit = true :=
    Nat.isDigit_of_mem_toDigits (by decide) (by decide) hc
  have hkey : (trim "Content-Length".toList).map Char.toLower =
      "Content-Length".toList.map Char.toLower := by
    decide
  rw [contentLengthOf, honce]
  simp only [if_pos hkey, trim_cons_space hdigits, parseUsize_toDigits h]

/-- The header without the blank line that ends it. -/
def headerLine (n : ℕ) : Text := "Content-Length: ".toList ++ Nat.toDigits 10 n

theorem headerLine_eq (n : ℕ) : headerLine n = "Content-Length: ".toList ++ Nat.toDigits 10 n := rfl

theorem utf8Bytes_headerText (n : ℕ) :
    utf8Bytes (headerText n) = utf8Bytes (String.ofList (headerLine n)) ++ crlfCrlf := by
  have hline : headerText n = String.ofList (headerLine n) ++ "\r\n\r\n" := by
    rw [headerLine_eq, String.ofList_append, String.ofList_toList, ← Nat.toString_eq_ofList_toDigits]
    rfl
  have hblank : utf8Bytes "\r\n\r\n" = crlfCrlf := by decide
  rw [hline, utf8Bytes_append, hblank]

/-- An ASCII character is one byte. -/
theorem mem_utf8EncodeChar {c : Char} {b : UInt8} (hc : c.toNat ≤ 127)
    (hb : b ∈ String.utf8EncodeChar c) : b.toNat = c.toNat := by
  have hval : c.val.toNat ≤ 127 := hc
  rw [String.utf8EncodeChar, if_pos hval, mem_singleton] at hb
  rw [hb, UInt8.toNat_ofNat']
  exact Nat.mod_eq_of_lt (by omega)

theorem headerLine_ascii (n : ℕ) : ∀ c ∈ headerLine n, 32 ≤ c.toNat ∧ c.toNat ≤ 127 := by
  intro c hc
  rcases mem_append.mp hc with hc | hc
  · have hall : "Content-Length: ".toList.all fun c => 32 ≤ c.toNat && c.toNat ≤ 127 := by decide
    have h := all_eq_true.mp hall c hc
    rwa [Bool.and_eq_true, decide_eq_true_iff, decide_eq_true_iff] at h
  · obtain ⟨hlow, hhigh⟩ := toNat_of_isDigit (Nat.isDigit_of_mem_toDigits (by decide) (by decide) hc)
    omega

theorem not_mem_utf8Bytes_headerLine (n : ℕ) : 13 ∉ utf8Bytes (String.ofList (headerLine n)) := by
  have hbytes : utf8Bytes (String.ofList (headerLine n)) =
      (headerLine n).flatMap String.utf8EncodeChar := by
    simp [utf8Bytes, List.utf8Encode]
  rw [hbytes, mem_flatMap]
  rintro ⟨c, hc, hbyte⟩
  obtain ⟨hlow, hhigh⟩ := headerLine_ascii n c hc
  have hbyte := mem_utf8EncodeChar hhigh hbyte
  have hcr : (13 : UInt8).toNat = 13 := rfl
  omega

theorem parseContentLength_headerLine {n : ℕ} (h : n < usizeLimit) :
    parseContentLength (utf8Bytes (String.ofList (headerLine n))) = some n := by
  have hcr : '\r' ∉ headerLine n := by
    intro hcr
    have hlow := (headerLine_ascii n _ hcr).1
    revert hlow
    decide
  rw [parseContentLength, fromUtf8_utf8Bytes, Option.bind_some, String.toList_ofList,
    splitCrlf_of_not_mem hcr, headerLine_eq, contentLengthOf_header h]

/-- An encoded message is one item, whatever comes after it. -/
theorem round_encodeMessage {toVec : V → Bytes} (hjson : ∀ v, fromSlice (toVec v) = some v) {value : V}
    (hfit : (encodeMessage toVec value).length < usizeLimit) (later : Bytes) :
    round fromSlice (encodeMessage toVec value ++ later) = .item value later := by
  let line := utf8Bytes (String.ofList (headerLine (toVec value).length))
  have hencode : encodeMessage toVec value = line ++ (crlfCrlf ++ toVec value) := by
    rw [encodeMessage, utf8Bytes_headerText, append_assoc]
  have hlength : (encodeMessage toVec value).length = line.length + 4 + (toVec value).length := by
    rw [hencode, length_append, length_append, Nat.add_assoc]
    rfl
  have hbuffer : encodeMessage toVec value ++ later = line ++ (crlfCrlf ++ (toVec value ++ later)) := by
    rw [hencode, append_assoc, append_assoc]
  have hheader : Header (encodeMessage toVec value ++ later) line.length
      (some (toVec value).length) := by
    rw [hbuffer]
    refine ⟨findSubsequence_crlfCrlf (not_mem_utf8Bytes_headerLine _) _, ?_⟩
    rw [take_left, parseContentLength_headerLine (by omega)]
  have hbody : (encodeMessage toVec value ++ later).drop (line.length + 4) = toVec value ++ later := by
    rw [hbuffer, ← append_assoc]
    exact drop_left' (by rw [length_append]; rfl)
  have hrest : (encodeMessage toVec value ++ later).drop (line.length + 4 + (toVec value).length) =
      later := by
    rw [← hlength, drop_left]
  rw [round_of_frame hheader (by omega) (by rw [length_append]; omega), hbody, hrest,
    take_left, bodyRound, hjson]

theorem drains_encoded {toVec : V → Bytes} (hjson : ∀ v, fromSlice (toVec v) = some v)
    (hfit : ∀ v ∈ vs, (encodeMessage toVec v).length < usizeLimit) :
    Drains (round fromSlice) (vs.map (encodeMessage toVec)).flatten vs [] false := by
  induction vs with
  | nil => exact .more rfl
  | cons v vs ih =>
    obtain ⟨hv, hvs⟩ := forall_mem_cons.mp hfit
    exact .item (round_encodeMessage hjson hv _) (ih hvs)

/-! ## Chunks -/

/-- However the stream is cut, encoded messages are read back and the messages of any stream are the same,
without a panic, exactly if every declared length fits behind its header. -/
theorem chunking_iff {toVec : V → Bytes} (hjson : ∀ v, fromSlice (toVec v) = some v) (stream : Bytes) :
    ((∀ vs : List V, (∀ v ∈ vs, (encodeMessage toVec v).length < usizeLimit) →
        stream = (vs.map (encodeMessage toVec)).flatten → ∀ chunks : List Bytes,
        chunks.flatten = stream → readChunks fromSlice chunks [] = some ⟨vs, [], false⟩) ∧
      ∃ messages left, ∀ chunks : List Bytes, chunks.flatten = stream →
        readChunks fromSlice chunks [] = some ⟨messages, left, false⟩) ↔ LengthsFit stream := by
  obtain ⟨messages, left, faulted, hdrains⟩ := (incremental_round fromSlice).exists_drains stream
  have hread (chunks : List Bytes) (hchunks : chunks.flatten = stream) :
      ∃ unread, readChunks fromSlice chunks [] = some ⟨messages, unread, faulted⟩ ∧
        (faulted = false → unread = left) := by
    refine readChunks_eq rfl ?_
    rwa [nil_append, hchunks]
  rw [lengthsFit_iff hdrains]
  constructor
  · rintro ⟨-, messages', left', hall⟩
    obtain ⟨unread, hstream, -⟩ := hread [stream] (flatten_singleton)
    have hgot := Option.some.inj ((hall [stream] flatten_singleton).symm.trans hstream)
    exact (congrArg Got.panicked hgot).symm
  · rintro rfl
    have hwhole (chunks : List Bytes) (hchunks : chunks.flatten = stream) :
        readChunks fromSlice chunks [] = some ⟨messages, left, false⟩ := by
      obtain ⟨unread, hstream, hunread⟩ := hread chunks hchunks
      rw [hstream, hunread rfl]
    refine ⟨fun vs hfit hencoded chunks hchunks => ?_, messages, left, hwhole⟩
    obtain ⟨rfl, rfl, -⟩ := hdrains.unique (hencoded ▸ drains_encoded hjson hfit)
    exact hwhole chunks hchunks

end

/-- The two booleans as JSON. -/
private def boolVec (v : Bool) : Bytes := utf8Bytes (if v then "true" else "false")

private def boolSlice (body : Bytes) : Option Bool :=
  if body = boolVec true then some true else if body = boolVec false then some false else none

private theorem boolSlice_boolVec : ∀ v, boolSlice (boolVec v) = some v := by
  decide

/-- The first cut is in the header of the second frame, the next ones in its blank line. -/
theorem chunking_iff_bool :
    readChunks boolSlice [utf8Bytes "Content-Length: 4\r\n\r\ntrueCont", utf8Bytes "ent-Length: 5\r\n",
      utf8Bytes "\r", utf8Bytes "\nfalse"] [] = some ⟨[true, false], [], false⟩ := by
  have hfit : ∀ v ∈ [true, false], (encodeMessage boolVec v).length < usizeLimit := by decide
  have hlengths : LengthsFit ([true, false].map (encodeMessage boolVec)).flatten :=
    (lengthsFit_iff (drains_encoded boolSlice_boolVec hfit)).mpr rfl
  exact ((chunking_iff boolSlice_boolVec _).mpr hlengths).1 _ hfit rfl _ (by decide)

/-- The largest `usize` does not fit behind a header, and the sum overflows. -/
theorem readChunks_overflow :
    readChunks boolSlice [utf8Bytes "Content-Length: 18446744073709551615\r\n\r\n"] [] =
      some ⟨[], utf8Bytes "Content-Length: 18446744073709551615\r\n\r\n", true⟩ := by
  decide

end Taomni.Dap
