import Taomni.Common.Lines
import Taomni.Encoding.RoundTrip
import Taomni.Save.SaveBytes

/-!
# Two writers of one text

Reference: `prepareSaveTextForWriter` and `encodeSaveBytes` of
`src/components/editor/workspace/saveCommit.ts`, `encode_workspace_text` of
`src-tauri/src/workspace/encoding.rs`.

The bytes the editor hashes are its own; the file gets those of the native writer. In the Unicode
encodings they are the same. For ISO-8859-1 and US-ASCII the native writer uses windows-1252, so
the writers differ on the texts `SingleByteFits` leaves out. `writers_agree_iff` says both, and that a
retried save keeps its text unless it begins with two byte order marks.
-/

namespace Taomni.Save

open List
open Encoding LineEndings
open JsString (lf cr)

/-! ## The logical text -/

/-- The text without one leading byte order mark. -/
def withoutBom {α : Type} [DecidableEq α] (bom : α) (text : List α) : List α :=
  if text.head? = some bom then text.tail else text

/-- The line ending of a policy, as code units. -/
def eolUnits : SaveEol → JsString
  | .lf => [lf]
  | .crlf => [cr, lf]
  | .cr => [cr]

theorem eolUnits_isEol (eol : SaveEol) : IsEol cr lf (eolUnits eol) := by
  cases eol with
  | lf => exact .inl rfl
  | crlf => exact .inr (.inl rfl)
  | cr => exact .inr (.inr rfl)

theorem lfText_eq (text : JsString) : lfText text = unifyLines cr lf text := by
  fun_induction lfText text with
  | case1 => rfl
  | case2 => rfl
  | case3 u hu => exact (unifyLines_cons_of_ne hu []).symm
  | case4 rest ih => rw [ih, unifyLines_crlf]
  | case5 v rest hv ih => rw [ih, unifyLines_cr (by simpa using hv)]
  | case6 u v rest hu ih => rw [ih, unifyLines_cons_of_ne hu]

theorem prepareSaveTextForWriter_eq (text : JsString) (policy : SaveCommitPolicy) :
    prepareSaveTextForWriter text policy
      = writeLines lf (eolUnits policy.eol) (unifyLines cr lf (withoutBom 0xFEFF text)) := by
  rw [prepareSaveTextForWriter, ← lfText_eq, withoutBom]
  cases policy.eol with
  | crlf => rfl
  | cr => exact (writeLines_singleton cr _).symm
  | lf => exact (writeLines_self _).symm

/-! ## A retried save -/

theorem withoutBom_of_ne {α : Type} [DecidableEq α] {bom : α} {text : List α}
    (h : text.head? ≠ some bom) : withoutBom bom text = text := if_neg h

theorem withoutBom_cons {α : Type} [DecidableEq α] (bom : α) (text : List α) :
    withoutBom bom (bom :: text) = text := if_pos rfl

/-- Preparing a text again changes nothing, unless it begins with two byte order marks. -/
theorem prepareSaveTextForWriter_idempotent_iff (text : JsString) (policy : SaveCommitPolicy) :
    prepareSaveTextForWriter (prepareSaveTextForWriter text policy) policy
        = prepareSaveTextForWriter text policy ↔ ¬ [0xFEFF, 0xFEFF] <+: text := by
  have hagain : ∀ logical : JsString, unifyLines cr lf (writeLines lf (eolUnits policy.eol)
      (unifyLines cr lf logical)) = unifyLines cr lf logical := fun logical =>
    unifyLines_writeLines (by decide) (eolUnits_isEol policy.eol)
      (notMem_unifyLines (by decide) logical)
  rw [prepareSaveTextForWriter_eq, prepareSaveTextForWriter_eq]
  by_cases hbom : (withoutBom 0xFEFF text).head? = some 0xFEFF
  · -- the mark the first pass left is taken by the second
    obtain ⟨rest, hrest⟩ : ∃ rest, withoutBom 0xFEFF text = 0xFEFF :: rest :=
      List.head?_eq_some_iff.mp hbom
    have htwo : [0xFEFF, 0xFEFF] <+: text := by
      by_cases hhead : text.head? = some 0xFEFF
      · obtain ⟨tail, rfl⟩ := List.head?_eq_some_iff.mp hhead
        rw [withoutBom_cons] at hrest
        exact ⟨rest, by rw [hrest]; rfl⟩
      · rw [withoutBom_of_ne hhead] at hbom
        exact absurd hbom hhead
    refine iff_of_false (fun heq => ?_) (not_not.mpr htwo)
    rw [hrest, unifyLines_cons_of_ne (by decide), writeLines_cons_of_ne (by decide), withoutBom_cons,
      hagain] at heq
    exact absurd (congrArg List.length heq) (by simp)
  · have hhead : (writeLines lf (eolUnits policy.eol) (unifyLines cr lf
        (withoutBom 0xFEFF text))).head? ≠ some 0xFEFF := by
      rw [ne_eq, head?_writeLines (by decide), head?_unifyLines (by decide) (by decide)]
      · exact hbom
      · cases policy.eol <;> decide
      · cases policy.eol <;> decide
    rw [withoutBom_of_ne hhead, hagain]
    refine iff_of_true rfl ?_
    rintro ⟨rest, rfl⟩
    exact hbom rfl

/-! ## Characters and code units -/

/-- The byte order mark. -/
def bomChar : Char := Char.ofNat 0xFEFF

/-- The line ending of a policy, as characters. -/
def eolChars : SaveEol → List Char
  | .lf => ['\n']
  | .crlf => ['\r', '\n']
  | .cr => ['\r']

/-- The characters of the prepared text. -/
def preparedChars (policy : SaveCommitPolicy) (text : List Char) : List Char :=
  writeLines '\n' (eolChars policy.eol) (unifyLines '\r' '\n' (withoutBom bomChar text))

theorem toNat_of_mem_utf16Char {c : Char} {u : UInt16} (hu : u.toNat < 0xD800)
    (h : u ∈ utf16Char c) : c.toNat = u.toNat := by
  have hc := toNat_char c
  rw [utf16Char] at h
  split at h
  · next hplane =>
    obtain rfl := mem_singleton.mp h
    exact (UInt16.toNat_ofNat_of_lt' hplane).symm
  · have hhi : (UInt16.ofNat (0xD800 + (c.toNat - 0x10000) / 0x400)).toNat
        = 0xD800 + (c.toNat - 0x10000) / 0x400 := UInt16.toNat_ofNat_of_lt' (show _ < 65536 by omega)
    have hlo : (UInt16.ofNat (0xDC00 + (c.toNat - 0x10000) % 0x400)).toNat
        = 0xDC00 + (c.toNat - 0x10000) % 0x400 := UInt16.toNat_ofNat_of_lt' (show _ < 65536 by omega)
    rcases mem_pair.mp h with rfl | rfl <;> omega

private theorem notMem_utf16Char {c d : Char} {u : UInt16} (hu : u.toNat < 0xD800)
    (hd : d.toNat = u.toNat) (h : c ≠ d) : u ∉ utf16Char c := fun hmem =>
  h (Char.toNat_inj.mp ((toNat_of_mem_utf16Char hu hmem).trans hd.symm))

theorem utf16Char_ne_nil (c : Char) : utf16Char c ≠ [] := by
  rw [utf16Char]
  split <;> exact cons_ne_nil _ _

theorem withoutBom_encodeUtf16 (text : List Char) :
    withoutBom 0xFEFF (encodeUtf16 text) = encodeUtf16 (withoutBom bomChar text) := by
  by_cases hbom : text.head? = some bomChar
  · obtain ⟨rest, rfl⟩ := List.head?_eq_some_iff.mp hbom
    rw [withoutBom_cons]
    exact withoutBom_cons 0xFEFF (encodeUtf16 rest)
  · rw [withoutBom_of_ne hbom, withoutBom_of_ne fun hhead => hbom ?_]
    obtain ⟨rest, hrest⟩ := List.head?_eq_some_iff.mp hhead
    exact head?_of_encodeUtf16_cons hrest

/-- Preparing works on characters as it does on their code units. -/
theorem prepareSaveTextForWriter_encodeUtf16 (text : List Char) (policy : SaveCommitPolicy) :
    prepareSaveTextForWriter (encodeUtf16 text) policy = encodeUtf16 (preparedChars policy text) := by
  have hcr : ∀ c : Char, c ≠ '\r' → cr ∉ utf16Char c := fun c => notMem_utf16Char (by decide) rfl
  have hlf : ∀ c : Char, c ≠ '\n' → lf ∉ utf16Char c := fun c => notMem_utf16Char (by decide) rfl
  have heol : eolUnits policy.eol = (eolChars policy.eol).flatMap utf16Char := by
    cases policy.eol <;> decide
  rw [prepareSaveTextForWriter_eq, withoutBom_encodeUtf16, preparedChars, heol, encodeUtf16,
    unifyLines_flatMap (by decide) (by decide) hcr hlf utf16Char_ne_nil,
    writeLines_flatMap (by decide) hlf]
  rfl

variable {chars : List Char}

/-- The text encoder reads well-formed code units as their characters. -/
theorem usvString_of_decodeUtf16 {text : JsString}
    (h : decodeUtf16 text = some chars) : usvString text = chars := by
  fun_induction decodeUtf16 text generalizing chars with
  | case1 => exact Option.some.inj h
  | case2 => cases h
  | case3 u hunit =>
    obtain rfl := Option.some.inj h
    have hu : isSurrogate u = false := by simpa [isSurrogate] using hunit
    rw [usvString, hu, if_neg Bool.false_ne_true]
  | case4 u v rest hsurrogate hpair ih =>
    obtain ⟨tail, htail, rfl⟩ := Option.map_eq_some_iff.mp h
    have hu : (isSurrogate u && u.toNat < 0xDC00 && isSurrogate v && 0xDC00 ≤ v.toNat) = true := by
      simp only [isSurrogate, Bool.and_eq_true, decide_eq_true_eq]
      omega
    rw [usvString, if_pos hu, ih htail]
  | case5 => cases h
  | case6 u v rest hunit ih =>
    obtain ⟨tail, htail, rfl⟩ := Option.map_eq_some_iff.mp h
    have hu : isSurrogate u = false := by simpa [isSurrogate] using hunit
    rw [usvString, hu, ih htail]
    simp

/-! ## Agreement -/

/-- Two calls that both fail, or give the same result. -/
inductive SameOutcome {ε δ α : Type} : Except ε α → Except δ α → Prop
  | fail (e : ε) (d : δ) : SameOutcome (.error e) (.error d)
  | done (a : α) : SameOutcome (.ok a) (.ok a)

/-- The native writer, given the prepared text, writes the bytes of the editor's encoder. -/
def EncodersAgree (rs : EncodingRs) (sha256 : Sha256) (text : JsString) (policy : SaveCommitPolicy) :
    Prop :=
  ∃ contents : String, decodeUtf16 (prepareSaveTextForWriter text policy) = some contents.toList ∧
    SameOutcome ((encodeSaveBytes sha256 text policy).map EncodedSaveBytes.bytes)
      (encodeWorkspaceText rs contents policy.encoding policy.bom)

theorem map_encodeSaveBytes (sha256 : Sha256) (text : JsString) (policy : SaveCommitPolicy) :
    (encodeSaveBytes sha256 text policy).map EncodedSaveBytes.bytes
      = rawBytes (prepareSaveTextForWriter text policy) policy := by
  rw [encodeSaveBytes]
  cases rawBytes (prepareSaveTextForWriter text policy) policy <;> rfl

variable {policy : SaveCommitPolicy}

/-- On a well-formed text the two encoders get the prepared characters. -/
theorem encodersAgree_iff {rs : EncodingRs} {sha256 : Sha256} {text : List Char}
    : EncodersAgree rs sha256 (encodeUtf16 text) policy ↔
      SameOutcome (rawBytes (encodeUtf16 (preparedChars policy text)) policy)
        (encodeWorkspaceText rs (String.ofList (preparedChars policy text)) policy.encoding
          policy.bom) := by
  rw [EncodersAgree, map_encodeSaveBytes, prepareSaveTextForWriter_encodeUtf16,
    decodeUtf16_encodeUtf16]
  constructor
  · rintro ⟨contents, hcontents, hsame⟩
    rw [Option.some.inj hcontents] at hsame ⊢
    rwa [String.ofList_toList]
  · intro hsame
    exact ⟨_, by rw [String.toList_ofList], hsame⟩

/-- The encodings a save policy names. -/
def saveEncodings : List String := ["UTF-8", "UTF-16LE", "UTF-16BE", "ISO-8859-1", "US-ASCII"]

theorem encodingName_of_mem (h : policy.encoding ∈ saveEncodings) :
    encodingName policy = policy.encoding := by
  rw [encodingName]
  generalize policy.encoding = encoding at h ⊢
  rw [saveEncodings] at h
  simp only [mem_cons, not_mem_nil, or_false] at h
  rcases h with rfl | rfl | rfl | rfl | rfl
  all_goals
    rw [if_neg (by decide), ← String.toList_inj, String.toList_map]
    decide

section Encoders

variable {rs : EncodingRs} {windows1252 : rs.Enc}

/-! ### Unicode -/

theorem unicode_agree (laws : EncodingLaws rs)
    (hencoding : policy.encoding ∈ ["UTF-8", "UTF-16LE", "UTF-16BE"]) (chars : List Char) :
    SameOutcome (rawBytes (encodeUtf16 chars) policy)
      (encodeWorkspaceText rs (String.ofList chars) policy.encoding policy.bom) := by
  obtain ⟨eol, encoding, bom⟩ := policy
  rw [mem_cons, mem_cons, mem_singleton] at hencoding
  obtain ⟨native, hlabel, hunicode, payload, hpayload, hraw⟩ : ∃ native,
      encodingForLabel rs encoding = .ok native ∧ IsUnicode rs native ∧ ∃ payload,
        encodePayload rs (String.ofList chars) native = .ok payload ∧
        rawBytes (encodeUtf16 chars) ⟨eol, encoding, bom⟩ = .ok (withBom rs native bom payload) := by
    rcases hencoding with rfl | rfl | rfl
    · refine ⟨rs.utf8, laws.name_utf8 ▸ encodingForLabel_name laws (.inl rfl), .inl rfl, _,
        encodePayload_utf8 laws _, ?_⟩
      have hname : encodingName ⟨eol, "UTF-8", bom⟩ = "UTF-8" :=
        encodingName_of_mem (show "UTF-8" ∈ saveEncodings by decide)
      rw [rawBytes, hname, if_pos rfl, withBom, bomOf_utf8, textEncoderEncode,
        usvString_of_decodeUtf16 (decodeUtf16_encodeUtf16 chars)]
      cases bom <;> rfl
    · refine ⟨rs.utf16le, laws.name_utf16le ▸ encodingForLabel_name laws (.inr (.inl rfl)),
        .inr (.inl rfl), _, encodePayload_utf16le _, ?_⟩
      have hname : encodingName ⟨eol, "UTF-16LE", bom⟩ = "UTF-16LE" :=
        encodingName_of_mem (show "UTF-16LE" ∈ saveEncodings by decide)
      rw [rawBytes, hname, withBom, bomOf_utf16le laws, String.toList_ofList]
      cases bom <;> rfl
    · refine ⟨rs.utf16be, laws.name_utf16be ▸ encodingForLabel_name laws (.inr (.inr rfl)),
        .inr (.inr rfl), _, encodePayload_utf16be laws _, ?_⟩
      have hname : encodingName ⟨eol, "UTF-16BE", bom⟩ = "UTF-16BE" :=
        encodingName_of_mem (show "UTF-16BE" ∈ saveEncodings by decide)
      rw [rawBytes, hname, withBom, bomOf_utf16be laws, String.toList_ofList]
      cases bom <;> rfl
  rw [hraw, encodeWorkspaceText_eq laws hlabel hunicode hpayload]
  exact .done _

/-! ### Single bytes -/

variable {limit : ℕ}

/-- The editor's single-byte encoder fails on a character above its limit only. -/
theorem encodeSingleByte_error (hlimit : limit < 0xD800)
    (h : ∃ c ∈ chars, limit < c.toNat) (name : String) :
    ∃ err, encodeSingleByte limit name (encodeUtf16 chars) = .error err := by
  obtain ⟨c, hc, hlt⟩ := h
  have hunit : ∃ u ∈ utf16Char c, limit < u.toNat := by
    have hrange := toNat_char c
    rw [utf16Char]
    split
    · next hplane =>
      exact ⟨_, mem_singleton_self _, by rwa [UInt16.toNat_ofNat_of_lt' hplane]⟩
    · refine ⟨_, mem_cons_self, ?_⟩
      rw [UInt16.toNat_ofNat_of_lt' (show _ < 65536 by omega)]
      omega
  obtain ⟨u, hu, hlt⟩ := hunit
  rw [encodeSingleByte]
  cases hfind : (encodeUtf16 chars).findIdx? fun u => limit < u.toNat with
  | some i => exact ⟨_, rfl⟩
  | none =>
    have := findIdx?_eq_none_iff.mp hfind u (mem_flatMap.mpr ⟨c, hc, hu⟩)
    exact absurd (decide_eq_true hlt) (by rw [this]; exact Bool.false_ne_true)

theorem encodeSingleByte_ok (hlimit : limit ≤ 0xFF)
    (h : ∀ c ∈ chars, c.toNat ≤ limit) (name : String) : encodeSingleByte limit name (encodeUtf16 chars)
      = .ok (chars.map fun c => UInt8.ofNat c.toNat) := by
  have hunits : encodeUtf16 chars = chars.map fun c => UInt16.ofNat c.toNat := by
    rw [encodeUtf16, map_eq_flatMap]
    exact flatMap_congr fun c hc => if_pos (by have := h c hc; omega)
  have hnone : (encodeUtf16 chars).findIdx? (fun u => limit < u.toNat) = none := by
    rw [findIdx?_eq_none_iff, hunits]
    intro u hu
    obtain ⟨c, hc, rfl⟩ := mem_map.mp hu
    have := h c hc
    rw [UInt16.toNat_ofNat_of_lt' (show _ < 65536 by omega), decide_eq_false_iff_not]
    omega
  rw [encodeSingleByte, hnone, hunits, map_map]
  refine congrArg Except.ok (map_congr_left fun c hc => ?_)
  have := h c hc
  refine UInt8.toNat_inj.mp ?_
  rw [Function.comp_apply, UInt16.toNat_toUInt8, UInt16.toNat_ofNat_of_lt' (show _ < 65536 by omega),
    UInt8.toNat_ofNat_of_lt' (show _ < 256 by omega), Nat.mod_eq_of_lt (by omega)]

/-- What the native writer does under a label of windows-1252. -/
theorem encodeWorkspaceText_windows1252 (latin : Windows1252Laws rs windows1252) {label : String}
    (hlabel : encodingForLabel rs label = .ok windows1252) (text : String) (bom : Bool) :
    ((∃ c ∈ text.toList, windows1252Byte c = none) →
      ∃ message, encodeWorkspaceText rs text label bom = .error message) ∧
    ∀ bytes, text.toList.mapM windows1252Byte = some bytes →
      encodeWorkspaceText rs text label bom = .ok bytes := by
  rw [encodeWorkspaceText, hlabel]
  dsimp only
  rw [encodePayload, if_neg (not_or.mpr ⟨latin.ne_utf16le, latin.ne_utf16be⟩)]
  constructor
  · intro hnone
    dsimp only
    rw [latin.encode_unmapped text hnone, if_pos rfl]
    exact ⟨_, rfl⟩
  · intro bytes hbytes
    rw [latin.encode_mapped text bytes hbytes]
    simp [latin.ne_utf8, latin.ne_utf16le, latin.ne_utf16be]

/-- The text has a character above the limit exactly when it has one without a byte in windows-1252. -/
def SingleByteFits (limit : ℕ) (chars : List Char) : Prop :=
  (∃ c ∈ chars, limit < c.toNat) ↔ ∃ c ∈ chars, windows1252Byte c = none

instance (limit : ℕ) (chars : List Char) : Decidable (SingleByteFits limit chars) :=
  decidable_of_iff ((chars.any fun c => decide (limit < c.toNat))
      = chars.any fun c => (windows1252Byte c).isNone) <| by
    rw [SingleByteFits, Bool.eq_iff_iff, any_eq_true, any_eq_true]
    simp only [decide_eq_true_eq, Option.isNone_iff_eq_none]

/-- The single-byte encoder and windows-1252 agree on the texts that fit. -/
theorem singleByte_agree_iff (latin : Windows1252Laws rs windows1252) {label : String}
    (hlabel : encodingForLabel rs label = .ok windows1252) (hlimit : limit ≤ 0xFF)
    (name : String) (chars : List Char) (bom : Bool) :
    SameOutcome (encodeSingleByte limit name (encodeUtf16 chars))
      (encodeWorkspaceText rs (String.ofList chars) label bom) ↔ SingleByteFits limit chars := by
  obtain ⟨hfail, hdone⟩ := encodeWorkspaceText_windows1252 latin hlabel (String.ofList chars) bom
  rw [String.toList_ofList] at hfail hdone
  by_cases hlarge : ∃ c ∈ chars, limit < c.toNat
  · obtain ⟨err, herr⟩ := encodeSingleByte_error (by omega) hlarge name
    rw [herr, SingleByteFits, iff_true_left hlarge]
    constructor
    · intro hsame
      by_contra hmapped
      obtain ⟨bytes, hbytes⟩ := exists_mapM fun c hc hnone => hmapped ⟨c, hc, hnone⟩
      rw [hdone bytes hbytes] at hsame
      cases hsame
    · intro hnone
      obtain ⟨message, hmessage⟩ := hfail hnone
      rw [hmessage]
      exact .fail err message
  · have hsmall : ∀ c ∈ chars, c.toNat ≤ limit := fun c hc =>
      not_lt.mp fun hlt => hlarge ⟨c, hc, hlt⟩
    rw [encodeSingleByte_ok hlimit hsmall name, SingleByteFits, iff_false_left hlarge]
    constructor
    · intro hsame hnone
      obtain ⟨message, hmessage⟩ := hfail hnone
      rw [hmessage] at hsame
      cases hsame
    · intro hmapped
      have hbytes : chars.mapM windows1252Byte = some (chars.map fun c => UInt8.ofNat c.toNat) :=
        mapM_eq_pure fun c hc => windows1252Byte_of_le ((hsmall c hc).trans hlimit) fun hnone =>
          hmapped ⟨c, hc, hnone⟩
      rw [hdone _ hbytes]
      exact .done _

/-! ### The five encodings -/

/-- What an encoding with a limit asks of the text behind its mark; the Unicode encodings ask
nothing. -/
def EncodingFits (policy : SaveCommitPolicy) (text : List Char) : Prop :=
  (policy.encoding = "ISO-8859-1" → SingleByteFits 0xFF (withoutBom bomChar text)) ∧
    (policy.encoding = "US-ASCII" → SingleByteFits 0x7F (withoutBom bomChar text))

/-- Apart from line endings, the prepared text has the characters behind the mark. -/
theorem exists_mem_preparedChars {P : Char → Prop} (hcr : ¬ P '\r') (hlf : ¬ P '\n')
    (policy : SaveCommitPolicy) (text : List Char) :
    (∃ c ∈ preparedChars policy text, P c) ↔ ∃ c ∈ withoutBom bomChar text, P c := by
  have heol : ∀ c ∈ eolChars policy.eol, ¬ P c := by
    cases policy.eol <;> simp [eolChars, hcr, hlf]
  rw [preparedChars, exists_mem_writeLines hlf heol, exists_mem_unifyLines hcr hlf]

theorem singleByteFits_preparedChars (hlimit : 13 ≤ limit) (policy : SaveCommitPolicy)
    (text : List Char) : SingleByteFits limit (preparedChars policy text)
      ↔ SingleByteFits limit (withoutBom bomChar text) := by
  have hlarge := exists_mem_preparedChars (P := fun c => limit < c.toNat)
    (not_lt.mpr hlimit) (not_lt.mpr (le_trans (by decide) hlimit)) policy text
  have hunmapped := exists_mem_preparedChars (P := fun c => windows1252Byte c = none) (by decide)
    (by decide) policy text
  rw [SingleByteFits, SingleByteFits, hlarge, hunmapped]

theorem encodersAgree_fits_iff (laws : EncodingLaws rs) (latin : Windows1252Laws rs windows1252)
    (sha256 : Sha256) (text : List Char) (hencoding : policy.encoding ∈ saveEncodings) :
    EncodersAgree rs sha256 (encodeUtf16 text) policy ↔ EncodingFits policy text := by
  have hname := encodingName_of_mem hencoding
  rw [encodersAgree_iff, EncodingFits]
  by_cases hlatin : policy.encoding = "ISO-8859-1"
  · have hlabel : encodingForLabel rs "ISO-8859-1" = .ok windows1252 := by
      have hnormal : normalizeLabel "ISO-8859-1" = "ISO-8859-1" := by decide
      rw [encodingForLabel, hnormal, latin.forLabel_latin1]
    rw [rawBytes, hname, hlatin]
    simp only [String.reduceEq, if_false, true_or, if_true, forall_const, false_imp_iff, and_true]
    rw [singleByte_agree_iff latin hlabel le_rfl, singleByteFits_preparedChars (by decide)]
  by_cases hascii : policy.encoding = "US-ASCII"
  · have hlabel : encodingForLabel rs "US-ASCII" = .ok windows1252 := by
      have hnormal : normalizeLabel "US-ASCII" = "US-ASCII" := by decide
      rw [encodingForLabel, hnormal, latin.forLabel_ascii]
    rw [rawBytes, hname, hascii]
    simp only [String.reduceEq, if_false, true_or, or_self, if_true, forall_const,
      false_imp_iff, true_and]
    rw [singleByte_agree_iff latin hlabel (by decide), singleByteFits_preparedChars (by decide)]
  · refine iff_of_true (unicode_agree laws ?_ _) ⟨fun h => absurd h hlatin, fun h => absurd h hascii⟩
    simpa [saveEncodings, hlatin, hascii] using hencoding

end Encoders

/-- The editor's encoder and the native writer agree on a well-formed text exactly when it fits the
encoding, and a text prepared twice is the text prepared once exactly when it does not begin with two
byte order marks. -/
theorem writers_agree_iff (rs : EncodingRs) (laws : EncodingLaws rs) (windows1252 : rs.Enc)
    (latin : Windows1252Laws rs windows1252) (sha256 : Sha256) :
    (∀ (text : String) (policy : SaveCommitPolicy), policy.encoding ∈ saveEncodings →
      (EncodersAgree rs sha256 (encodeUtf16 text.toList) policy ↔ EncodingFits policy text.toList)) ∧
    ∀ (text : JsString) (policy : SaveCommitPolicy),
      (prepareSaveTextForWriter (prepareSaveTextForWriter text policy) policy
          = prepareSaveTextForWriter text policy ↔ ¬ [0xFEFF, 0xFEFF] <+: text) :=
  ⟨fun text _ hencoding => encodersAgree_fits_iff laws latin sha256 text.toList hencoding,
    prepareSaveTextForWriter_idempotent_iff⟩

/-- A stand-in for the hash functions, which the bytes do not depend on. -/
def lengthHash : Sha256 where
  hexOfText text := toString text.length
  hexOfBytes bytes := toString bytes.length

/-- The statement at `é` in ISO-8859-1 and at a text behind one mark. -/
theorem writers_agree_latin1 :
    EncodersAgree webRs lengthHash (encodeUtf16 "é\n".toList) ⟨.crlf, "ISO-8859-1", false⟩ ∧
      prepareSaveTextForWriter (prepareSaveTextForWriter [0xFEFF, 97, 10] ⟨.crlf, "UTF-8", true⟩)
          ⟨.crlf, "UTF-8", true⟩ = prepareSaveTextForWriter [0xFEFF, 97, 10] ⟨.crlf, "UTF-8", true⟩ :=
  ⟨((writers_agree_iff webRs webRs_laws WebEncoding.windows1252 webRs_windows1252 lengthHash).1 "é\n"
      ⟨.crlf, "ISO-8859-1", false⟩ (by decide)).mpr
      ⟨fun _ => by decide, fun h => absurd h (by decide)⟩,
    ((writers_agree_iff webRs webRs_laws WebEncoding.windows1252 webRs_windows1252 lengthHash).2 _
      _).mpr (by decide)⟩

/-- The editor rejects `é` in US-ASCII and the native writer writes it as one byte; and preparing two
byte order marks twice takes both. -/
theorem writers_disagree_ascii : EncodingLaws webRs ∧ Windows1252Laws webRs WebEncoding.windows1252 ∧
      ¬ EncodersAgree webRs lengthHash (encodeUtf16 "é".toList) ⟨.lf, "US-ASCII", false⟩ ∧
      prepareSaveTextForWriter (prepareSaveTextForWriter [0xFEFF, 0xFEFF] ⟨.lf, "UTF-8", false⟩)
          ⟨.lf, "UTF-8", false⟩ ≠ prepareSaveTextForWriter [0xFEFF, 0xFEFF] ⟨.lf, "UTF-8", false⟩ := by
  refine ⟨webRs_laws, webRs_windows1252, fun hagree => ?_, by decide⟩
  have hfits :=
    (encodersAgree_fits_iff webRs_laws webRs_windows1252 lengthHash _ (by decide)).mp hagree
  exact absurd (hfits.2 rfl) (by decide)

end Taomni.Save
