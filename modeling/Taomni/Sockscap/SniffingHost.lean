import Taomni.Sockscap.Sniffing

/-!
# The line that names the host

Reference: `extract_http_host` of `src-tauri/src/sockscap/rules/sni.rs`.

The first line with the keyword and a name decides. `HostField` is a well-formed `Host` header; cut
after some of its characters it names what is there of the name (`namedHost_of_prefix`).
-/

namespace Taomni.Sockscap

open List
open Agent (Text trim isWhitespace)
open Option (bind_none bind_some some_ne_none)

/-! ## One line -/

/-- The line is a `Host` header: but for whitespace the keyword stands first. -/
def IsHostLine (line : Text) : Prop :=
  ∃ lead keyword value, line = lead ++ (keyword ++ value) ∧
    (∀ c ∈ lead, isWhitespace c = true) ∧ toAsciiLowercase keyword = "host:".toList

/-- The slice `line[..5]` ends inside of a character. -/
def SplitsKeyword (line : Text) : Prop := 5 ≤ byteLength (trim line) ∧ cutAt 5 (trim line) = none

instance (line : Text) : Decidable (SplitsKeyword line) := inferInstanceAs (Decidable (_ ∧ _))

theorem IsHostLine.append {line : Text} (h : IsHostLine line) (more : Text) :
    IsHostLine (line ++ more) := by
  obtain ⟨lead, keyword, value, rfl, hlead, hkeyword⟩ := h
  exact ⟨lead, keyword, value ++ more, by simp only [append_assoc], hlead, hkeyword⟩

theorem hostInLine_eq_none_iff {line : Text} : hostInLine line = none ↔ SplitsKeyword line := by
  rw [hostInLine, SplitsKeyword]
  split
  · next hlength =>
    rw [and_iff_right hlength, Option.bind_eq_none_iff]
    constructor
    · intro h
      rw [Option.eq_none_iff_forall_ne_some]
      exact fun parts hparts => absurd (h parts hparts) (some_ne_none _)
    · intro h parts hparts
      rw [h] at hparts
      cases hparts
  · next hlength => exact iff_of_false (some_ne_none _) fun h => hlength h.1

section Keyword

variable {keyword : Text} (hkeyword : toAsciiLowercase keyword = "host:".toList)
include hkeyword

theorem length_keyword : keyword.length = 5 := by
  have := congrArg List.length hkeyword
  rwa [toAsciiLowercase, length_map] at this

theorem ascii_keyword : ∀ c ∈ keyword, 33 ≤ c.toNat ∧ c.toNat < 128 := by
  intro c hc
  have hmem : c.toLower ∈ "host:".toList := hkeyword ▸ mem_map_of_mem hc
  have hrange : 58 ≤ c.toLower.toNat ∧ c.toLower.toNat ≤ 116 := by
    revert hmem
    generalize c.toLower = d
    intro hmem
    have hcases : d = 'h' ∨ d = 'o' ∨ d = 's' ∨ d = 't' ∨ d = ':' := by simpa using hmem
    rcases hcases with rfl | rfl | rfl | rfl | rfl <;> decide
  cases hupper : c.isUpper with
  | false =>
    rw [toLower_of_not_upper hupper] at hrange
    omega
  | true =>
    have hval := toLower_val hupper
    have hletter : c.val ≥ 'A'.val ∧ c.val ≤ 'Z'.val := of_decide_eq_true hupper
    have hleast : 65 ≤ c.val.toNat := hletter.1
    have hsame : c.toLower.toNat = c.toLower.val.toNat := rfl
    have hsame' : c.toNat = c.val.toNat := rfl
    omega

end Keyword

theorem not_isWhitespace_of_graphic {c : Char} (h : 33 ≤ c.toNat ∧ c.toNat < 128) :
    isWhitespace c = false := by
  rw [Bool.eq_false_iff]
  intro hspace
  unfold isWhitespace at hspace
  simp only [Bool.or_eq_true, Bool.and_eq_true, decide_eq_true_eq, beq_iff_eq] at hspace
  omega

theorem trim_rdropWhile (s : Text) : trim (s.rdropWhile isWhitespace) = trim s := by
  have htrim := @Agent.trim_append [] (s.rdropWhile isWhitespace) (s.rtakeWhile isWhitespace)
    (fun _ hc => absurd hc not_mem_nil) fun c hc => mem_rtakeWhile_imp hc
  rwa [nil_append, rdropWhile_append_rtakeWhile, eq_comm] at htrim

/-- The line behind the keyword. -/
theorem trim_keyword {lead keyword value : Text} (hlead : ∀ c ∈ lead, isWhitespace c = true)
    (hkeyword : toAsciiLowercase keyword = "host:".toList) :
    trim (lead ++ (keyword ++ value)) = keyword ++ value.rdropWhile isWhitespace := by
  have hplain := fun c hc => not_isWhitespace_of_graphic (ascii_keyword hkeyword c hc)
  have hne : keyword ≠ [] := by
    rintro rfl
    cases length_keyword hkeyword
  have hleft : (keyword ++ value).dropWhile isWhitespace = keyword ++ value := by
    obtain ⟨c, rest, rfl⟩ := exists_cons_of_ne_nil hne
    exact dropWhile_cons_of_neg (Bool.eq_false_iff.mp (hplain c mem_cons_self))
  unfold trim
  rw [dropWhile_append_of_pos hlead, hleft]
  unfold List.rdropWhile
  rw [reverse_append, dropWhile_append]
  split
  · next hnil =>
    rw [List.isEmpty_iff.mp hnil, reverse_nil, append_nil]
    refine rdropWhile_eq_self_iff.mpr fun h => ?_
    rw [hplain _ (getLast_mem h)]
    exact Bool.false_ne_true
  · rw [reverse_append, reverse_reverse]

/-- A `Host` header names what its value names. -/
theorem hostInLine_keyword {lead keyword value : Text} (hlead : ∀ c ∈ lead, isWhitespace c = true)
    (hkeyword : toAsciiLowercase keyword = "host:".toList) :
    hostInLine (lead ++ (keyword ++ value)) = some (namedHost (hostOf (trim value))) := by
  have hascii := fun c hc => (ascii_keyword hkeyword c hc).2
  have hcut := cutAt_ascii hascii (value.rdropWhile isWhitespace)
  rw [length_keyword hkeyword] at hcut
  have hlength : 5 ≤ byteLength (keyword ++ value.rdropWhile isWhitespace) := by
    refine le_trans ?_ (length_le_byteLength _)
    rw [length_append, length_keyword hkeyword]
    exact Nat.le_add_right _ _
  rw [hostInLine, trim_keyword hlead hkeyword, if_pos hlength, hcut, bind_some]
  dsimp only
  rw [if_pos hkeyword, trim_rdropWhile]

/-- Only `Host` headers name a host. -/
theorem isHostLine_of_hostInLine {line host : Text} (h : hostInLine line = some (some host)) :
    IsHostLine line := by
  rw [hostInLine] at h
  split at h
  · obtain ⟨⟨keyword, value⟩, hcut, h⟩ := Option.bind_eq_some_iff.mp h
    obtain ⟨htrim, -⟩ := cutAt_eq_some hcut
    have hkeyword : toAsciiLowercase keyword = "host:".toList := by
      by_contra hne
      dsimp only at h
      rw [if_neg hne] at h
      cases h
    refine ⟨Agent.leading line, keyword, value ++ Agent.trailing line, ?_,
      fun c hc => mem_takeWhile_imp hc, hkeyword⟩
    have hline := Agent.eq_trim line
    rwa [htrim, append_assoc, append_assoc] at hline
  · cases h

/-! ## All lines -/

theorem hostInLines_append {front : List Text} (h : ∀ line ∈ front, hostInLine line = some none)
    (rest : List Text) : hostInLines (front ++ rest) = hostInLines rest := by
  induction front with
  | nil => rfl
  | cons line front ih =>
    obtain ⟨hline, hfront⟩ := forall_mem_cons.mp h
    rw [cons_append, hostInLines, hline, bind_some]
    exact ih hfront

/-- The first line that does not go unnoticed. -/
theorem exists_of_hostInLines {lines : List Text} {result : Option (Option Text)}
    (h : hostInLines lines = result) (hresult : result ≠ some none) :
    ∃ front line rest, lines = front ++ line :: rest ∧
      (∀ line ∈ front, hostInLine line = some none) ∧ hostInLine line = result := by
  induction lines with
  | nil => exact absurd h.symm hresult
  | cons line lines ih =>
    rw [hostInLines] at h
    cases hline : hostInLine line with
    | none =>
      rw [hline, bind_none] at h
      exact ⟨[], line, lines, rfl, fun _ hl => absurd hl not_mem_nil, hline.trans h⟩
    | some host? =>
      rw [hline, bind_some] at h
      cases host? with
      | some host =>
        exact ⟨[], line, lines, rfl, fun _ hl => absurd hl not_mem_nil, hline.trans h⟩
      | none =>
        obtain ⟨front, found, rest, rfl, hfront, hfound⟩ := ih h
        exact ⟨line :: front, found, rest, rfl, forall_mem_cons.mpr ⟨hline, hfront⟩, hfound⟩

/-- The scan panics at the first line whose fifth byte is inside of a character, unless a line before it
names a host. -/
theorem hostInLines_eq_none_iff {lines : List Text} :
    hostInLines lines = none ↔ ∃ front line rest, lines = front ++ line :: rest ∧
      (∀ line ∈ front, hostInLine line = some none) ∧ SplitsKeyword line := by
  constructor
  · intro h
    obtain ⟨front, line, rest, hlines, hfront, hline⟩ := exists_of_hostInLines h nofun
    exact ⟨front, line, rest, hlines, hfront, hostInLine_eq_none_iff.mp hline⟩
  · rintro ⟨front, line, rest, rfl, hfront, hline⟩
    rw [hostInLines_append hfront, hostInLines, hostInLine_eq_none_iff.mpr hline, bind_none]

/-! ## A well-formed header -/

/-- `Host: name`, with a name in brackets or without, and a port or none. The name is more than dots. -/
structure HostField where
  keyword : Text
  padding : Text
  bracketed : Bool
  name : Text
  port : Text
  trailing : Text
  keyword_eq : toAsciiLowercase keyword = "host:".toList
  padding_blank : ∀ c ∈ padding, c = ' ' ∨ c = '\t'
  name_graphic : ∀ c ∈ name, 33 ≤ c.toNat ∧ c.toNat < 127
  name_bracketed : bracketed = true → ']' ∉ name
  name_plain : bracketed = false → ':' ∉ name ∧ '[' ∉ name
  name_named : ∃ c ∈ name, c ≠ '.'
  port_eq : port = [] ∨ ∃ digits, port = ':' :: digits ∧ ∀ c ∈ digits, c.isDigit = true
  trailing_blank : ∀ c ∈ trailing, c = ' ' ∨ c = '\t'

variable {s : Text}

namespace HostField

variable (f : HostField)

def opening : Text := if f.bracketed then ['['] else []

def closing : Text := if f.bracketed then [']'] else []

/-- The value without the blanks around it. -/
def value : Text := f.opening ++ (f.name ++ (f.closing ++ f.port))

def text : Text := f.keyword ++ (f.padding ++ (f.value ++ f.trailing))

variable {f}

theorem isWhitespace_of_blank (h : ∀ c ∈ s, c = ' ' ∨ c = '\t') : ∀ c ∈ s, isWhitespace c = true := by
  intro c hc
  rcases h c hc with rfl | rfl <;> decide

theorem graphic_port : ∀ c ∈ f.port, 33 ≤ c.toNat ∧ c.toNat < 127 := by
  intro c hc
  rcases f.port_eq with hport | ⟨digits, hport, hdigits⟩
  · rw [hport] at hc
    exact absurd hc not_mem_nil
  rw [hport] at hc
  rcases mem_cons.mp hc with rfl | hc
  · decide
  · have hdigit := hdigits c hc
    rw [Char.isDigit, Bool.and_eq_true, decide_eq_true_eq, decide_eq_true_eq] at hdigit
    have hleast : 48 ≤ c.val.toNat := hdigit.1
    have hmost : c.val.toNat ≤ 57 := hdigit.2
    have hsame : c.toNat = c.val.toNat := rfl
    omega

theorem graphic_value : ∀ c ∈ f.value, 33 ≤ c.toNat ∧ c.toNat < 127 := by
  intro c hc
  have hopening : c ∈ f.opening → 33 ≤ c.toNat ∧ c.toNat < 127 := by
    rw [opening]
    split
    · intro hc
      rw [mem_singleton.mp hc]
      decide
    · exact fun hc => absurd hc not_mem_nil
  have hclosing : c ∈ f.closing → 33 ≤ c.toNat ∧ c.toNat < 127 := by
    rw [closing]
    split
    · intro hc
      rw [mem_singleton.mp hc]
      decide
    · exact fun hc => absurd hc not_mem_nil
  rw [value, mem_append, mem_append, mem_append] at hc
  rcases hc with hc | hc | hc | hc
  · exact hopening hc
  · exact f.name_graphic c hc
  · exact hclosing hc
  · exact graphic_port c hc

theorem ascii_text : ∀ c ∈ f.text, c.toNat < 128 := by
  intro c hc
  have hblank : c = ' ' ∨ c = '\t' → c.toNat < 128 := by
    rintro (rfl | rfl) <;> decide
  rw [text, mem_append, mem_append, mem_append] at hc
  rcases hc with hc | hc | hc | hc
  · exact (ascii_keyword f.keyword_eq c hc).2
  · exact hblank (f.padding_blank c hc)
  · exact (graphic_value c hc).2.trans (by decide)
  · exact hblank (f.trailing_blank c hc)

/-! ### Cut values -/

variable {sep : Char}

theorem rsplitOnce_eq_none (h : sep ∉ s) : rsplitOnce sep s = none := by
  have hnil : s.rdropWhile (· != sep) = [] := by
    refine rdropWhile_eq_nil_iff.mpr fun c hc => bne_iff_ne.mpr ?_
    rintro rfl
    exact h hc
  rw [rsplitOnce, hnil]

theorem rsplitOnce_append {tail : Text} (h : sep ∉ tail) (front : Text) :
    rsplitOnce sep (front ++ sep :: tail) = some (front, tail) := by
  have htail : ∀ c ∈ tail, (fun c => c != sep) c = true := by
    intro c hc
    refine bne_iff_ne.mpr ?_
    rintro rfl
    exact h hc
  have hsep : ¬ (fun c => c != sep) sep = true := by
    show ¬ (sep != sep) = true
    rw [bne_self_eq_false]
    exact Bool.false_ne_true
  have hdrop : (front ++ sep :: tail).rdropWhile (· != sep) = front ++ [sep] := by
    rw [append_cons, rdropWhile_append_of_forall htail]
    exact rdropWhile_concat_neg _ _ _ hsep
  have htake : (front ++ sep :: tail).rtakeWhile (· != sep) = tail := by
    have hstop : (sep :: front.reverse).takeWhile (· != sep) = [] :=
      takeWhile_cons_of_neg hsep
    rw [List.rtakeWhile, reverse_append, reverse_cons, append_assoc,
      takeWhile_append_of_pos fun c hc => htail c (mem_reverse.mp hc),
      singleton_append, hstop, append_nil, reverse_reverse]
  rw [rsplitOnce, hdrop, htake]
  have hlast : (front ++ [sep]).dropLast = front := dropLast_concat
  cases front with
  | nil => rfl
  | cons c front => exact congrArg (fun s => some (s, tail)) hlast

theorem strip_eq_none {c : Char} (h : c ∉ s) : strip [c] s = none := by
  refine if_neg fun hstart => h ?_
  exact (List.isPrefixOf_iff_prefix.mp hstart).subset mem_cons_self

/-- Without brackets and port the value is the name. -/
theorem hostOf_of_notMem (hbracket : '[' ∉ s) (hcolon : ':' ∉ s) : hostOf s = s := by
  simp only [hostOf, strip_eq_none hbracket, rsplitOnce_eq_none hcolon]

theorem hostOf_port {host digits : Text} (hhost : '[' ∉ host)
    (hdigits : ∀ c ∈ digits, c.isDigit = true) : hostOf (host ++ ':' :: digits) = host := by
  have hcolon : ':' ∉ digits := fun hmem => absurd (hdigits _ hmem) (by decide)
  have hbracket : '[' ∉ host ++ ':' :: digits := by
    rw [mem_append, mem_cons, not_or, not_or]
    exact ⟨hhost, by decide, fun hmem => absurd (hdigits _ hmem) (by decide)⟩
  simp only [hostOf, strip_eq_none hbracket, rsplitOnce_append hcolon,
    if_pos (all_eq_true.mpr hdigits)]

theorem hostOf_bracket (inner : Text) : hostOf ('[' :: inner) = firstPiece ']' inner := rfl

theorem firstPiece_eq_self (h : sep ∉ s) : firstPiece sep s = s := by
  refine List.takeWhile_eq_self_iff.mpr fun c hc => bne_iff_ne.mpr ?_
  rintro rfl
  exact h hc

theorem firstPiece_append {front : Text} (h : sep ∉ front) (tail : Text) :
    firstPiece sep (front ++ sep :: tail) = front := by
  have hself := firstPiece_eq_self h
  rw [firstPiece] at hself ⊢
  rw [takeWhile_append, hself, if_pos rfl, takeWhile_cons_of_neg (by simp),
    append_nil]

/-- The name in what there is of the value. -/
theorem hostOf_of_prefix {front : Text} (h : front <+: f.value) :
    hostOf front = f.name.take (front.length - f.opening.length) := by
  rw [value, opening, closing] at h
  rw [opening]
  cases hb : f.bracketed with
  | false =>
    obtain ⟨hcolon, hbracket⟩ := f.name_plain hb
    rw [hb, if_neg Bool.false_ne_true, if_neg Bool.false_ne_true, nil_append,
      nil_append] at h
    rw [if_neg Bool.false_ne_true, length_nil, Nat.sub_zero]
    rcases prefix_append_cases h with h | ⟨more, rfl, hmore⟩
    · rw [hostOf_of_notMem (fun hmem => hbracket (h.subset hmem)) fun hmem => hcolon (h.subset hmem)]
      exact List.prefix_iff_eq_take.mp h
    · rw [take_of_length_le (by rw [length_append]; exact Nat.le_add_right _ _)]
      rcases f.port_eq with hport | ⟨digits, hport, hdigits⟩
      · rw [hport, prefix_nil] at hmore
        rw [hmore, append_nil, hostOf_of_notMem hbracket hcolon]
      · rw [hport, prefix_cons_iff] at hmore
        rcases hmore with rfl | ⟨digits', rfl, hdigits'⟩
        · rw [append_nil, hostOf_of_notMem hbracket hcolon]
        · exact hostOf_port hbracket fun c hc => hdigits c (hdigits'.subset hc)
  | true =>
    have hbracket := f.name_bracketed hb
    rw [hb, if_pos rfl, if_pos rfl, singleton_append, prefix_cons_iff] at h
    rw [if_pos rfl, length_singleton]
    rcases h with rfl | ⟨inner, rfl, hinner⟩
    · rw [length_nil, Nat.zero_sub, take_zero]
      rfl
    · rw [hostOf_bracket, length_cons, Nat.add_sub_cancel]
      rcases prefix_append_cases hinner with hinner | ⟨more, rfl, hmore⟩
      · rw [firstPiece_eq_self fun hmem => hbracket (hinner.subset hmem)]
        exact List.prefix_iff_eq_take.mp hinner
      · rw [take_of_length_le (by rw [length_append]; exact Nat.le_add_right _ _)]
        rw [singleton_append, prefix_cons_iff] at hmore
        rcases hmore with rfl | ⟨tail, rfl, -⟩
        · rw [append_nil, firstPiece_eq_self hbracket]
        · exact firstPiece_append hbracket tail

/-- A cut value names what there is of the name. -/
theorem namedHost_of_prefix {front : Text} (h : front <+: f.padding ++ (f.value ++ f.trailing)) :
    namedHost (hostOf (trim front))
      = namedHost (f.name.take (front.length - (f.padding ++ f.opening).length)) := by
  have hplain : ∀ {s : Text}, s <+: f.value → trim s = s := fun hs =>
    Agent.trim_of_forall fun c hc =>
      not_isWhitespace_of_graphic ⟨(graphic_value c (hs.subset hc)).1,
        (graphic_value c (hs.subset hc)).2.trans (by decide)⟩
  have hpadding := isWhitespace_of_blank f.padding_blank
  have htrailing := isWhitespace_of_blank f.trailing_blank
  have hnil : ∀ c ∈ ([] : Text), isWhitespace c = true := fun _ hc => absurd hc not_mem_nil
  rw [length_append]
  rcases prefix_append_cases h with h | ⟨inside, rfl, hinside⟩
  · have htrim := @Agent.trim_append front [] [] (fun c hc => hpadding c (h.subset hc)) hnil
    rw [append_nil, append_nil] at htrim
    have hlength := h.length_le
    rw [htrim, Nat.sub_eq_zero_of_le (by omega), take_zero]
    rfl
  have hsub : (f.padding ++ inside).length - (f.padding.length + f.opening.length)
      = inside.length - f.opening.length := by
    rw [length_append]
    omega
  rw [hsub]
  rcases prefix_append_cases hinside with hinside | ⟨tail, rfl, htail⟩
  · have htrim := Agent.trim_append hpadding hnil (s := inside)
    rw [append_nil, hplain hinside] at htrim
    rw [htrim, hostOf_of_prefix hinside]
  · have htrim := Agent.trim_append hpadding (fun c hc => htrailing c (htail.subset hc))
      (s := f.value)
    rw [hplain prefix_rfl] at htrim
    have hname : f.opening.length + f.name.length ≤ f.value.length := by
      rw [value, length_append, length_append]
      omega
    have hlength : (f.value ++ tail).length = f.value.length + tail.length := length_append
    rw [htrim, hostOf_of_prefix prefix_rfl, take_of_length_le (by omega),
      take_of_length_le (by omega)]

variable (f) in
/-- The place of the name in the header. -/
def nameAt : ℕ := (f.keyword ++ (f.padding ++ f.opening)).length

/-- A cut header names what there is of the name. -/
theorem hostInLine_of_prefix {cut : Text} (h : cut <+: f.text) :
    hostInLine cut = some (namedHost (f.name.take (cut.length - f.nameAt))) := by
  have hkeyword := f.keyword_eq
  have hlong : f.nameAt = 5 + (f.padding ++ f.opening).length := by
    rw [nameAt, length_append, length_keyword hkeyword]
  have hwhole : ∀ value : Text, value <+: f.padding ++ (f.value ++ f.trailing) →
      hostInLine (f.keyword ++ value)
        = some (namedHost (f.name.take ((f.keyword ++ value).length - f.nameAt))) := by
    intro value hvalue
    have hline := @hostInLine_keyword [] f.keyword value (fun _ hc => absurd hc not_mem_nil)
      hkeyword
    rw [nil_append] at hline
    have hsub : (f.keyword ++ value).length - f.nameAt
        = value.length - (f.padding ++ f.opening).length := by
      rw [hlong, length_append, length_keyword hkeyword, Nat.add_sub_add_left]
    rw [hline, namedHost_of_prefix hvalue, hsub]
  rcases prefix_append_cases h with h | ⟨value, rfl, hvalue⟩
  · by_cases hcut : cut.length = 5
    · rw [h.eq_of_length (hcut.trans (length_keyword hkeyword).symm)]
      have hline := hwhole [] nil_prefix
      rwa [append_nil] at hline
    · have hle := h.length_le
      rw [length_keyword hkeyword] at hle
      have hascii := fun c hc => ascii_keyword hkeyword c (h.subset hc)
      have hshort : ¬ 5 ≤ byteLength (trim cut) := by
        rw [Agent.trim_of_forall fun c hc => not_isWhitespace_of_graphic (hascii c hc),
          byteLength_of_ascii fun c hc => (hascii c hc).2]
        omega
      rw [hostInLine, if_neg hshort, Nat.sub_eq_zero_of_le (by omega), take_zero]
      rfl
  · exact hwhole value hvalue

end HostField

/-!
# What is read as a request

Reference: `extract_hostname_from_prefix` of `src-tauri/src/sockscap/rules/sni.rs`.

Data is read by one of the two parsers, and only the one for texts can panic: at a line whose fifth byte
is inside of a character (`extract_eq_none_iff`).
-/

open Agent (Text trim isWhitespace containsText containsText_iff)
open Encoding (fromUtf8 utf8Bytes fromUtf8_utf8Bytes utf8Bytes_of_fromUtf8 utf8Bytes_append
  toList_prefix_of_utf8Bytes)

/-! ## Bytes of texts -/

/-- The bytes of a text. -/
def encodeText (t : Text) : Bytes := utf8Bytes (String.ofList t)

@[simp] theorem encodeText_append (s t : Text) : encodeText (s ++ t) = encodeText s ++ encodeText t := by
  rw [encodeText, String.ofList_append, utf8Bytes_append, encodeText, encodeText]

theorem fromUtf8_encodeText (t : Text) : fromUtf8 (encodeText t) = some (String.ofList t) :=
  fromUtf8_utf8Bytes _

theorem exists_of_fromUtf8 {bytes : Bytes} (h : fromUtf8 bytes ≠ none) : ∃ t, bytes = encodeText t := by
  obtain ⟨text, htext⟩ := Option.ne_none_iff_exists'.mp h
  exact ⟨text.toList, by rw [encodeText, String.ofList_toList, utf8Bytes_of_fromUtf8 htext]⟩

theorem isPrefix_of_encodeText {t : Text} (h : encodeText s <+: encodeText t) : s <+: t := by
  have := toList_prefix_of_utf8Bytes h
  rwa [String.toList_ofList, String.toList_ofList] at this

theorem encodeText_injective {t : Text} (h : encodeText s = encodeText t) : s = t := by
  have hst : s <+: t := isPrefix_of_encodeText (h ▸ prefix_rfl)
  have hts : t <+: s := isPrefix_of_encodeText (h ▸ prefix_rfl)
  exact hst.eq_of_length (le_antisymm hst.length_le hts.length_le)

theorem length_encodeText (t : Text) : (encodeText t).length = byteLength t := by
  induction t with
  | nil => rfl
  | cons c t ih =>
    have hc : (encodeText [c]).length = c.utf8Size := by
      exact String.utf8ByteSize_singleton
    rw [← singleton_append, encodeText_append, length_append, ih, hc]
    rfl

theorem length_encodeText_of_ascii {t : Text} (h : ∀ c ∈ t, c.toNat < 128) :
    (encodeText t).length = t.length := by
  rw [length_encodeText, byteLength_of_ascii h]

/-! ## What is read as a request -/

/-- The data is long enough, does not begin like a record, and is a text taken for a request. -/
structure ReadsAsHttp (data : Bytes) (text : Text) : Prop where
  long : 16 ≤ data.length
  no_record : data[0]? ≠ some 0x16
  text_eq : data = encodeText text
  http : looksLikeHttp text = true

variable {data : Bytes}

theorem extractHttpHost_of_reads {text : Text} (h : ReadsAsHttp data text) :
    extractHttpHost data = hostInLines (splitLines text) := by
  obtain ⟨first, hfirst⟩ := exists_getElem? (show 0 < data.length from by have := h.long; omega)
  have hne : first ≠ 0x16 := fun heq => h.no_record (hfirst.trans (congrArg some heq))
  rw [extractHttpHost, if_neg (Nat.not_lt.mpr h.long), hfirst, bind_some, if_neg hne,
    h.text_eq, fromUtf8_encodeText]
  simp only [String.toList_ofList, h.http, if_true]

theorem reads_or_extractHttpHost (data : Bytes) :
    (∃ text, ReadsAsHttp data text) ∨ extractHttpHost data = some none := by
  rw [extractHttpHost]
  split
  · exact .inr rfl
  next hlong =>
  obtain ⟨first, hfirst⟩ := exists_getElem? (show 0 < data.length by omega)
  rw [hfirst, bind_some]
  split
  · exact .inr rfl
  next hne =>
  split
  · exact .inr rfl
  next text htext =>
  split
  · next hhttp =>
    refine .inl ⟨text.toList, Nat.not_lt.mp hlong, fun h => hne ?_, ?_, hhttp⟩
    · exact Option.some.inj (hfirst.symm.trans h)
    · rw [encodeText, String.ofList_toList, utf8Bytes_of_fromUtf8 htext]
  · exact .inr rfl

/-- What begins like a record is read by the TLS parser alone. -/
theorem extract_of_record (h : data[0]? = some 0x16) :
    extractHostnameFromPrefix data = extractSni data := by
  have hhttp : extractHttpHost data = some none := by
    rcases reads_or_extractHttpHost data with ⟨text, hreads⟩ | hnone
    · exact absurd h hreads.no_record
    · exact hnone
  obtain ⟨host?, hsni⟩ := exists_extractSni data
  rw [extractHostnameFromPrefix, hsni, bind_some]
  cases host? with
  | some host => rfl
  | none => exact hhttp

/-- The rest is read as text. -/
theorem extract_of_no_record (h : data[0]? ≠ some 0x16) :
    extractHostnameFromPrefix data = extractHttpHost data := by
  obtain ⟨host?, hsni⟩ := exists_extractSni data
  rw [extractHostnameFromPrefix, hsni, bind_some]
  cases host? with
  | some host => exact absurd (first_of_extractSni hsni) h
  | none => rfl

theorem extract_of_reads {text : Text} (h : ReadsAsHttp data text) :
    extractHostnameFromPrefix data = hostInLines (splitLines text) := by
  rw [extract_of_no_record h.no_record, extractHttpHost_of_reads h]

/-- Anything else comes out as no name. -/
theorem exists_reads_of_extract (hrecord : data[0]? ≠ some 0x16)
    (h : extractHostnameFromPrefix data ≠ some none) : ∃ text, ReadsAsHttp data text := by
  rw [extract_of_no_record hrecord] at h
  exact (reads_or_extractHttpHost data).resolve_right h

/-- The extraction panics exactly at a text taken for a request in which a line is reached whose fifth
byte is inside of a character. -/
def CutsKeyword (data : Bytes) : Prop :=
  ∃ text, ReadsAsHttp data text ∧ ∃ front line rest, splitLines text = front ++ line :: rest ∧
    (∀ line ∈ front, hostInLine line = some none) ∧ SplitsKeyword line

theorem extract_eq_none_iff : extractHostnameFromPrefix data = none ↔ CutsKeyword data := by
  constructor
  · intro h
    have hrecord : data[0]? ≠ some 0x16 := by
      intro hrecord
      obtain ⟨host, hsni⟩ := exists_extractSni data
      rw [extract_of_record hrecord, hsni] at h
      cases h
    obtain ⟨text, hreads⟩ := exists_reads_of_extract hrecord (by rw [h]; exact nofun)
    rw [extract_of_reads hreads] at h
    exact ⟨text, hreads, hostInLines_eq_none_iff.mp h⟩
  · rintro ⟨text, hreads, hlines⟩
    rw [extract_of_reads hreads]
    exact hostInLines_eq_none_iff.mpr hlines

end Taomni.Sockscap
