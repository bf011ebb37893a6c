import Taomni.Sockscap.SniffingHost

/-!
# Cut requests

Reference: `extract_hostname_from_prefix` of `src-tauri/src/sockscap/rules/sni.rs`.

A `Request` is the byte stream of a well-formed HTTP request. Its beginnings are texts of three kinds
(`Request.front_cases`), and one that is read names what it has of the name
(`Request.extract_of_text`).
-/

namespace Taomni.Sockscap

open List
open Agent (Text trim isWhitespace containsText containsText_iff)
open Encoding (fromUtf8)

/-! ## Names -/

/-- Nothing but dots: no name is left of it. -/
def AllDots (s : Text) : Prop := ∀ c ∈ s, c = '.'

instance (s : Text) : Decidable (AllDots s) :=
  decidable_of_iff (s.all (· == '.') = true) <| all_eq_true.trans <|
    forall₂_congr fun _ _ => beq_iff_eq

variable {s : Text}

theorem trimEnd_eq_nil_iff : trimEnd '.' s = [] ↔ AllDots s := by
  rw [trimEnd, rdropWhile_eq_nil_iff]
  exact forall₂_congr fun c _ => beq_iff_eq

theorem trimEnd_append_dots {tail : Text} (h : AllDots tail) : trimEnd '.' (s ++ tail) = trimEnd '.' s :=
  rdropWhile_append_of_forall fun c hc => beq_iff_eq.mpr (h c hc)

theorem exists_eq_trimEnd_append (s : Text) : ∃ dots, s = trimEnd '.' s ++ dots ∧ AllDots dots :=
  ⟨s.rtakeWhile (· == '.'), rdropWhile_append_rtakeWhile.symm,
    fun _ hc => beq_iff_eq.mp (@mem_rtakeWhile_imp _ (· == '.') _ _ hc)⟩

section Graphic

variable {name : Text} (hname : ∀ c ∈ name, 33 ≤ c.toNat ∧ c.toNat < 127)
include hname

theorem namedHost_of_graphic (hs : s <+: name) :
    namedHost s = if AllDots s then none else some (toAsciiLowercase (trimEnd '.' s)) := by
  have htrim : trim s = s := Agent.trim_of_forall fun c hc =>
    not_isWhitespace_of_graphic ⟨(hname c (hs.subset hc)).1, (hname c (hs.subset hc)).2.trans (by decide)⟩
  have hnil : toAsciiLowercase (trimEnd '.' s) = [] ↔ AllDots s := by
    rw [toAsciiLowercase, map_eq_nil_iff, trimEnd_eq_nil_iff]
  rw [namedHost, htrim]
  by_cases hdots : AllDots s
  · rw [if_pos (hnil.mpr hdots), if_pos hdots]
  · rw [if_neg (mt hnil.mp hdots), if_neg hdots]

theorem namedHost_eq_none_iff (hs : s <+: name) : namedHost s = none ↔ AllDots s := by
  rw [namedHost_of_graphic hname hs]
  by_cases hdots : AllDots s
  · rw [if_pos hdots]
    exact iff_of_true rfl hdots
  · rw [if_neg hdots]
    exact iff_of_false (Option.some_ne_none _) hdots

/-- Of two beginnings of a name the longer one names the same exactly if it goes on with dots. -/
theorem namedHost_append_eq_iff {tail : Text} (hs : s ++ tail <+: name) (hnamed : ¬ AllDots s) :
    namedHost (s ++ tail) = namedHost s ↔ AllDots tail := by
  have hnamed' : ¬ AllDots (s ++ tail) :=
    fun h => hnamed fun c hc => h c (mem_append_left _ hc)
  rw [namedHost_of_graphic hname ((prefix_append s tail).trans hs),
    namedHost_of_graphic hname hs, if_neg hnamed, if_neg hnamed', Option.some.injEq]
  constructor
  · intro h
    have hlength := congrArg List.length h
    rw [toAsciiLowercase, toAsciiLowercase, length_map, length_map] at hlength
    obtain ⟨dots, hsplit, hdots⟩ := exists_eq_trimEnd_append (s ++ tail)
    have hshort := (trimEnd_sublist '.' s).length_le
    rw [append_eq_append_iff] at hsplit
    rcases hsplit with ⟨more, hmore, htail⟩ | ⟨more, hmore, htail⟩
    · have hnil : more = [] := by
        have := congrArg List.length hmore
        rw [length_append] at this
        exact eq_nil_of_length_eq_zero (by omega)
      rw [hnil, nil_append] at htail
      exact htail ▸ hdots
    · exact fun c hc => hdots c (htail ▸ mem_append_right _ hc)
  · intro h
    rw [trimEnd_append_dots h]

end Graphic

/-! ## Lines without the name -/

/-- Lines that are no `Host` header: one that cuts a character ends the scan, and all others go
unnoticed. -/
theorem hostInLines_nameless {lines : List Text} (h : ∀ line ∈ lines, ¬ IsHostLine line)
    (rest : List Text) : hostInLines (lines ++ rest)
      = if ∃ line ∈ lines, SplitsKeyword line then none else hostInLines rest := by
  induction lines with
  | nil => rw [nil_append, if_neg (by rintro ⟨line, hline, -⟩; exact not_mem_nil hline)]
  | cons line lines ih =>
    obtain ⟨hline, hlines⟩ := forall_mem_cons.mp h
    rw [cons_append, hostInLines]
    simp only [exists_mem_cons_iff]
    cases hfound : hostInLine line with
    | none =>
      rw [Option.bind_none, if_pos (.inl (hostInLine_eq_none_iff.mp hfound))]
    | some host? =>
      cases host? with
      | some host => exact absurd (isHostLine_of_hostInLine hfound) hline
      | none =>
        have hwhole : ¬ SplitsKeyword line := by
          rw [← hostInLine_eq_none_iff, hfound]
          exact Option.some_ne_none _
        rw [Option.bind_some]
        dsimp only
        rw [ih hlines]
        exact if_congr (by rw [or_iff_right hwhole]) rfl rfl

/-- The text of lines with their breaks. -/
def linesText (lines : List Text) : Text := lines.flatMap (· ++ "\r\n".toList)

/-- No break in the line. -/
def Unbroken (line : Text) : Prop := ∀ c ∈ line, c ≠ '\r' ∧ c ≠ '\n'

variable {line : Text}

theorem splitLines_unbroken (h : Unbroken line) : splitLines line = [line] :=
  splitOnP_eq_singleton fun c hc => by
    rw [decide_eq_false_iff_not, not_or]
    exact h c hc

theorem splitLines_append (h : Unbroken line) {sep : Char} (hsep : sep = '\r' ∨ sep = '\n')
    (rest : Text) : splitLines (line ++ sep :: rest) = line :: splitLines rest := by
  have hsplit := splitOnP_append_cons (p := fun c => c = '\r' ∨ c = '\n') line rest
    (decide_eq_true hsep)
  rwa [← splitLines, ← splitLines, splitLines_unbroken h] at hsplit

theorem splitLines_break (h : Unbroken line) (rest : Text) :
    splitLines (line ++ ("\r\n".toList ++ rest)) = line :: [] :: splitLines rest := by
  show splitLines (line ++ '\r' :: '\n' :: rest) = _
  rw [splitLines_append h (.inl rfl), ← nil_append ('\n' :: rest),
    splitLines_append (fun _ hc => absurd hc not_mem_nil) (.inr rfl)]

theorem splitLines_linesText {lines : List Text} (h : ∀ line ∈ lines, Unbroken line) (rest : Text) :
    splitLines (linesText lines ++ rest)
      = lines.flatMap (fun line => [line, []]) ++ splitLines rest := by
  induction lines with
  | nil => rfl
  | cons line lines ih =>
    obtain ⟨hline, hlines⟩ := forall_mem_cons.mp h
    rw [linesText, flatMap_cons, ← linesText, append_assoc, append_assoc,
      splitLines_break hline, ih hlines]
    rfl

variable {t : Text}

/-- Cut lines are lines and a beginning of one. -/
theorem exists_of_mem_splitLines {lines : List Text} (h : ∀ line ∈ lines, Unbroken line)
    (ht : t <+: linesText lines) {piece : Text} (hpiece : piece ∈ splitLines t) :
    piece = [] ∨ ∃ line ∈ lines, piece <+: line := by
  obtain ⟨line, hline, hpre⟩ := exists_mem_splitOnP_of_prefix ht hpiece
  have hlines := splitLines_linesText h []
  rw [append_nil] at hlines
  rw [← splitLines, hlines, mem_append] at hline
  have hnil : line = [] → piece = [] := by
    rintro rfl
    exact prefix_nil.mp hpre
  rcases hline with hline | hline
  · obtain ⟨whole, hwhole, hline⟩ := mem_flatMap.mp hline
    rcases mem_cons.mp hline with rfl | hline
    · exact .inr ⟨_, hwhole, hpre⟩
    · exact .inl (hnil (mem_singleton.mp hline))
  · exact .inl (hnil (mem_singleton.mp hline))

/-! ## Requests -/

/-- An HTTP/1 request: the request line, header fields, the `Host` header, and whatever follows the end
of its line. -/
structure Request where
  method : Text
  target : Text
  version : Text
  fields : List Text
  host : HostField
  rest : Bytes
  method_ne : method ≠ []
  method_token : ∀ c ∈ method, (33 ≤ c.toNat ∧ c.toNat < 127) ∧ c ≠ ':'
  target_unbroken : Unbroken target
  version_unbroken : Unbroken version
  fields_line : ∀ field ∈ fields, field ≠ [] ∧ Unbroken field ∧ ¬ IsHostLine field

namespace Request

variable (r : Request)

def requestLine : Text := r.method ++ ' ' :: (r.target ++ (" HTTP/".toList ++ r.version))

/-- The lines before the `Host` header. -/
def lines : List Text := r.requestLine :: r.fields

def front : Text := linesText r.lines

def bytes : Bytes := encodeText (r.front ++ (r.host.text ++ "\r\n".toList)) ++ r.rest

/-- Where the name begins, in bytes. -/
def nameStart : ℕ := byteLength r.front + r.host.nameAt

/-- What the first bytes have of the name. -/
def cutName (n : ℕ) : Text := r.host.name.take (n - r.nameStart)

variable {r}

theorem unbroken_requestLine : Unbroken r.requestLine := by
  intro c hc
  have hkeyword : c ∈ " HTTP/".toList → c ≠ '\r' ∧ c ≠ '\n' := by
    intro hc
    constructor <;> rintro rfl <;> revert hc <;> decide
  rw [requestLine, mem_append, mem_cons, mem_append, mem_append] at hc
  rcases hc with hc | rfl | hc | hc | hc
  · obtain ⟨hgraphic, -⟩ := r.method_token c hc
    constructor <;> rintro rfl <;> revert hgraphic <;> decide
  · decide
  · exact r.target_unbroken c hc
  · exact hkeyword hc
  · exact r.version_unbroken c hc

theorem not_isHostLine_requestLine : ¬ IsHostLine r.requestLine := by
  rintro ⟨lead, keyword, value, hline, hlead, hkeyword⟩
  have hcolon : ':' ∈ keyword := by
    have hmem : ':' ∈ toAsciiLowercase keyword := by
      rw [hkeyword]
      decide
    exact (mem_toAsciiLowercase (by decide)).mp hmem
  have hpre : lead ++ keyword <+: r.requestLine := by
    rw [hline, ← append_assoc]
    exact prefix_append _ _
  rcases prefix_append_cases hpre with hpre | ⟨more, hmore, hpre⟩
  · exact (r.method_token ':' (hpre.subset (mem_append_right _ hcolon))).2 rfl
  · obtain ⟨c, method, hmethod⟩ := exists_cons_of_ne_nil r.method_ne
    have hfirst := (r.method_token c (hmethod ▸ mem_cons_self)).1
    have hnil : lead = [] := by
      refine eq_nil_iff_forall_not_mem.mpr fun d hd => ?_
      obtain ⟨d, lead', rfl⟩ := exists_cons_of_ne_nil (ne_nil_of_mem hd)
      rw [hmethod, cons_append, cons_append, List.cons.injEq] at hmore
      have hspace := hlead d mem_cons_self
      rw [hmore.1, not_isWhitespace_of_graphic ⟨hfirst.1, hfirst.2.trans (by decide)⟩] at hspace
      cases hspace
    rw [hnil, nil_append] at hmore
    rcases prefix_cons_iff.mp hpre with rfl | ⟨more, rfl, -⟩
    · rw [hmore, append_nil] at hcolon
      exact (r.method_token ':' hcolon).2 rfl
    · have hblank : ' ' ∈ keyword := hmore ▸ mem_append_right _ mem_cons_self
      exact absurd (ascii_keyword hkeyword ' ' hblank).1 (by decide)

theorem unbroken_lines : ∀ line ∈ r.lines, Unbroken line :=
  forall_mem_cons.mpr ⟨unbroken_requestLine, fun field hfield => (r.fields_line field hfield).2.1⟩

theorem nameless_lines : ∀ line ∈ r.lines, ¬ IsHostLine line :=
  forall_mem_cons.mpr
    ⟨not_isHostLine_requestLine, fun field hfield => (r.fields_line field hfield).2.2⟩

theorem bytes_eq : r.bytes
    = encodeText r.front ++ (encodeText r.host.text ++ (encodeText "\r\n".toList ++ r.rest)) := by
  rw [bytes, encodeText_append, encodeText_append, append_assoc, append_assoc]

theorem encodeText_append_eq {bytes : Bytes} (h : encodeText t = encodeText s ++ bytes) :
    ∃ t', t = s ++ t' ∧ bytes = encodeText t' := by
  obtain ⟨t', rfl⟩ := isPrefix_of_encodeText (h ▸ prefix_append _ _ : encodeText s <+: encodeText t)
  rw [encodeText_append] at h
  exact ⟨t', rfl, (append_cancel_left h).symm⟩

/-- A text at the beginning of the request ends before the `Host` header, in it or behind it. -/
theorem front_cases (h : encodeText t <+: r.bytes) :
    t <+: r.front ∨ ∃ cut tail, t = r.front ++ (cut ++ tail) ∧ cut <+: r.host.text ∧
      (tail = [] ∨ cut = r.host.text ∧ ∃ more, tail = '\r' :: more) := by
  rw [bytes_eq] at h
  rcases prefix_append_cases h with h | ⟨b, hb, h⟩
  · exact .inl (isPrefix_of_encodeText h)
  obtain ⟨t, rfl, rfl⟩ := encodeText_append_eq hb
  rcases prefix_append_cases h with h | ⟨b, hb, h⟩
  · exact .inr ⟨t, [], by rw [append_nil], isPrefix_of_encodeText h, .inl rfl⟩
  obtain ⟨t, rfl, rfl⟩ := encodeText_append_eq hb
  refine .inr ⟨r.host.text, t, rfl, prefix_rfl, ?_⟩
  cases t with
  | nil => exact .inl rfl
  | cons c t =>
    refine .inr ⟨rfl, t, ?_⟩
    have hreturn : encodeText ['\r'] <+: encodeText (c :: t) := by
      have hfirst : encodeText "\r\n".toList = 13 :: encodeText ['\n'] := rfl
      rw [hfirst, cons_append] at h
      rcases prefix_cons_iff.mp h with hnil | ⟨more, hmore, -⟩
      · have hlength := congrArg List.length hnil
        have hsize := c.utf8Size_pos
        rw [length_encodeText, byteLength, length_nil] at hlength
        omega
      · exact ⟨more, hmore.symm⟩
    rw [(cons_prefix_cons.mp (isPrefix_of_encodeText hreturn)).1]

/-! ### The lines of a beginning -/

variable (r) in
/-- A line before the `Host` header cuts a character. -/
def CutsLine : Prop := ∃ line ∈ r.lines, SplitsKeyword line

instance : Decidable r.CutsLine := inferInstanceAs (Decidable (∃ line ∈ r.lines, SplitsKeyword line))

theorem not_isHostLine_nil : ¬ IsHostLine [] := by
  rintro ⟨lead, keyword, value, hnil, -, hkeyword⟩
  rw [eq_comm, append_eq_nil_iff, append_eq_nil_iff] at hnil
  have hlength := length_keyword hkeyword
  rw [hnil.2.1] at hlength
  cases hlength

theorem not_splitsKeyword_nil : ¬ SplitsKeyword [] := by decide

/-- The lines before the `Host` header leave the answer to the others. -/
theorem hostInLines_front (t : Text) : hostInLines (splitLines (r.front ++ t))
    = if r.CutsLine then none else hostInLines (splitLines t) := by
  have hnameless : ∀ piece ∈ r.lines.flatMap fun line => [line, []], ¬ IsHostLine piece := by
    intro piece hpiece
    obtain ⟨line, hline, hpiece⟩ := mem_flatMap.mp hpiece
    rcases mem_cons.mp hpiece with rfl | hpiece
    · exact nameless_lines _ hline
    · rw [mem_singleton.mp hpiece]
      exact not_isHostLine_nil
  rw [front, splitLines_linesText unbroken_lines, hostInLines_nameless hnameless]
  refine if_congr ⟨?_, ?_⟩ rfl rfl
  · rintro ⟨piece, hpiece, hsplits⟩
    obtain ⟨line, hline, hpiece⟩ := mem_flatMap.mp hpiece
    rcases mem_cons.mp hpiece with rfl | hpiece
    · exact ⟨_, hline, hsplits⟩
    · rw [mem_singleton.mp hpiece] at hsplits
      exact absurd hsplits not_splitsKeyword_nil
  · rintro ⟨line, hline, hsplits⟩
    exact ⟨line, mem_flatMap.mpr ⟨line, hline, mem_cons_self⟩, hsplits⟩

theorem unbroken_text (f : HostField) : Unbroken f.text := by
  intro c hc
  have hblank : c = ' ' ∨ c = '\t' → c ≠ '\r' ∧ c ≠ '\n' := by
    rintro (rfl | rfl) <;> decide
  have hgraphic : 33 ≤ c.toNat → c ≠ '\r' ∧ c ≠ '\n' := by
    intro h
    constructor <;> rintro rfl <;> revert h <;> decide
  rw [HostField.text, mem_append, mem_append, mem_append] at hc
  rcases hc with hc | hc | hc | hc
  · exact hgraphic (ascii_keyword f.keyword_eq c hc).1
  · exact hblank (f.padding_blank c hc)
  · exact hgraphic (HostField.graphic_value c hc).1
  · exact hblank (f.trailing_blank c hc)

theorem length_text_ge (f : HostField) : f.nameAt + f.name.length ≤ f.text.length := by
  simp only [HostField.nameAt, HostField.text, HostField.value, length_append]
  omega

/-- The `Host` header answers with what there is of the name. -/
theorem hostInLines_host {cut tail : Text} (hcut : cut <+: r.host.text)
    (htail : tail = [] ∨ cut = r.host.text ∧ ∃ more, tail = '\r' :: more) :
    hostInLines (splitLines (cut ++ tail))
      = some (namedHost (r.host.name.take (cut.length - r.host.nameAt))) := by
  have hunbroken : Unbroken cut := fun c hc => unbroken_text r.host c (hcut.subset hc)
  have hline := HostField.hostInLine_of_prefix hcut
  rcases htail with rfl | ⟨rfl, more, rfl⟩
  · rw [append_nil, splitLines_unbroken hunbroken, hostInLines, hline, Option.bind_some]
    cases namedHost (r.host.name.take (cut.length - r.host.nameAt)) <;> rfl
  · have hlength := length_text_ge r.host
    obtain ⟨c, hc, hdot⟩ := r.host.name_named
    rw [splitLines_append hunbroken (.inl rfl), hostInLines, hline, Option.bind_some]
    cases hname : namedHost (r.host.name.take (r.host.text.length - r.host.nameAt)) with
    | some host => rfl
    | none =>
      rw [take_of_length_le (by omega),
        namedHost_eq_none_iff r.host.name_graphic prefix_rfl] at hname
      exact absurd (hname c hc) hdot

/-! ### What a beginning names -/

theorem exists_front_eq : ∃ c rest, r.front = c :: rest ∧ 33 ≤ c.toNat ∧ c.toNat < 127 := by
  obtain ⟨c, method, hmethod⟩ := exists_cons_of_ne_nil r.method_ne
  have hgraphic := (r.method_token c (hmethod ▸ mem_cons_self)).1
  rw [front, linesText, lines, flatMap_cons, requestLine, hmethod]
  exact ⟨c, _, rfl, hgraphic⟩

variable {data : Bytes}

/-- The first byte is not the one of a record. -/
theorem first_ne (h : data <+: r.bytes) : data[0]? ≠ some 0x16 := by
  intro hfirst
  obtain ⟨c, rest, hfront, hgraphic⟩ := @exists_front_eq r
  have hrecord : encodeText ['\x16'] <+: r.bytes := by
    refine List.IsPrefix.trans ?_ h
    cases data with
    | nil => cases hfirst
    | cons b data =>
      cases hfirst
      exact ⟨data, rfl⟩
  have hmethod : encodeText [c] <+: r.bytes := by
    rw [bytes_eq, hfront, show c :: rest = [c] ++ rest from rfl, encodeText_append, append_assoc]
    exact prefix_append _ _
  have hlength : (encodeText [c]).length = 1 :=
    length_encodeText_of_ascii fun d hd => by
      rw [mem_singleton.mp hd]
      omega
  have hsame : '\x16' = c := by
    have hpre := prefix_of_prefix_length_le hrecord hmethod (by rw [hlength]; exact le_rfl)
    exact (cons_prefix_cons.mp (isPrefix_of_encodeText hpre)).1
  rw [← hsame] at hgraphic
  exact absurd hgraphic.1 (by decide)

theorem length_front_ge : 10 ≤ r.front.length := by
  have hmethod := length_pos_of_ne_nil r.method_ne
  rw [front, linesText, lines, flatMap_cons, requestLine]
  simp only [length_append, length_cons]
  have hkeyword : " HTTP/".toList.length = 6 := rfl
  have hbreak : "\r\n".toList.length = 2 := rfl
  omega

theorem looksLikeHttp_front (t : Text) : looksLikeHttp (r.front ++ t) = true := by
  rw [looksLikeHttp, Bool.or_eq_true]
  refine .inr ((containsText_iff _ _).mpr ?_)
  have hline : "HTTP/".toList <:+: r.requestLine :=
    ⟨r.method ++ ' ' :: (r.target ++ [' ']), r.version, by
      simp only [requestLine, append_assoc, cons_append]
      rfl⟩
  have hfront : r.requestLine <:+: r.front := by
    rw [front, linesText, lines, flatMap_cons, append_assoc]
    exact (prefix_append _ _).isInfix
  exact (hline.trans hfront).trans (prefix_append _ _).isInfix

/-- A beginning with some of the name is taken for a request. -/
theorem reads_of_front (h : data <+: r.bytes)
    (ht : data = encodeText (r.front ++ t)) (hlong : r.nameStart < data.length) :
    ReadsAsHttp data (r.front ++ t) := by
  refine ⟨?_, first_ne h, ht, looksLikeHttp_front t⟩
  have hfront := (@length_front_ge r).trans (length_le_byteLength r.front)
  have hname : 5 ≤ r.host.nameAt := by
    rw [HostField.nameAt, length_append, length_keyword r.host.keyword_eq]
    exact Nat.le_add_right _ _
  rw [nameStart] at hlong
  omega

theorem isPrefix_cutName (n : ℕ) : r.cutName n <+: r.host.name := take_prefix _ _

theorem namedHost_cutName {n : ℕ} : namedHost (r.cutName n) = none ↔ AllDots (r.cutName n) :=
  namedHost_eq_none_iff r.host.name_graphic (isPrefix_cutName n)

theorem cutName_eq {m n : ℕ} (h : m ≤ n) : r.cutName n
    = r.cutName m ++ slice r.host.name (m - r.nameStart) (n - r.nameStart) := by
  rw [cutName, cutName, slice, ← take_add]
  congr 1
  omega

theorem lt_of_cutName {n : ℕ} (h : ¬ AllDots (r.cutName n)) : r.nameStart < n := by
  by_contra hle
  refine h ?_
  rw [cutName, Nat.sub_eq_zero_of_le (Nat.not_lt.mp hle), take_zero]
  exact fun _ hc => absurd hc not_mem_nil

/-- What there is of the name, counted in characters. -/
theorem cutName_of_cut {cut tail : Text} (hcut : cut <+: r.host.text)
    (htail : tail = [] ∨ cut = r.host.text ∧ ∃ more, tail = '\r' :: more) :
    r.cutName (encodeText (r.front ++ (cut ++ tail))).length
      = r.host.name.take (cut.length - r.host.nameAt) := by
  have hascii : byteLength cut = cut.length :=
    byteLength_of_ascii fun c hc => HostField.ascii_text c (hcut.subset hc)
  have hlength : (encodeText (r.front ++ (cut ++ tail))).length
      = byteLength r.front + (cut.length + byteLength tail) := by
    rw [encodeText_append, encodeText_append, length_append, length_append,
      length_encodeText, length_encodeText, length_encodeText, hascii]
  rw [cutName, hlength, nameStart, Nat.add_sub_add_left]
  rcases htail with rfl | ⟨rfl, -⟩
  · rfl
  · have htext := length_text_ge r.host
    rw [take_of_length_le (by omega), take_of_length_le (by omega)]

/-- The lines of a text at the beginning of the request name what there is of the name, if none of them
cuts a character. -/
theorem hostInLines_text (h : encodeText t <+: r.bytes) (hwhole : hostInLines (splitLines t) ≠ none) :
    hostInLines (splitLines t) = some (namedHost (r.cutName (encodeText t).length)) := by
  rcases front_cases h with ht | ⟨cut, tail, rfl, hcut, htail⟩
  · have hnameless : ∀ piece ∈ splitLines t, ¬ IsHostLine piece := by
      intro piece hpiece
      rcases exists_of_mem_splitLines unbroken_lines ht hpiece with rfl | ⟨line, hline, more, rfl⟩
      · exact not_isHostLine_nil
      · exact fun hhost => nameless_lines _ hline (hhost.append more)
    have hlines := hostInLines_nameless hnameless []
    rw [append_nil] at hlines
    have hshort : (encodeText t).length ≤ r.nameStart := by
      obtain ⟨more, hmore⟩ := ht
      rw [nameStart, ← length_encodeText r.front, ← hmore, encodeText_append, length_append]
      omega
    rw [cutName, Nat.sub_eq_zero_of_le hshort, take_zero]
    rw [hlines] at hwhole ⊢
    split
    · next hsplits => exact absurd (if_pos hsplits) hwhole
    · rfl
  · rw [cutName_of_cut hcut htail]
    rw [hostInLines_front, hostInLines_host hcut htail] at hwhole ⊢
    split
    · next hsplits => exact absurd (if_pos hsplits) hwhole
    · rfl

/-- What is no text names nothing. -/
theorem extract_of_no_text (h : data <+: r.bytes) (htext : fromUtf8 data = none) :
    extractHostnameFromPrefix data = some none := by
  rw [extract_of_no_record (first_ne h)]
  refine (reads_or_extractHttpHost data).resolve_left ?_
  rintro ⟨text, hreads⟩
  rw [hreads.text_eq, fromUtf8_encodeText] at htext
  cases htext

/-- A text names what there is of the name. -/
theorem extract_of_text (h : data <+: r.bytes) (htext : fromUtf8 data ≠ none)
    (hwhole : extractHostnameFromPrefix data ≠ none) :
    extractHostnameFromPrefix data = some (namedHost (r.cutName data.length)) := by
  obtain ⟨t, rfl⟩ := exists_of_fromUtf8 htext
  by_cases hreads : ReadsAsHttp (encodeText t) t
  · rw [extract_of_reads hreads] at hwhole ⊢
    exact hostInLines_text h hwhole
  · have hunread : ¬ ∃ text, ReadsAsHttp (encodeText t) text := by
      rintro ⟨text, hreads'⟩
      rw [← encodeText_injective hreads'.text_eq] at hreads'
      exact hreads hreads'
    have hdots : AllDots (r.cutName (encodeText t).length) := by
      by_contra hdots
      have hlong := lt_of_cutName hdots
      rcases front_cases h with ht | ⟨cut, tail, rfl, -⟩
      · obtain ⟨more, hmore⟩ := ht
        rw [nameStart, ← length_encodeText r.front, ← hmore, encodeText_append,
          length_append] at hlong
        omega
      · exact hreads (reads_of_front h rfl hlong)
    rw [namedHost_cutName.mpr hdots, extract_of_no_record (first_ne h)]
    exact (reads_or_extractHttpHost _).resolve_left hunread

/-- A beginning with some of the name panics if a line before the header cuts a character. -/
theorem extract_eq_none_iff_cutsLine (h : data <+: r.bytes)
    (htext : fromUtf8 data ≠ none) (hlong : r.nameStart < data.length) :
    extractHostnameFromPrefix data = none ↔ r.CutsLine := by
  obtain ⟨t, rfl⟩ := exists_of_fromUtf8 htext
  rcases front_cases h with ht | ⟨cut, tail, rfl, hcut, htail⟩
  · obtain ⟨more, hmore⟩ := ht
    rw [nameStart, ← length_encodeText r.front, ← hmore, encodeText_append,
      length_append] at hlong
    omega
  · rw [extract_of_reads (reads_of_front h rfl hlong), hostInLines_front,
      hostInLines_host hcut htail]
    by_cases hcuts : r.CutsLine
    · rw [if_pos hcuts]
      exact iff_of_true rfl hcuts
    · rw [if_neg hcuts]
      exact iff_of_false (Option.some_ne_none _) hcuts

/-- A name found stays the same while the stream is a text and the name does not go on. -/
theorem extract_stable {p q : Bytes} (hpq : p <+: q) (hq : q <+: r.bytes) {host : Text}
    (hhost : extractHostnameFromPrefix p = some (some host)) :
    extractHostnameFromPrefix q = some (some host) ↔ fromUtf8 q ≠ none ∧
      AllDots (slice r.host.name (p.length - r.nameStart) (q.length - r.nameStart)) := by
  have hp := hpq.trans hq
  have hptext : fromUtf8 p ≠ none := by
    intro hnone
    rw [extract_of_no_text hp hnone] at hhost
    cases hhost
  have hnamed := extract_of_text hp hptext (by rw [hhost]; exact Option.some_ne_none _)
  rw [hhost, Option.some.injEq] at hnamed
  have hgraphic := r.host.name_graphic
  have hdots : ¬ AllDots (r.cutName p.length) := by
    rw [← namedHost_cutName]
    exact fun hnone => absurd (hnamed.trans hnone) (Option.some_ne_none _)
  have hlong := lt_of_cutName hdots
  have hwhole : ¬ r.CutsLine := by
    rw [← extract_eq_none_iff_cutsLine hp hptext hlong, hhost]
    exact Option.some_ne_none _
  by_cases hqtext : fromUtf8 q = none
  · rw [extract_of_no_text hq hqtext]
    exact iff_of_false nofun fun h => h.1 hqtext
  have hlength := hpq.length_le
  have hcut := @cutName_eq r _ _ hlength
  have hnone : extractHostnameFromPrefix q ≠ none := by
    rw [Ne, extract_eq_none_iff_cutsLine hq hqtext (by omega)]
    exact hwhole
  rw [extract_of_text hq hqtext hnone, hnamed, Option.some.injEq, and_iff_right hqtext, hcut]
  exact namedHost_append_eq_iff hgraphic (hcut ▸ isPrefix_cutName _) hdots

end Request

end Taomni.Sockscap
