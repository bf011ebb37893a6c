import Taomni.Common.Lists
import Taomni.Sockscap.DnsMessage

/-!
# The answers of a response are its address records

Reference: `src-tauri/src/sockscap/rules/dns.rs`.
-/

namespace Taomni.Sockscap.Dns

open List
open Agent (Text)
open Encoding (fromUtf8 utf8Bytes utf8Bytes_of_fromUtf8)
open Option (bind_eq_some_iff bind_some getD_some map_eq_some_iff map_some)

/-! ## The first byte of a label -/

theorem and_mark_facts : ∀ n : Fin 256,
    (n.val &&& 0xC0 = 0xC0 ↔ 0xC0 ≤ n.val) ∧ (n.val ≤ 63 → n.val &&& 0xC0 = 0) := by
  decide +kernel

theorem and_mark_eq_iff (b : UInt8) : b &&& 0xC0 = 0xC0 ↔ 0xC0 ≤ b.toNat := by
  rw [← UInt8.toNat_inj, UInt8.toNat_and]
  exact (and_mark_facts ⟨b.toNat, b.toNat_lt⟩).1

theorem and_mark_eq_zero {b : UInt8} (h : b.toNat ≤ 63) : b &&& 0xC0 = 0 := by
  rw [← UInt8.toNat_inj, UInt8.toNat_and]
  exact (and_mark_facts ⟨b.toNat, b.toNat_lt⟩).2 h

theorem pointerTarget_eq {high : UInt8} (hmark : 0xC0 ≤ high.toNat) (low : UInt8) :
    pointerTarget high low = (high.toNat - 0xC0) * 256 + low.toNat := by
  have hhigh : high.toNat < 256 := high.toNat_lt
  have hmod : (high &&& 0x3F).toNat = high.toNat % 64 := by
    rw [UInt8.toNat_and]
    exact Nat.and_two_pow_sub_one_eq_mod high.toNat 6
  rw [pointerTarget, hmod, ← Nat.shiftLeft_add_eq_or_of_lt low.toNat_lt, Nat.shiftLeft_eq]
  omega

/-! ## A step of a name -/

variable {label : Bytes}

section Step

variable {packet : Bytes} {cursor pointers : ℕ} {resume : Option ℕ} {labels : List String}

theorem readNameFrom_root (h : packet[cursor]? = some 0) :
    readNameFrom packet cursor resume labels pointers = some (hostName labels, resume.getD (cursor + 1)) := by
  rw [readNameFrom, h]
  dsimp only
  rw [if_neg (by decide), if_neg (by decide), if_pos rfl]

theorem readNameFrom_label {length : UInt8} {text : String} (hlength : packet[cursor]? = some length)
    (hrange : 1 ≤ length.toNat ∧ length.toNat ≤ 63)
    (hlabel : getRange packet (cursor + 1) (cursor + 1 + length.toNat) = some label) (htext : fromUtf8 label = some text)
    (hbytes : ∀ byte ∈ label, byte ≠ 0x2E ∧ byte ≠ 0) (hle : nameLength (labels ++ [text]) ≤ 255) :
    readNameFrom packet cursor resume labels pointers =
      readNameFrom packet (cursor + 1 + length.toNat) resume (labels ++ [text]) pointers := by
  have hzero := and_mark_eq_zero hrange.2
  have hmark : ¬length &&& 0xC0 = 0xC0 := by
    rw [hzero]
    decide
  have hsmall : ¬(length &&& 0xC0 ≠ 0 ∨ 63 < length) := by
    rintro (h | h)
    · exact h hzero
    · have hlt : 63 < length.toNat := UInt8.lt_iff_toNat_lt.1 h
      omega
  have hne : length ≠ 0 := by
    rintro rfl
    exact absurd hrange.1 (by decide)
  have hutf8 : utf8Bytes text = label := utf8Bytes_of_fromUtf8 htext
  have hdots : ((utf8Bytes text).any fun byte => byte = 0x2E || byte = 0) = false := by
    rw [hutf8, any_eq_false]
    intro byte hbyte
    obtain ⟨hdot, hnul⟩ := hbytes byte hbyte
    rw [decide_eq_false hdot, decide_eq_false hnul]
    exact Bool.false_ne_true
  have hnonempty : text.isEmpty = false := by
    rw [Bool.eq_false_iff]
    intro hempty
    have hlength' := length_of_getRange hlabel
    rw [← hutf8, String.isEmpty_iff.1 hempty] at hlength'
    have hnil : (utf8Bytes "").length = 0 := by decide
    omega
  rw [readNameFrom, hlength]
  dsimp only
  rw [if_neg hmark, if_neg hsmall, if_neg hne, hlabel, bind_some, htext]
  dsimp only
  rw [hnonempty, hdots, Bool.or_false, if_neg Bool.false_ne_true, if_neg (Nat.not_lt.2 hle)]

theorem readNameFrom_pointer {high low : UInt8} (hhigh : packet[cursor]? = some high) (hmark : 0xC0 ≤ high.toNat)
    (hlow : packet[cursor + 1]? = some low) (htarget : (high.toNat - 0xC0) * 256 + low.toNat < packet.length) :
    readNameFrom packet cursor resume labels pointers = if maxNamePointers ≤ pointers then none else
        readNameFrom packet ((high.toNat - 0xC0) * 256 + low.toNat) (some (resume.getD (cursor + 2))) labels
          (pointers + 1) := by
  rw [readNameFrom, hhigh]
  dsimp only
  rw [if_pos ((and_mark_eq_iff high).2 hmark), hlow]
  dsimp only
  rw [pointerTarget_eq hmark]
  exact if_congr (or_iff_right (Nat.not_le.2 htarget)) rfl rfl

end Step

/-! ## A name -/

variable {packet : Bytes}

variable {labels : List Bytes}

theorem lt_length_of_nameAt {offset pointers next : ℕ}
    (h : NameAt packet offset labels pointers next) : offset < packet.length := by
  cases h with
  | root hlength => exact (List.getElem?_eq_some_iff.1 hlength).1
  | label hlength => exact (List.getElem?_eq_some_iff.1 hlength).1
  | pointer hhigh => exact (List.getElem?_eq_some_iff.1 hhigh).1

theorem wireLength_cons (label : Bytes) (labels : List Bytes) :
    wireLength (label :: labels) = label.length + 1 + wireLength labels := by
  rw [wireLength, map_cons, sum_cons, wireLength]

theorem fromUtf8_labelText (h : IsTextLabel label) : fromUtf8 label = some (labelText label) := by
  obtain ⟨text, htext⟩ := Option.isSome_iff_exists.1 h.1
  rw [labelText, htext, getD_some]

/-- A name that stands at a place is read there, after the labels that were read before, unless too many pointers lead
through it. -/
theorem readNameFrom_of_nameAt {offset count next : ℕ}
    (h : NameAt packet offset labels count next) (htext : ∀ label ∈ labels, IsTextLabel label) {resume : Option ℕ}
    {front : List String} {pointers : ℕ} (hpointers : pointers ≤ maxNamePointers)
    (hlength : nameLength front + wireLength labels ≤ 255) :
    readNameFrom packet offset resume front pointers =
      if pointers + count ≤ maxNamePointers then some (hostName (front ++ labels.map labelText), resume.getD next)
      else none := by
  induction h generalizing resume front pointers with
  | root hzero =>
    rw [readNameFrom_root hzero, map_nil, append_nil]
    exact (if_pos hpointers).symm
  | @label offset count next length label labels hbyte hrange hlabel hrest ih =>
    obtain ⟨hfirst, hothers⟩ := forall_mem_cons.1 htext
    have hutf8 := fromUtf8_labelText hfirst
    have hbytes : (utf8Bytes (labelText label)).length = label.length := by rw [utf8Bytes_of_fromUtf8 hutf8]
    rw [wireLength_cons] at hlength
    have hnext : nameLength (front ++ [labelText label]) + wireLength labels ≤ 255 := by
      rw [nameLength_concat, hbytes]
      omega
    rw [readNameFrom_label hbyte hrange hlabel hutf8 hfirst.2 (by omega), ih hothers hpointers hnext, map_cons,
      append_assoc, singleton_append]
  | @pointer offset count next high low labels hhigh hmark hlow hrest ih =>
    rw [readNameFrom_pointer hhigh hmark hlow (lt_length_of_nameAt hrest)]
    by_cases hfull : maxNamePointers ≤ pointers
    · rw [if_pos hfull, if_neg (by omega)]
    · rw [if_neg hfull, ih htext (by omega) hlength, getD_some, Nat.add_right_comm, Nat.add_assoc]

theorem readName_of_nameAt {offset pointers next : ℕ}
    (h : NameAt packet offset labels pointers next) (htext : ∀ label ∈ labels, IsTextLabel label)
    (hlegal : IsLegal labels) : readName packet offset =
      if pointers ≤ maxNamePointers then some (hostName (labels.map labelText), next) else none := by
  have hlength : nameLength [] + wireLength labels ≤ 255 := by
    rw [IsLegal] at hlegal
    rw [nameLength, map_nil, sum_nil]
    omega
  rw [readName, readNameFrom_of_nameAt h htext (Nat.zero_le _) hlength, nil_append, Option.getD_none, Nat.zero_add]

/-! ## What is read as a name -/

theorem isTextLabel_of_read {text : String} (htext : fromUtf8 label = some text)
    (hbytes : (utf8Bytes text).any (fun byte => byte = 0x2E || byte = 0) = false) : IsTextLabel label := by
  rw [utf8Bytes_of_fromUtf8 htext, any_eq_false] at hbytes
  refine ⟨by rw [htext]; rfl, fun byte hbyte => ?_⟩
  have hnot := hbytes byte hbyte
  rw [Bool.or_eq_true, decide_eq_true_eq, decide_eq_true_eq, not_or] at hnot
  exact hnot

/-- What the loop reads is a name that stands there. -/
theorem nameAt_of_readNameFrom {cursor pointers : ℕ} {resume : Option ℕ} {front : List String}
    {host : Text} {stop : ℕ} (h : readNameFrom packet cursor resume front pointers = some (host, stop))
    (hpointers : pointers ≤ maxNamePointers) (hlength : nameLength front ≤ 255) :
    ∃ labels count next, NameAt packet cursor labels count next ∧ (∀ label ∈ labels, IsTextLabel label) ∧
      pointers + count ≤ maxNamePointers ∧ nameLength front + wireLength labels ≤ 255 ∧
        host = hostName (front ++ labels.map labelText) ∧ stop = resume.getD next := by
  fun_induction readNameFrom packet cursor resume front pointers with
  | case1 => exact nomatch h
  | case2 => exact nomatch h
  | case3 => exact nomatch h
  | case4 cursor resume front pointers high hhigh hmark low hlow hguard ih =>
    obtain ⟨labels, count, next, hat, htext, hcount, hwire, rfl, rfl⟩ := ih h (by omega) hlength
    have hmark' := (and_mark_eq_iff high).1 hmark
    rw [pointerTarget_eq hmark'] at hat
    exact ⟨labels, count + 1, cursor + 2, NameAt.pointer hhigh hmark' hlow hat, htext, by omega, hwire, rfl, rfl⟩
  | case5 => exact nomatch h
  | case6 cursor resume front pointers hzero =>
    obtain ⟨rfl, rfl⟩ := Prod.mk.inj (Option.some.inj h)
    refine ⟨[], 0, cursor + 1, NameAt.root hzero, (fun label hlabel => nomatch hlabel), hpointers, hlength, ?_, rfl⟩
    rw [map_nil, append_nil]
  | case7 => exact nomatch h
  | case8 => exact nomatch h
  | case9 => exact nomatch h
  | case10 cursor resume front pointers length hbyte hmark hrange hne label hlabel htext hlong ih =>
    obtain ⟨bytes, hbytes, hutf8⟩ := bind_eq_some_iff.1 hlabel
    rw [Bool.or_eq_true, not_or] at htext
    have hfirst := isTextLabel_of_read hutf8 (Bool.eq_false_iff.2 htext.2)
    obtain ⟨labels, count, next, hat, hothers, hcount, hwire, rfl, rfl⟩ := ih h hpointers (Nat.not_lt.1 hlong)
    have hsmall : length.toNat ≤ 63 := UInt8.le_iff_toNat_le.1 (UInt8.not_lt.1 (not_or.1 hrange).2)
    have hpos : 1 ≤ length.toNat := by
      by_contra hzero
      exact hne (UInt8.toNat_inj.1 (by rw [UInt8.toNat_zero]; omega))
    have hcopy : labelText bytes = label := by rw [labelText, hutf8, getD_some]
    rw [nameLength_concat, utf8Bytes_of_fromUtf8 hutf8] at hwire
    refine ⟨bytes :: labels, count, next, NameAt.label hbyte ⟨hpos, hsmall⟩ hbytes hat,
      forall_mem_cons.2 ⟨hfirst, hothers⟩, hcount, ?_, ?_, rfl⟩
    · rw [wireLength_cons]
      omega
    · rw [map_cons, hcopy, append_assoc, singleton_append]

/-! ## Questions -/

theorem ne_nil_of_nameAt {offset pointers next : ℕ}
    (h : NameAt packet offset labels pointers next) : ∀ label ∈ labels, label ≠ [] := by
  induction h with
  | root => exact fun label hlabel => nomatch hlabel
  | label hlength hrange hlabel hrest ih =>
    refine forall_mem_cons.2 ⟨?_, ih⟩
    rintro rfl
    have hnil := length_of_getRange hlabel
    rw [length_nil] at hnil
    omega
  | pointer hhigh hmark hlow hrest ih => exact ih

theorem labelText_ne_empty (htext : IsTextLabel label) (hne : label ≠ []) : labelText label ≠ "" := by
  intro hempty
  have hbytes := utf8Bytes_of_fromUtf8 (fromUtf8_labelText htext)
  rw [hempty] at hbytes
  exact hne (hbytes ▸ (by decide))

/-- A name with a label has a text. -/
theorem hostName_ne_nil (hne : labels ≠ []) (htext : ∀ label ∈ labels, IsTextLabel label)
    (hlabels : ∀ label ∈ labels, label ≠ []) : hostName (labels.map labelText) ≠ [] := by
  cases labels with
  | nil => exact absurd rfl hne
  | cons label labels =>
    have hfirst := labelText_ne_empty (htext label mem_cons_self) (hlabels label mem_cons_self)
    intro hnil
    rw [hostName, map_cons, toAsciiLowercase, map_eq_nil_iff] at hnil
    cases labels with
    | nil =>
      rw [map_nil, String.intercalate_singleton] at hnil
      exact hfirst (String.toList_eq_nil_iff.1 hnil)
    | cons other labels =>
      rw [map_cons, String.intercalate_cons_cons, String.toList_append, String.toList_append, append_assoc]
        at hnil
      exact hfirst (String.toList_eq_nil_iff.1 (append_eq_nil_iff.1 hnil).1)

section Questions

variable {packet : Bytes} {offset next : ℕ} {questions : List Question}

/-- After the first question the host stays. -/
theorem readQuestions_later (h : QuestionsAt packet offset questions next)
    (htext : ∀ question ∈ questions, ∀ label ∈ question.name, IsTextLabel label)
    (hpointers : ∀ question ∈ questions, question.pointers ≤ maxNamePointers)
    (hlegal : ∀ question ∈ questions, IsLegal question.name) {index : ℕ} (hindex : index ≠ 0) (host : Option Text) :
    readQuestions packet questions.length index offset host = some (next, host) := by
  induction h generalizing index with
  | nil => rw [length_nil, readQuestions]
  | @cons offset start next question questions hname hfields hrest ih =>
    obtain ⟨htext, htexts⟩ := forall_mem_cons.1 htext
    obtain ⟨hpointer, hpointers⟩ := forall_mem_cons.1 hpointers
    obtain ⟨hlegal, hlegals⟩ := forall_mem_cons.1 hlegal
    rw [length_cons, readQuestions, readName_of_nameAt hname htext hlegal, if_pos hpointer, bind_some]
    dsimp only
    rw [if_neg (Nat.not_lt.2 hfields), if_neg (fun h => hindex h.1), ih htexts hpointers hlegals (Nat.succ_ne_zero index)]

/-- The host is the name of the first question. -/
theorem readQuestions_of_questionsAt {question : Question} (h : QuestionsAt packet offset (question :: questions) next)
    (hname : question.name ≠ [])
    (htext : ∀ other ∈ question :: questions, ∀ label ∈ other.name, IsTextLabel label)
    (hpointers : ∀ other ∈ question :: questions, other.pointers ≤ maxNamePointers)
    (hlegal : ∀ other ∈ question :: questions, IsLegal other.name) :
    readQuestions packet (questions.length + 1) 0 offset none = some (next, some question.host) := by
  obtain ⟨htext, htexts⟩ := forall_mem_cons.1 htext
  obtain ⟨hpointer, hpointers⟩ := forall_mem_cons.1 hpointers
  obtain ⟨hlegal, hlegals⟩ := forall_mem_cons.1 hlegal
  cases h with
  | cons hat hfields hrest =>
    have hhost := hostName_ne_nil hname htext (ne_nil_of_nameAt hat)
    rw [readQuestions, readName_of_nameAt hat htext hlegal, if_pos hpointer, bind_some]
    dsimp only
    rw [if_neg (Nat.not_lt.2 hfields), if_pos ⟨rfl, hhost⟩]
    exact readQuestions_later hrest htexts hpointers hlegals Nat.one_ne_zero _

end Questions

/-! ## Records -/

variable {bytes : Bytes}

variable {i : ℕ}

/-- The fields of a record are in the packet. -/
theorem le_length_of_u16At {n : ℕ} (h : u16At bytes i = some n) : i + 2 ≤ bytes.length := by
  obtain ⟨high, -, h⟩ := bind_eq_some_iff.1 h
  obtain ⟨low, hlow, -⟩ := map_eq_some_iff.1 h
  exact (List.getElem?_eq_some_iff.1 hlow).1

theorem bigEndianNat_of_u16At {n : ℕ} (h : u16At bytes i = some n) :
    ∃ high low, slice bytes i (i + 2) = [high, low] ∧ n = high.toNat * 256 + low.toNat := by
  obtain ⟨high, hhigh, h⟩ := bind_eq_some_iff.1 h
  obtain ⟨low, hlow, rfl⟩ := map_eq_some_iff.1 h
  refine ⟨high, low, ?_, rfl⟩
  have hlength := (List.getElem?_eq_some_iff.1 hlow).1
  rw [← slice_append bytes (Nat.le_succ i) (Nat.le_succ (i + 1)), slice_succ hhigh, slice_succ hlow]
  rfl

/-- The number in four bytes. -/
theorem u32At_eq_some (h : i + 4 ≤ bytes.length) :
    u32At bytes i = some (bigEndianNat (slice bytes i (i + 4))) := by
  obtain ⟨high, hhigh⟩ := exists_u16At (show i + 2 ≤ bytes.length by omega)
  obtain ⟨low, hlow⟩ := exists_u16At (show i + 2 + 2 ≤ bytes.length by omega)
  obtain ⟨a, b, hab, rfl⟩ := bigEndianNat_of_u16At hhigh
  obtain ⟨c, d, hcd, rfl⟩ := bigEndianNat_of_u16At hlow
  have hslice : slice bytes i (i + 4) = [a, b, c, d] := by
    rw [← slice_append bytes (Nat.le_add_right i 2) (show i + 2 ≤ i + 4 by omega), hab]
    exact congrArg _ hcd
  rw [u32At, hhigh, bind_some, hlow, map_some, hslice, bigEndianNat]
  simp only [foldl_cons, foldl_nil]
  exact congrArg some (by omega)

theorem recordIp_of_data {start : ℕ} {record : Record} (hsized : record.IsSized)
    (hdata : getRange packet start (start + record.data.length) = some record.data) :
    recordIp packet start record.recordClass record.recordType record.data.length = some record.ip := by
  obtain ⟨⟨-, hend⟩, hslice⟩ := getRange_eq_some.1 hdata
  rw [recordIp, Record.ip]
  by_cases hv4 : record.recordClass = 1 ∧ record.recordType = 1
  · have hfour := (hsized hv4.1).1 hv4.2
    rw [if_pos ⟨hv4.1, hv4.2, hfour⟩, if_pos hv4, u32At_eq_some (by omega), map_some, ← hfour, hslice]
  rw [if_neg (fun h => hv4 ⟨h.1, h.2.1⟩), if_neg hv4]
  by_cases hv6 : record.recordClass = 1 ∧ record.recordType = 28
  · have hsixteen := (hsized hv6.1).2 hv6.2
    rw [if_pos ⟨hv6.1, hv6.2, hsixteen⟩, if_pos hv6, sliceAt, if_pos hend, map_some, hslice]
  · rw [if_neg (fun h => hv6 ⟨h.1, h.2.1⟩), if_neg hv6]

theorem readAnswers_of_recordsAt {offset next : ℕ} {records : List Record}
    (h : RecordsAt packet offset records next)
    (htext : ∀ record ∈ records, ∀ label ∈ record.owner, IsTextLabel label)
    (hpointers : ∀ record ∈ records, record.pointers ≤ maxNamePointers)
    (hlegal : ∀ record ∈ records, IsLegal record.owner) (hsized : ∀ record ∈ records, record.IsSized) (host : Text) :
    readAnswers packet host records.length offset = some (records.filterMap (Record.answer host)) := by
  induction h with
  | nil => rw [length_nil, readAnswers, filterMap_nil]
  | @cons offset start next record records howner htype hclass httl hlength hdata hrest ih =>
    obtain ⟨htext, htexts⟩ := forall_mem_cons.1 htext
    obtain ⟨hpointer, hpointers⟩ := forall_mem_cons.1 hpointers
    obtain ⟨hlegal, hlegals⟩ := forall_mem_cons.1 hlegal
    obtain ⟨hsized, hsizes⟩ := forall_mem_cons.1 hsized
    have hfields := le_length_of_u16At hlength
    have hend := (getRange_eq_some.1 hdata).1.2
    rw [length_cons, readAnswers, readName_of_nameAt howner htext hlegal, if_pos hpointer]
    dsimp only
    rw [if_neg (by omega), htype, bind_some, hclass, bind_some, httl, bind_some, hlength,
      bind_some, if_neg (by omega), recordIp_of_data hsized hdata, bind_some,
      ih htexts hpointers hlegals hsizes, map_some]
    cases hip : record.ip with
    | none => rw [filterMap_cons_none (by rw [Record.answer, hip, Option.map_none])]; rfl
    | some ip => rw [filterMap_cons_some (by rw [Record.answer, hip, map_some])]; rfl

/-- A readable response gives its address records, in order and no others. -/
theorem extractIpAnswers_of_isResponse {questions : List Question} {records : List Record}
    (h : IsResponse packet questions records) (hreadable : IsReadable questions records) :
    extractIpAnswers packet = some (answersOf questions records) := by
  obtain ⟨flags, hflags, hresponse, hwhole, hcode⟩ := h.flags
  obtain ⟨offset, next, hquestions, hrecords⟩ := h.body
  obtain ⟨question, hhead, hname⟩ := h.questionName
  rw [extractIpAnswers, if_neg (Nat.not_lt.2 h.header), hflags, bind_some,
    if_neg (by rintro (h | h | h); exacts [hresponse h, h hwhole, h hcode]), h.questionCount, bind_some,
    h.answerCount, bind_some]
  cases questions with
  | nil => exact nomatch hhead
  | cons first questions =>
    cases hhead
    have hread : readQuestions packet (question :: questions).length 0 dnsHeaderLen none =
        some (offset, some question.host) :=
      readQuestions_of_questionsAt hquestions hname hreadable.questionLabels hreadable.questionPointers h.questionNames
    have hanswers := readAnswers_of_recordsAt hrecords hreadable.ownerLabels hreadable.ownerPointers h.ownerNames h.sized
      question.host
    rw [answersOf]
    cases records with
    | nil =>
      rw [if_pos (Or.inr length_nil)]
      rfl
    | cons record records =>
      rw [if_neg (by rintro (h | h) <;> exact Nat.succ_ne_zero _ h), hread]
      exact hanswers

/-! ## Packets of any kind -/

theorem exists_u32At (h : i + 4 ≤ bytes.length) : ∃ n, u32At bytes i = some n :=
  ⟨_, u32At_eq_some h⟩

theorem exists_recordIp {start dataLen : ℕ} (h : start + dataLen ≤ packet.length)
    (recordClass recordType : ℕ) : ∃ ip, recordIp packet start recordClass recordType dataLen = some ip := by
  rw [recordIp]
  split
  · rename_i hv4
    rw [u32At_eq_some (by omega)]
    exact ⟨_, rfl⟩
  split
  · rw [sliceAt, if_pos h]
    exact ⟨_, rfl⟩
  · exact ⟨_, rfl⟩

/-- No access to a record fails. -/
theorem exists_readAnswers (packet : Bytes) (host : Text) (count offset : ℕ) :
    ∃ answers, readAnswers packet host count offset = some answers := by
  induction count generalizing offset with
  | zero => exact ⟨[], by rw [readAnswers]⟩
  | succ count ih =>
    rw [readAnswers]
    split
    · exact ⟨[], rfl⟩
    split
    · exact ⟨[], rfl⟩
    rename_i start _ hfields
    obtain ⟨recordType, htype⟩ := exists_u16At (show start + 2 ≤ packet.length by omega)
    obtain ⟨recordClass, hclass⟩ := exists_u16At (show start + 2 + 2 ≤ packet.length by omega)
    obtain ⟨ttl, httl⟩ := exists_u32At (show start + 4 + 4 ≤ packet.length by omega)
    obtain ⟨dataLen, hlen⟩ := exists_u16At (show start + 8 + 2 ≤ packet.length by omega)
    rw [htype, bind_some, hclass, bind_some, httl, bind_some, hlen, bind_some]
    split
    · exact ⟨[], rfl⟩
    · rename_i hdata
      obtain ⟨ip, hip⟩ := exists_recordIp (Nat.not_lt.1 hdata) recordClass recordType
      obtain ⟨answers, hanswers⟩ := ih (start + 10 + dataLen)
      rw [hip, bind_some, hanswers]
      exact ⟨_, rfl⟩

theorem exists_extractIpAnswers (packet : Bytes) : ∃ answers, extractIpAnswers packet = some answers := by
  rw [extractIpAnswers]
  split
  · exact ⟨[], rfl⟩
  rename_i hheader
  rw [dnsHeaderLen] at hheader
  obtain ⟨flags, hflags⟩ := exists_u16At (show 2 + 2 ≤ packet.length by omega)
  obtain ⟨questionCount, hquestions⟩ := exists_u16At (show 4 + 2 ≤ packet.length by omega)
  obtain ⟨answerCount, hanswers⟩ := exists_u16At (show 6 + 2 ≤ packet.length by omega)
  rw [hflags, bind_some, hquestions, bind_some, hanswers, bind_some]
  split
  · exact ⟨[], rfl⟩
  split
  · exact ⟨[], rfl⟩
  split
  · exact exists_readAnswers packet _ _ _
  · exact ⟨[], rfl⟩

/-! ## Truncated packets -/

section Truncated

variable {front packet : Bytes}

theorem getElem?_of_front (hfront : front <+: packet) {b : UInt8} (h : front[i]? = some b) :
    packet[i]? = some b := by
  obtain ⟨more, rfl⟩ := hfront
  exact getElem?_append_of_some h more

theorem getRange_of_front (hfront : front <+: packet) {p q : ℕ} {field : Bytes}
    (h : getRange front p q = some field) : getRange packet p q = some field := by
  obtain ⟨more, rfl⟩ := hfront
  obtain ⟨⟨hle, hend⟩, -⟩ := getRange_eq_some.1 h
  have hslice : sliceAt front p q = some field := by
    rw [getRange, if_pos ⟨hle, hend⟩] at h
    rwa [sliceAt, if_pos hend]
  have hmore := sliceAt_append hslice more
  rw [sliceAt, Option.ite_none_right_eq_some] at hmore
  rw [getRange, if_pos ⟨hle, hmore.1⟩, hmore.2]

theorem NameAt.of_front (hfront : front <+: packet) {offset pointers next : ℕ}
    (h : NameAt front offset labels pointers next) : NameAt packet offset labels pointers next := by
  induction h with
  | root hlength => exact NameAt.root (getElem?_of_front hfront hlength)
  | label hlength hrange hlabel hrest ih =>
    exact NameAt.label (getElem?_of_front hfront hlength) hrange (getRange_of_front hfront hlabel) ih
  | pointer hhigh hmark hlow hrest ih =>
    exact NameAt.pointer (getElem?_of_front hfront hhigh) hmark (getElem?_of_front hfront hlow) ih

/-- A name that is read in the front of a packet is read in the packet. -/
theorem readName_of_front (hfront : front <+: packet) {offset : ℕ} {read : Text × ℕ}
    (h : readName front offset = some read) : readName packet offset = some read := by
  obtain ⟨host, stop⟩ := read
  obtain ⟨labels, count, next, hat, htext, hcount, hlength, rfl, rfl⟩ :=
    nameAt_of_readNameFrom h (Nat.zero_le _) (by decide)
  rw [Nat.zero_add] at hcount
  rw [readName, readNameFrom_of_nameAt (hat.of_front hfront) htext (Nat.zero_le _) hlength, Nat.zero_add, if_pos hcount]
  rfl

theorem u16At_of_front (hfront : front <+: packet) {n : ℕ} (h : u16At front i = some n) :
    u16At packet i = some n := by
  obtain ⟨more, rfl⟩ := hfront
  exact u16At_append h more

theorem u32At_of_front (hfront : front <+: packet) {n : ℕ} (h : u32At front i = some n) :
    u32At packet i = some n := by
  obtain ⟨high, hhigh, h⟩ := bind_eq_some_iff.1 h
  obtain ⟨low, hlow, rfl⟩ := map_eq_some_iff.1 h
  rw [u32At, u16At_of_front hfront hhigh, bind_some, u16At_of_front hfront hlow, map_some]

theorem readQuestions_of_front (hfront : front <+: packet) {count index offset : ℕ} {host : Option Text}
    {read : ℕ × Option Text} (h : readQuestions front count index offset host = some read) :
    readQuestions packet count index offset host = some read := by
  have hle := hfront.length_le
  induction count generalizing index offset host with
  | zero => rwa [readQuestions] at h ⊢
  | succ count ih =>
    obtain ⟨⟨name, stop⟩, hname, h⟩ := bind_eq_some_iff.1 h
    dsimp only at h
    split at h
    · exact nomatch h
    · rename_i hfields
      rw [readQuestions, readName_of_front hfront hname, bind_some]
      dsimp only
      rw [if_neg (by omega)]
      exact ih h

theorem recordIp_of_front (hfront : front <+: packet) {start dataLen recordClass recordType : ℕ}
    {ip : Option IpAddr} (h : recordIp front start recordClass recordType dataLen = some ip) :
    recordIp packet start recordClass recordType dataLen = some ip := by
  rw [recordIp] at h ⊢
  split
  · rename_i hv4
    rw [if_pos hv4] at h
    obtain ⟨bits, hbits, rfl⟩ := map_eq_some_iff.1 h
    rw [u32At_of_front hfront hbits, map_some]
  rename_i hv4
  rw [if_neg hv4] at h
  split
  · rename_i hv6
    rw [if_pos hv6] at h
    obtain ⟨octets, hoctets, rfl⟩ := map_eq_some_iff.1 h
    obtain ⟨more, rfl⟩ := hfront
    rw [sliceAt_append hoctets more, map_some]
  · rename_i hv6
    rwa [if_neg hv6] at h

/-- The answers in the front of a packet are the first ones of the packet. -/
theorem readAnswers_of_front (hfront : front <+: packet) (host : Text) {count offset : ℕ}
    {part answers : List DnsIpAnswer} (hpart : readAnswers front host count offset = some part)
    (hanswers : readAnswers packet host count offset = some answers) : part <+: answers := by
  have hle := hfront.length_le
  induction count generalizing offset part answers with
  | zero =>
    rw [readAnswers] at hpart
    cases hpart
    exact nil_prefix
  | succ count ih =>
    rw [readAnswers] at hpart
    cases hname : readName front offset with
    | none =>
      rw [hname] at hpart
      cases hpart
      exact nil_prefix
    | some read =>
      obtain ⟨name, start⟩ := read
      rw [readAnswers, readName_of_front hfront hname] at hanswers
      rw [hname] at hpart
      dsimp only at hpart hanswers
      split at hpart
      · cases hpart
        exact nil_prefix
      rename_i hfields
      obtain ⟨recordType, htype, hpart⟩ := bind_eq_some_iff.1 hpart
      obtain ⟨recordClass, hclass, hpart⟩ := bind_eq_some_iff.1 hpart
      obtain ⟨ttl, httl, hpart⟩ := bind_eq_some_iff.1 hpart
      obtain ⟨dataLen, hlen, hpart⟩ := bind_eq_some_iff.1 hpart
      rw [if_neg (by omega), u16At_of_front hfront htype, bind_some, u16At_of_front hfront hclass,
        bind_some, u32At_of_front hfront httl, bind_some, u16At_of_front hfront hlen,
        bind_some] at hanswers
      split at hpart
      · cases hpart
        exact nil_prefix
      rename_i hdata
      obtain ⟨ip, hip, hpart⟩ := bind_eq_some_iff.1 hpart
      obtain ⟨restPart, hrestPart, rfl⟩ := map_eq_some_iff.1 hpart
      rw [if_neg (by omega), recordIp_of_front hfront hip, bind_some] at hanswers
      obtain ⟨rest, hrest, rfl⟩ := map_eq_some_iff.1 hanswers
      exact (prefix_append_right_inj _).2 (ih hrestPart hrest)

theorem extractIpAnswers_of_front (hfront : front <+: packet) {part answers : List DnsIpAnswer}
    (hpart : extractIpAnswers front = some part) (hanswers : extractIpAnswers packet = some answers) :
    part <+: answers := by
  have hle := hfront.length_le
  have hnil : part = [] → part <+: answers := by
    rintro rfl
    exact nil_prefix
  rw [extractIpAnswers] at hpart
  split at hpart
  · exact hnil (Option.some.inj hpart).symm
  rename_i hheader
  obtain ⟨flags, hflags, hpart⟩ := bind_eq_some_iff.1 hpart
  rw [extractIpAnswers, if_neg (by omega), u16At_of_front hfront hflags, bind_some] at hanswers
  split at hpart
  · exact hnil (Option.some.inj hpart).symm
  rename_i hsuccess
  obtain ⟨questionCount, hquestions, hpart⟩ := bind_eq_some_iff.1 hpart
  obtain ⟨answerCount, hcount, hpart⟩ := bind_eq_some_iff.1 hpart
  rw [if_neg hsuccess, u16At_of_front hfront hquestions, bind_some, u16At_of_front hfront hcount,
    bind_some] at hanswers
  split at hpart
  · exact hnil (Option.some.inj hpart).symm
  rename_i hsome
  rw [if_neg hsome] at hanswers
  split at hpart
  · rename_i offset host hread
    rw [readQuestions_of_front hfront hread] at hanswers
    exact readAnswers_of_front hfront host hpart hanswers
  · exact hnil (Option.some.inj hpart).symm

end Truncated

/-! ## Any packet and any response -/

/-- No packet makes an access fail, the answers of a truncated packet are the first ones of the packet, and a readable
response gives its address records. -/
theorem extract_answers_exact (packet : Bytes) : (∃ answers, extractIpAnswers packet = some answers ∧
      ∀ length, ∃ part, extractIpAnswers (packet.take length) = some part ∧ part <+: answers) ∧
    ∀ questions records, IsResponse packet questions records → IsReadable questions records →
      extractIpAnswers packet = some (answersOf questions records) := by
  refine ⟨?_, fun questions records => extractIpAnswers_of_isResponse⟩
  obtain ⟨answers, hanswers⟩ := exists_extractIpAnswers packet
  refine ⟨answers, hanswers, fun length => ?_⟩
  obtain ⟨part, hpart⟩ := exists_extractIpAnswers (packet.take length)
  exact ⟨part, hpart, extractIpAnswers_of_front (List.take_prefix length packet) hpart hanswers⟩

/-- The response of the tests of the source: addresses of both kinds, with a pointer for each owner. -/
def googlePacket : Bytes :=
  [0x12, 0x34, 0x81, 0x80, 0, 1, 0, 2, 0, 0, 0, 0] ++
    [3, 0x77, 0x77, 0x77, 6, 0x67, 0x6F, 0x6F, 0x67, 0x6C, 0x65, 3, 0x63, 0x6F, 0x6D, 0, 0, 1, 0, 1] ++
      [0xC0, 0x0C, 0, 1, 0, 1, 0, 0, 1, 0x2C, 0, 4, 1, 2, 3, 4] ++
        [0xC0, 0x0C, 0, 28, 0, 1, 0, 0, 0, 0x3C, 0, 16, 0x20, 1, 0x0D, 0xB8, 0, 0, 0, 0, 0, 0, 0, 0, 0, 0, 0, 1]

def googleName : List Bytes := [[0x77, 0x77, 0x77], [0x67, 0x6F, 0x6F, 0x67, 0x6C, 0x65], [0x63, 0x6F, 0x6D]]

def googleRecords : List Record :=
  [⟨googleName, 1, 1, 1, 300, [1, 2, 3, 4]⟩,
    ⟨googleName, 1, 28, 1, 60, [0x20, 1, 0x0D, 0xB8, 0, 0, 0, 0, 0, 0, 0, 0, 0, 0, 0, 1]⟩]

theorem nameAt_google : NameAt googlePacket 12 googleName 0 28 :=
  NameAt.label (show googlePacket[12]? = some 3 by decide) (by decide) (by decide)
    (NameAt.label (show googlePacket[16]? = some 6 by decide) (by decide) (by decide)
      (NameAt.label (show googlePacket[23]? = some 3 by decide) (by decide) (by decide)
        (NameAt.root (show googlePacket[27]? = some 0 by decide))))

theorem isResponse_google : IsResponse googlePacket [⟨googleName, 0⟩] googleRecords where
  header := by decide
  flags := ⟨0x8180, by decide⟩
  questionCount := by decide
  answerCount := by decide
  body := by
    have hfirst : NameAt googlePacket 32 googleName 1 34 :=
      NameAt.pointer (show googlePacket[32]? = some 0xC0 by decide) (by decide)
        (show googlePacket[33]? = some 0x0C by decide) nameAt_google
    have hsecond : NameAt googlePacket 48 googleName 1 50 :=
      NameAt.pointer (show googlePacket[48]? = some 0xC0 by decide) (by decide)
        (show googlePacket[49]? = some 0x0C by decide) nameAt_google
    exact ⟨32, 76, QuestionsAt.cons nameAt_google (by decide) QuestionsAt.nil,
      RecordsAt.cons hfirst (by decide) (by decide) (by decide) (by decide) (by decide)
        (RecordsAt.cons hsecond (by decide) (by decide) (by decide) (by decide) (by decide) RecordsAt.nil)⟩
  questionName := ⟨_, rfl, cons_ne_nil _ _⟩
  questionNames := by decide
  ownerNames := by decide
  sized := by decide

theorem isReadable_google : IsReadable [⟨googleName, 0⟩] googleRecords := by
  have hlabels : ∀ label ∈ googleName, IsTextLabel label := by
    refine forall_mem_cons.2 ⟨⟨by decide, forall_mem_of_all (by decide)⟩, forall_mem_cons.2
      ⟨⟨by decide, forall_mem_of_all (by decide)⟩, forall_mem_cons.2
        ⟨⟨by decide, forall_mem_of_all (by decide)⟩, ?_⟩⟩⟩
    exact fun label hlabel => nomatch hlabel
  refine ⟨?_, ?_, by decide, by decide⟩
  · exact forall_mem_cons.2 ⟨hlabels, fun question hquestion => nomatch hquestion⟩
  · exact forall_mem_cons.2 ⟨hlabels, forall_mem_cons.2 ⟨hlabels, fun record hrecord => nomatch hrecord⟩⟩

theorem extract_answers_exact_google : extractIpAnswers googlePacket =
      some [⟨"www.google.com".toList, .v4 0x01020304, 300⟩,
        ⟨"www.google.com".toList, .v6 0x20010DB8000000000000000000000001, 60⟩] := by
  rw [(extract_answers_exact googlePacket).2 _ _ isResponse_google isReadable_google]
  decide

/-! ## A chain of pointers -/

/-- An owner of one more label than the name at a place. -/
def longerOwner (target : ℕ) : Bytes := [1, 0x61, UInt8.ofNat (0xC0 + target / 256), UInt8.ofNat target]

/-- The place of an owner in the chain; each points to the one before, and the first to the question. -/
@[grind =] def chainPlace (k : ℕ) : ℕ := 19 + 14 * k

def chainTarget (k : ℕ) : ℕ := if k = 0 then 12 else chainPlace (k - 1)

def chainPacket : Bytes :=
  [0, 0, 0x81, 0x80, 0, 1, 0, 33, 0, 0, 0, 0] ++ [1, 0x61, 0, 0, 1, 0, 1] ++
    (List.range 32).flatMap (fun k => longerOwner (chainTarget k) ++ [0, 10, 0, 1, 0, 0, 0, 60, 0, 0]) ++
      longerOwner (chainTarget 32) ++ [0, 1, 0, 1, 0, 0, 0, 60, 0, 4, 1, 2, 3, 4]

/-- What stands at each place of the chain but the last: a label, a pointer to the owner before, and no data. -/
theorem chainPacket_front : ∀ k < 32,
    longerOwner (chainTarget k) ++ [0, 10, 0, 1, 0, 0, 0, 60, 0, 0] <+: chainPacket.drop (chainPlace k) := by
  decide

theorem chainPacket_back :
    longerOwner (chainTarget 32) ++ [0, 1, 0, 1, 0, 0, 0, 60, 0, 4, 1, 2, 3, 4] <+: chainPacket.drop (chainPlace 32) := by
  decide

section Fields

variable {field packet : Bytes} {p : ℕ} (h : field <+: packet.drop p)
include h

theorem getElem?_of_drop {b : UInt8} (hb : field[i]? = some b) : packet[p + i]? = some b :=
  getElem?_drop.symm.trans (getElem?_of_front h hb)

theorem u16At_of_drop {n : ℕ} (hn : u16At field i = some n) : u16At packet (p + i) = some n := by
  obtain ⟨high, hhigh, hn⟩ := bind_eq_some_iff.1 hn
  obtain ⟨low, hlow, rfl⟩ := map_eq_some_iff.1 hn
  rw [u16At, getElem?_of_drop h hhigh, bind_some, Nat.add_assoc, getElem?_of_drop h hlow, map_some]

end Fields

variable {k : ℕ}

/-- The owner at each place of the chain. -/
theorem chainPacket_facts (hk : k < 33) : chainPacket[chainPlace k]? = some 1 ∧
      getRange chainPacket (chainPlace k + 1) (chainPlace k + 2) = some [0x61] ∧
        chainPacket[chainPlace k + 2]? = some (UInt8.ofNat (0xC0 + chainTarget k / 256)) ∧
          chainPacket[chainPlace k + 3]? = some (UInt8.ofNat (chainTarget k)) := by
  have howner : longerOwner (chainTarget k) <+: chainPacket.drop (chainPlace k) := by
    rcases Nat.lt_succ_iff_lt_or_eq.1 hk with h | rfl
    · exact (prefix_append _ _).trans (chainPacket_front k h)
    · exact (prefix_append _ _).trans chainPacket_back
  have hlabel : chainPacket[chainPlace k + 1]? = some 0x61 := getElem?_of_drop howner rfl
  exact ⟨getElem?_of_drop (i := 0) howner rfl,
    getRange_eq_some.2 ⟨⟨Nat.le_succ _, (List.getElem?_eq_some_iff.1 hlabel).1⟩, slice_succ hlabel⟩,
    getElem?_of_drop howner rfl, getElem?_of_drop howner rfl⟩

theorem nameAt_question : NameAt chainPacket 12 [[0x61]] 0 15 := by
  have hlength : chainPacket[12]? = some 1 := by decide
  have hlabel : getRange chainPacket 13 14 = some [0x61] := by decide +kernel
  have hroot : chainPacket[14]? = some 0 := by decide
  exact NameAt.label hlength (by decide) hlabel (NameAt.root hroot)

theorem nameAt_chain (hk : k < 33) :
    NameAt chainPacket (chainPlace k) (List.replicate (k + 2) [0x61]) (k + 1) (chainPlace k + 4) := by
  induction k with
  | zero =>
    obtain ⟨hlength, hlabel, hhigh, hlow⟩ := chainPacket_facts hk
    exact NameAt.label hlength (by decide) hlabel (NameAt.pointer hhigh (by decide) hlow nameAt_question)
  | succ k ih =>
    obtain ⟨hlength, hlabel, hhigh, hlow⟩ := chainPacket_facts hk
    have htarget : chainTarget (k + 1) = chainPlace k := if_neg (Nat.succ_ne_zero k)
    have hsmall : chainPlace k < 0x4000 := by
      rw [chainPlace]
      omega
    rw [htarget] at hhigh hlow
    have hmark : (UInt8.ofNat (0xC0 + chainPlace k / 256)).toNat = 0xC0 + chainPlace k / 256 := by
      rw [UInt8.toNat_ofNat']
      omega
    have hbyte : (UInt8.ofNat (chainPlace k)).toNat = chainPlace k % 256 := UInt8.toNat_ofNat'
    have hback : ((UInt8.ofNat (0xC0 + chainPlace k / 256)).toNat - 0xC0) * 256 + (UInt8.ofNat (chainPlace k)).toNat =
        chainPlace k := by
      rw [hmark, hbyte]
      omega
    have hrest : NameAt chainPacket
        (((UInt8.ofNat (0xC0 + chainPlace k / 256)).toNat - 0xC0) * 256 + (UInt8.ofNat (chainPlace k)).toNat)
        (List.replicate (k + 2) [0x61]) (k + 1) (chainPlace k + 4) := by
      rw [hback]
      exact ih (by omega)
    rw [replicate_succ]
    exact NameAt.label hlength (by decide) hlabel
      (NameAt.pointer hhigh (by rw [hmark]; exact Nat.le_add_right _ _) hlow hrest)

/-- A record of the chain without data. -/
@[grind =] def chainRecord (k : ℕ) : Record := ⟨List.replicate (k + 2) [0x61], k + 1, 10, 1, 60, []⟩

/-- The address record at the end of the chain. -/
def chainAddress : Record := ⟨List.replicate 34 [0x61], 33, 1, 1, 60, [1, 2, 3, 4]⟩

theorem chainPacket_fields (hk : k < 32) :
    u16At chainPacket (chainPlace k + 4) = some 10 ∧ u16At chainPacket (chainPlace k + 6) = some 1 ∧
      u32At chainPacket (chainPlace k + 8) = some 60 ∧ u16At chainPacket (chainPlace k + 12) = some 0 := by
  have hfront := chainPacket_front k hk
  refine ⟨u16At_of_drop hfront rfl, u16At_of_drop hfront rfl, ?_, u16At_of_drop hfront rfl⟩
  have hhigh : u16At chainPacket (chainPlace k + 8) = some 0 := u16At_of_drop hfront rfl
  have hlow : u16At chainPacket (chainPlace k + 10) = some 60 := u16At_of_drop hfront rfl
  rw [u32At, hhigh, bind_some, hlow]
  rfl

theorem chainPlace_le (hk : k < 32) : chainPlace k + 14 ≤ chainPacket.length :=
  le_length_of_u16At (chainPacket_fields hk).2.2.2

theorem recordsAt_address : RecordsAt chainPacket (chainPlace 32) [chainAddress] (chainPlace 32 + 18) := by
  have hfields : u16At chainPacket (chainPlace 32 + 4) = some 1 ∧ u16At chainPacket (chainPlace 32 + 6) = some 1 ∧
      u32At chainPacket (chainPlace 32 + 8) = some 60 ∧ u16At chainPacket (chainPlace 32 + 12) = some 4 ∧
        getRange chainPacket (chainPlace 32 + 14) (chainPlace 32 + 18) = some [1, 2, 3, 4] := by
    decide +kernel
  obtain ⟨htype, hclass, httl, hlength, hdata⟩ := hfields
  exact RecordsAt.cons (nameAt_chain (by decide)) htype hclass httl hlength hdata RecordsAt.nil

/-- The records of the chain from one of them on. -/
theorem recordsAt_chain {left : ℕ} (h : k + left = 32) :
    RecordsAt chainPacket (chainPlace k) ((List.range' k left).map chainRecord ++ [chainAddress])
      (chainPlace 32 + 18) := by
  induction left generalizing k with
  | zero =>
    obtain rfl : k = 32 := h
    exact recordsAt_address
  | succ left ih =>
    obtain ⟨htype, hclass, httl, hlength⟩ := chainPacket_fields (show k < 32 by omega)
    have hdata : getRange chainPacket (chainPlace k + 14) (chainPlace k + 14) = some [] :=
      getRange_eq_some.2 ⟨⟨le_rfl, chainPlace_le (by omega)⟩, slice_self _ _⟩
    have hnext : chainPlace (k + 1) = chainPlace k + 14 := by
      rw [chainPlace, chainPlace]
      omega
    have hrest := ih (show k + 1 + left = 32 by omega)
    rw [hnext] at hrest
    rw [range'_succ, map_cons, cons_append]
    exact RecordsAt.cons (nameAt_chain (by omega)) htype hclass httl hlength hdata hrest

theorem isTextLabel_chain {count : ℕ} : ∀ label ∈ List.replicate count [(0x61 : UInt8)], IsTextLabel label := by
  intro label hlabel
  rw [eq_of_mem_replicate hlabel]
  exact ⟨by decide, forall_mem_of_all (by decide)⟩

theorem isLegal_chain (hk : k < 33) : IsLegal (List.replicate (k + 2) [0x61]) := by
  rw [IsLegal, wireLength, map_replicate, sum_replicate_nat]
  change (k + 2) * 2 + 1 ≤ 255
  omega

/-- The last owner is not read, and the records before it have no address. -/
theorem readAnswers_chain (host : Text) {left : ℕ} (h : k + left = 32) :
    readAnswers chainPacket host (left + 1) (chainPlace k) = some [] := by
  induction left generalizing k with
  | zero =>
    obtain rfl : k = 32 := h
    rw [readAnswers, readName_of_nameAt (nameAt_chain (by decide)) isTextLabel_chain (isLegal_chain (by decide)),
      if_neg (by decide)]
  | succ left ih =>
    have hk : k < 32 := by omega
    obtain ⟨htype, hclass, httl, hlength⟩ := chainPacket_fields hk
    have hend := chainPlace_le hk
    have hnext : chainPlace (k + 1) = chainPlace k + 14 := by
      rw [chainPlace, chainPlace]
      omega
    have hrest := ih (show k + 1 + left = 32 by omega)
    rw [hnext] at hrest
    rw [readAnswers, readName_of_nameAt (nameAt_chain (by omega)) isTextLabel_chain (isLegal_chain (by omega)),
      if_pos (by rw [maxNamePointers]; omega)]
    dsimp only
    rw [if_neg (by omega), htype, bind_some, hclass, bind_some, httl, bind_some, hlength,
      bind_some, if_neg (by omega), recordIp, if_neg (by decide), if_neg (by decide), bind_some,
      Nat.add_zero, hrest]
    rfl

def chainQuestions : List Question := [⟨[[0x61]], 0⟩]

def chainRecords : List Record := (List.range' 0 32).map chainRecord ++ [chainAddress]

theorem isResponse_chain : IsResponse chainPacket chainQuestions chainRecords where
  header := by decide +kernel
  flags := ⟨0x8180, by decide⟩
  questionCount := by decide
  answerCount := by decide
  body := ⟨19, chainPlace 32 + 18, QuestionsAt.cons nameAt_question (by decide +kernel) QuestionsAt.nil,
    recordsAt_chain (show 0 + 32 = 32 from rfl)⟩
  questionName := ⟨_, rfl, cons_ne_nil _ _⟩
  questionNames := by decide
  ownerNames := by decide
  sized := by decide

/-- In this response the owner of the address record is reached through 33 pointers, each to an earlier owner. -/
theorem extract_chain_wrong : ¬∀ packet questions records, IsResponse packet questions records →
    extractIpAnswers packet = some (answersOf questions records) := by
  intro h
  have hanswers := h _ _ _ isResponse_chain
  have hquestions : readQuestions chainPacket 1 0 dnsHeaderLen none = some (19, some "a".toList) := by decide +kernel
  have hflags : u16At chainPacket 2 = some 0x8180 := by decide
  have hquestionCount : u16At chainPacket 4 = some 1 := by decide
  have hanswerCount : u16At chainPacket 6 = some 33 := by decide
  have hread := readAnswers_chain "a".toList (show 0 + 32 = 32 from rfl)
  rw [extractIpAnswers, if_neg (by decide +kernel), hflags, bind_some, if_neg (by decide), hquestionCount,
    bind_some, hanswerCount, bind_some, if_neg (by decide), hquestions] at hanswers
  replace hanswers := hread.symm.trans hanswers
  revert hanswers
  decide

end Taomni.Sockscap.Dns
