import Taomni.Common.ByteFields
import Taomni.Common.IpAddr
import Taomni.Sockscap.Sniffing

/-!
# Addresses in DNS responses

Reference: `src-tauri/src/sockscap/rules/dns.rs`.

An index that the source does not ask for with `get` is an access that may fail, and a failed one is a panic: the outer
`none` of a result.
-/

namespace Taomni.Sockscap.Dns

open Agent (Text)
open Encoding (fromUtf8 utf8Bytes)

def dnsHeaderLen : ℕ := 12

def maxNamePointers : ℕ := 32

def maxCacheTtl : ℕ := 24 * 60 * 60

/-- An answer, with its time to live in seconds. -/
structure DnsIpAnswer where
  host : Text
  ip : IpAddr
  ttl : ℕ
deriving DecidableEq

/-! ## Names -/

/-- `labels.iter().map(|label| label.len() + 1).sum()`. -/
def nameLength (labels : List String) : ℕ := (labels.map fun label => (utf8Bytes label).length + 1).sum

/-- `labels.join(".").to_ascii_lowercase()`. -/
def hostName (labels : List String) : Text := toAsciiLowercase (".".intercalate labels).toList

theorem nameLength_concat (labels : List String) (label : String) :
    nameLength (labels ++ [label]) = nameLength labels + ((utf8Bytes label).length + 1) := by
  rw [nameLength, List.map_append, List.sum_append, List.map_singleton, List.sum_singleton, nameLength]

/-- The offset in a pointer. -/
def pointerTarget (high low : UInt8) : ℕ := (high &&& 0x3F).toNat <<< 8 ||| low.toNat

/-- The loop of `read_name`: the name and the offset after it. -/
def readNameFrom (packet : Bytes) (cursor : ℕ) (resume : Option ℕ) (labels : List String) (pointers : ℕ) :
    Option (Text × ℕ) :=
  match packet[cursor]? with
  | none => none
  | some length =>
    if length &&& 0xC0 = 0xC0 then
      match packet[cursor + 1]? with
      | none => none
      | some next =>
        if packet.length ≤ pointerTarget length next ∨ maxNamePointers ≤ pointers then none
        else
          readNameFrom packet (pointerTarget length next) (some (resume.getD (cursor + 2))) labels (pointers + 1)
    else if length &&& 0xC0 ≠ 0 ∨ 63 < length then none
    else if length = 0 then some (hostName labels, resume.getD (cursor + 1))
    else
      match (getRange packet (cursor + 1) (cursor + 1 + length.toNat)).bind fromUtf8 with
      | none => none
      | some label =>
        if label.isEmpty || (utf8Bytes label).any (fun byte => byte = 0x2E || byte = 0) then none
        else if 255 < nameLength (labels ++ [label]) then none
        else readNameFrom packet (cursor + 1 + length.toNat) resume (labels ++ [label]) pointers
termination_by (maxNamePointers - pointers) * 256 + (256 - nameLength labels)
decreasing_by
  · omega
  · rename_i hlength
    rw [nameLength_concat] at hlength ⊢
    omega

/-- `read_name`. -/
def readName (packet : Bytes) (offset : ℕ) : Option (Text × ℕ) := readNameFrom packet offset none [] 0

/-! ## Questions and answers -/

/-- The loop over the questions from one of them on: the offset after them, and the name of the first. -/
def readQuestions (packet : Bytes) : ℕ → ℕ → ℕ → Option Text → Option (ℕ × Option Text)
  | 0, _, offset, questionHost => some (offset, questionHost)
  | count + 1, questionIndex, offset, questionHost =>
    (readName packet offset).bind fun (name, offset) =>
      if packet.length < offset + 4 then none
      else
        readQuestions packet count (questionIndex + 1) (offset + 4)
          (if questionIndex = 0 ∧ name ≠ [] then some name else questionHost)

/-- `u32::from_be_bytes` of the bytes from an index on. -/
def u32At (bytes : Bytes) (i : ℕ) : Option ℕ :=
  (u16At bytes i).bind fun high => (u16At bytes (i + 2)).map fun low => high * 65536 + low

/-- The address of a record with some class, type and length of data. -/
def recordIp (packet : Bytes) (offset recordClass recordType dataLen : ℕ) : Option (Option IpAddr) :=
  if recordClass = 1 ∧ recordType = 1 ∧ dataLen = 4 then
    (u32At packet offset).map fun bits => some (IpAddr.v4 (BitVec.ofNat 32 bits))
  else if recordClass = 1 ∧ recordType = 28 ∧ dataLen = 16 then
    (sliceAt packet offset (offset + dataLen)).map fun octets =>
      some (IpAddr.v6 (BitVec.ofNat 128 (bigEndianNat octets)))
  else some none

/-- The loop over the answers. -/
def readAnswers (packet : Bytes) (questionHost : Text) : ℕ → ℕ → Option (List DnsIpAnswer)
  | 0, _ => some []
  | count + 1, offset =>
    match readName packet offset with
    | none => some []
    | some (_, offset) =>
      if packet.length < offset + 10 then some []
      else
        (u16At packet offset).bind fun recordType => (u16At packet (offset + 2)).bind fun recordClass =>
          (u32At packet (offset + 4)).bind fun ttl => (u16At packet (offset + 8)).bind fun dataLen =>
            if packet.length < offset + 10 + dataLen then some []
            else
              (recordIp packet (offset + 10) recordClass recordType dataLen).bind fun ip =>
                (readAnswers packet questionHost count (offset + 10 + dataLen)).map fun answers =>
                  (ip.map fun ip => ⟨questionHost, ip, max 1 (min ttl maxCacheTtl)⟩).toList ++ answers

/-- `extract_ip_answers`. -/
def extractIpAnswers (packet : Bytes) : Option (List DnsIpAnswer) :=
  if packet.length < dnsHeaderLen then some []
  else
    (u16At packet 2).bind fun flags =>
      if flags &&& 0x8000 = 0 ∨ flags &&& 0x0200 ≠ 0 ∨ flags &&& 0x000F ≠ 0 then some []
      else
        (u16At packet 4).bind fun questionCount => (u16At packet 6).bind fun answerCount =>
          if questionCount = 0 ∨ answerCount = 0 then some []
          else
            match readQuestions packet questionCount 0 dnsHeaderLen none with
            | some (offset, some questionHost) => readAnswers packet questionHost answerCount offset
            | _ => some []

/-!
# DNS messages

What stands in a packet, by the format of the messages: names with their pointers, questions and records. Nothing here
follows the code.

Reference: `src-tauri/src/sockscap/rules/dns.rs`.
-/

open Encoding (fromUtf8)

/-! ## Names -/

/-- The labels of the name that stands at a place, how many pointers lead through them, and the place after the name. A
pointer may go forward or backward, as long as the name comes to an end. -/
inductive NameAt (packet : Bytes) : ℕ → List Bytes → ℕ → ℕ → Prop
  | root {offset : ℕ} (hlength : packet[offset]? = some 0) : NameAt packet offset [] 0 (offset + 1)
  | label {offset pointers next : ℕ} {length : UInt8} {label : Bytes} {labels : List Bytes}
      (hlength : packet[offset]? = some length) (hrange : 1 ≤ length.toNat ∧ length.toNat ≤ 63)
      (hlabel : getRange packet (offset + 1) (offset + 1 + length.toNat) = some label)
      (hrest : NameAt packet (offset + 1 + length.toNat) labels pointers next) :
      NameAt packet offset (label :: labels) pointers next
  | pointer {offset pointers next : ℕ} {high low : UInt8} {labels : List Bytes}
      (hhigh : packet[offset]? = some high) (hmark : 0xC0 ≤ high.toNat) (hlow : packet[offset + 1]? = some low)
      (hrest : NameAt packet ((high.toNat - 0xC0) * 256 + low.toNat) labels pointers next) :
      NameAt packet offset labels (pointers + 1) (offset + 2)

/-- The bytes of a name without pointers and without the root. -/
def wireLength (labels : List Bytes) : ℕ := (labels.map fun label => label.length + 1).sum

/-- With the root, a name has at most 255 bytes. -/
def IsLegal (labels : List Bytes) : Prop := wireLength labels + 1 ≤ 255

instance (labels : List Bytes) : Decidable (IsLegal labels) := inferInstanceAs (Decidable (_ ≤ _))

/-- A label that is text without a dot or a zero. -/
def IsTextLabel (label : Bytes) : Prop := (fromUtf8 label).isSome ∧ ∀ byte ∈ label, byte ≠ 0x2E ∧ byte ≠ 0

/-- The text of a label. -/
def labelText (label : Bytes) : String := (fromUtf8 label).getD ""

/-! ## Questions and records -/

structure Question where
  name : List Bytes
  pointers : ℕ

structure Record where
  owner : List Bytes
  pointers : ℕ
  recordType : ℕ
  recordClass : ℕ
  ttl : ℕ
  data : Bytes

/-- The questions that stand from a place on, each with its type and class, and the place after them. -/
inductive QuestionsAt (packet : Bytes) : ℕ → List Question → ℕ → Prop
  | nil {offset : ℕ} : QuestionsAt packet offset [] offset
  | cons {offset start next : ℕ} {question : Question} {questions : List Question}
      (hname : NameAt packet offset question.name question.pointers start) (hfields : start + 4 ≤ packet.length)
      (hrest : QuestionsAt packet (start + 4) questions next) : QuestionsAt packet offset (question :: questions) next

/-- The records that stand from a place on, and the place after them. -/
inductive RecordsAt (packet : Bytes) : ℕ → List Record → ℕ → Prop
  | nil {offset : ℕ} : RecordsAt packet offset [] offset
  | cons {offset start next : ℕ} {record : Record} {records : List Record}
      (howner : NameAt packet offset record.owner record.pointers start)
      (htype : u16At packet start = some record.recordType)
      (hclass : u16At packet (start + 2) = some record.recordClass)
      (httl : u32At packet (start + 4) = some record.ttl)
      (hlength : u16At packet (start + 8) = some record.data.length)
      (hdata : getRange packet (start + 10) (start + 10 + record.data.length) = some record.data)
      (hrest : RecordsAt packet (start + 10 + record.data.length) records next) :
      RecordsAt packet offset (record :: records) next

/-- An address record of the class IN has the length of its address. -/
def Record.IsSized (record : Record) : Prop :=
  record.recordClass = 1 →
    (record.recordType = 1 → record.data.length = 4) ∧ (record.recordType = 28 → record.data.length = 16)

instance (record : Record) : Decidable record.IsSized := inferInstanceAs (Decidable (_ → _))

/-- A whole response that reports success: its header counts its questions and answers, its names are legal, and the
first question has a name. -/
structure IsResponse (packet : Bytes) (questions : List Question) (records : List Record) : Prop where
  header : dnsHeaderLen ≤ packet.length
  flags : ∃ flags, u16At packet 2 = some flags ∧ flags &&& 0x8000 ≠ 0 ∧ flags &&& 0x0200 = 0 ∧ flags &&& 0x000F = 0
  questionCount : u16At packet 4 = some questions.length
  answerCount : u16At packet 6 = some records.length
  body : ∃ offset next, QuestionsAt packet dnsHeaderLen questions offset ∧ RecordsAt packet offset records next
  questionName : ∃ question, questions.head? = some question ∧ question.name ≠ []
  questionNames : ∀ question ∈ questions, IsLegal question.name
  ownerNames : ∀ record ∈ records, IsLegal record.owner
  sized : ∀ record ∈ records, record.IsSized

/-! ## Answers -/

/-- The host of a question, in lower case. -/
def Question.host (question : Question) : Text := hostName (question.name.map labelText)

def Record.ip (record : Record) : Option IpAddr :=
  if record.recordClass = 1 ∧ record.recordType = 1 then some (.v4 (BitVec.ofNat 32 (bigEndianNat record.data)))
  else if record.recordClass = 1 ∧ record.recordType = 28 then
    some (.v6 (BitVec.ofNat 128 (bigEndianNat record.data)))
  else none

/-- The answer in a record, for the host that was asked for. -/
def Record.answer (host : Text) (record : Record) : Option DnsIpAnswer :=
  record.ip.map fun ip => ⟨host, ip, max 1 (min record.ttl maxCacheTtl)⟩

/-- The answers of a response, all for the name of its first question. -/
def answersOf (questions : List Question) (records : List Record) : List DnsIpAnswer :=
  match questions with
  | [] => []
  | question :: _ => records.filterMap (Record.answer question.host)

/-- The names of a response have text labels, and at most 32 pointers lead through each. -/
structure IsReadable (questions : List Question) (records : List Record) : Prop where
  questionLabels : ∀ question ∈ questions, ∀ label ∈ question.name, IsTextLabel label
  ownerLabels : ∀ record ∈ records, ∀ label ∈ record.owner, IsTextLabel label
  questionPointers : ∀ question ∈ questions, question.pointers ≤ maxNamePointers
  ownerPointers : ∀ record ∈ records, record.pointers ≤ maxNamePointers

end Taomni.Sockscap.Dns
